import ScaffCC.IR.Classical

/-!
# The program for square roots

The program looks for the square root of `x` among the polynomials over two elements modulo
`x ^ n + x + 1`. The first register holds the polynomials that are searched, the second one their
squares. The local registers of the modules are parameters here, and the number of rounds is one of
the program.
-/

namespace ScaffCC.SquareRoot

open GateCall Quantum
open Reversible (up down)

variable {ι : Type*}

/-! ## The source -/

/-- `x[n-2]` becomes `q[0] and q[1] and ... and q[n-1]`. -/
def compute (n : ℕ) (q x : ℕ → ι) : List (GateCall ι) :=
  [Toffoli (q 1) (q 0) (x 0)] ++
  (up 1 (n - 1)).map fun j ↦ Toffoli (x (j - 1)) (q (j + 1)) (x j)

/-- The scratch register is restored. -/
def undo (n : ℕ) (q x : ℕ → ι) : List (GateCall ι) :=
  (down 1 (n - 1)).map (fun j ↦ Toffoli (x (j - 1)) (q (j + 1)) (x j)) ++
  [Toffoli (q 1) (q 0) (x 0)]

/-- The diffusion, with the scratch register `x`. -/
def diffuse (n : ℕ) (q x : ℕ → ι) : List (GateCall ι) :=
  (up 0 n).map (fun j ↦ gate1 .H (q j)) ++
  (up 0 n).map (fun j ↦ gate1 .X (q j)) ++
  (up 0 (n - 1)).map (fun j ↦ prep .z (x j) 0) ++
  compute n q x ++
  [gate1 .Z (x (n - 2))] ++
  undo n q x ++
  (up 0 n).map (fun j ↦ gate1 .X (q j)) ++
  (up 0 n).map (fun j ↦ gate1 .H (q j))

/-- Is the polynomial `x`? The answer is a phase, or goes to `t` if `tF` is set. -/
def EQxMark (n : ℕ) (b : ℕ → ι) (t : ι) (x : ℕ → ι) (tF : ℤ) : List (GateCall ι) :=
  (up 0 n).flatMap (fun j ↦ if j ≠ 1 then [gate1 .X (b j)] else []) ++
  (up 0 (n - 1)).map (fun j ↦ prep .z (x j) 0) ++
  compute n b x ++
  (if tF ≠ 0 then [CNOT (x (n - 2)) t] else [gate1 .Z (x (n - 2))]) ++
  undo n b x ++
  (up 0 n).flatMap (fun j ↦ if j ≠ 1 then [gate1 .X (b j)] else [])

/-- The square of the polynomial in the first register is added to the second one. -/
def Sqr (n : ℕ) (a b : ℕ → ι) : List (GateCall ι) :=
  (up 0 ((n - 1) / 2 + 1)).map (fun i ↦ CNOT (a i) (b (2 * i))) ++
  (up ((n + 1) / 2) n).flatMap fun i ↦
    [CNOT (a i) (b (2 * i - n)), CNOT (a i) (b (2 * i - n + 1))]

/-- One step of the iteration: mark, then diffuse. -/
def step (n : ℕ) (a b : ℕ → ι) (t : ι) (x y : ℕ → ι) : List (GateCall ι) :=
  Sqr n a b ++ EQxMark n b t x 0 ++ Sqr n a b ++ diffuse n a y

/-- The program, with the scratch registers `x` and `y` of the marking and the diffusion. -/
def main (n nstep : ℕ) (a b : ℕ → ι) (t : ι) (x y : ℕ → ι) : List (GateCall ι) :=
  (up 0 n).map (fun i ↦ gate1 .H (a i)) ++
  (up 1 (nstep + 1)).flatMap (fun _ ↦ step n a b t x y) ++
  Sqr n a b ++
  EQxMark n b t x 1 ++
  [meas .z t] ++
  (up 0 n).map fun i ↦ meas .z (a i)

/-! ## The registers -/

/-- The wires of a register and of its scratch register are different. -/
structure Scratch (n : ℕ) (q x : ℕ → ι) : Prop where
  injOn_q : Set.InjOn q (Set.Iio n)
  injOn_x : Set.InjOn x (Set.Iio (n - 1))
  apart : ∀ i < n, ∀ j < n - 1, q i ≠ x j

/-- A scratch register that is clear. -/
def Clear (n : ℕ) (x : ℕ → ι) (z : ι → Bool) : Prop := ∀ j < n - 1, z (x j) = false

/-- All bits of a register are set. -/
def allSet (m : ℕ) (q : ℕ → ι) (z : ι → Bool) : Bool := decide (∀ k < m, z (q k) = true)

variable {n : ℕ} {q x : ℕ → ι} {z : ι → Bool} {t : ι}

theorem allSet_succ (m : ℕ) (q : ℕ → ι) (z : ι → Bool) :
    allSet (m + 1) q z = (allSet m q z && z (q m)) := by
  rw [Bool.eq_iff_iff, Bool.and_eq_true, allSet, allSet, decide_eq_true_iff, decide_eq_true_iff]
  exact Nat.forall_lt_succ_right

/-! ## The scratch register -/

/-- The scratch register while it is computed: its lowest `i` bits are done. -/
structure Computed (n : ℕ) (q x : ℕ → ι) (z : ι → Bool) (i : ℕ) (s : ι → Bool) : Prop where
  done : ∀ j < i, s (x j) = allSet (j + 2) q z
  rest : ∀ j < n - 1, i ≤ j → s (x j) = false
  other : ∀ w, (∀ j < n - 1, x j ≠ w) → s w = z w

theorem flips_compute (n : ℕ) (q x : ℕ → ι) : (compute n q x).flatMap flips =
    ⟨[q 1, q 0], x 0⟩ ::
      (up 1 (n - 1)).flatMap fun j ↦ [⟨[x (j - 1), q (j + 1)], x j⟩] := by
  rw [compute, List.singleton_append, List.flatMap_cons, List.flatMap_map]
  rfl

theorem flips_undo (n : ℕ) (q x : ℕ → ι) :
    (undo n q x).flatMap flips = ((compute n q x).flatMap flips).reverse := by
  rw [flips_compute, List.reverse_cons, undo, List.flatMap_append, List.flatMap_map,
    Reversible.down, List.reverse_flatMap]
  rfl

theorem isFlip_compute (h : Scratch n q x) (hn : 2 ≤ n) : ∀ g ∈ compute n q x, g.IsFlip := by
  intro g hg
  rcases List.mem_append.mp hg with hg | hg
  · rw [List.mem_singleton.mp hg]
    exact ⟨h.apart 1 (by omega) 0 (by omega), h.apart 0 (by omega) 0 (by omega)⟩
  · obtain ⟨j, hj, rfl⟩ := List.mem_map.mp hg
    obtain ⟨hj₁, hj₂⟩ := Reversible.mem_up.mp hj
    refine ⟨fun heq ↦ ?_, h.apart (j + 1) (by omega) j hj₂⟩
    have hsame := h.injOn_x (show j - 1 < n - 1 by omega) hj₂ heq
    omega

theorem isFlip_undo (h : Scratch n q x) (hn : 2 ≤ n) : ∀ g ∈ undo n q x, g.IsFlip := by
  intro g hg
  refine isFlip_compute h hn g ?_
  rw [undo, Reversible.down, List.mem_append, List.mem_map] at hg
  rw [compute, List.mem_append, List.mem_map, or_comm]
  simpa only [List.mem_reverse] using hg

variable [DecidableEq ι]

/-- **The scratch register holds whether the lowest bits are all set.** -/
theorem computed (h : Scratch n q x) (hn : 2 ≤ n) (hz : Clear n x z) :
    Computed n q x z (n - 1) (Reversible.run ((compute n q x).flatMap flips) z) := by
  have hother {w : ι} {s : ι → Bool} {j : ℕ} (c₁ c₂ : ι) (hw : x j ≠ w) :
      (⟨[c₁, c₂], x j⟩ : Reversible.Gate ι).act s w = s w :=
    Reversible.Gate.act_of_ne (Ne.symm hw) s
  have hx {i j : ℕ} (hi : i < n - 1) (hj : j < n - 1) (hne : i ≠ j) : x i ≠ x j :=
    fun heq ↦ hne (h.injOn_x hi hj heq)
  have htarget (s : ι → Bool) (j : ℕ) (c₁ c₂ : ι) :
      (⟨[c₁, c₂], x j⟩ : Reversible.Gate ι).act s (x j) = (s (x j) ^^ (s c₁ && s c₂)) := by
    rw [Reversible.Gate.act_apply, if_pos rfl, Reversible.Gate.fires]
    simp only [List.all_cons, List.all_nil, Bool.and_true]
  rw [flips_compute, Reversible.run_cons]
  refine Reversible.run_up (P := Computed n q x z) (by omega) ⟨?_, ?_, ?_⟩ ?_
  · intro j hj
    obtain rfl := Nat.lt_one_iff.mp hj
    rw [htarget, hz 0 (by omega), Bool.false_xor, allSet_succ, allSet_succ, Bool.and_comm]
    simp [allSet]
  · intro j hj hj₁
    rw [hother _ _ (hx (by omega) hj (by omega)), hz j hj]
  · intro w hw
    exact hother _ _ (hw 0 (by omega))
  -- bit `i` is the bit below and the next bit of the register
  · intro i s hi₁ hi hs
    rw [Reversible.run_cons, Reversible.run_nil]
    refine ⟨fun j hj ↦ ?_, fun j hj hij ↦ ?_, fun w hw ↦ ?_⟩
    · rcases Nat.lt_succ_iff_lt_or_eq.mp hj with hlt | rfl
      · rw [hother _ _ (hx hi (by omega) (by omega)), hs.done j hlt]
      · have hq : s (q (j + 1)) = z (q (j + 1)) :=
          hs.other _ fun k hk ↦ (h.apart (j + 1) (by omega) k hk).symm
        rw [htarget, hs.rest j hi le_rfl, Bool.false_xor, hs.done (j - 1) (by omega), hq,
          show j - 1 + 2 = j + 1 by omega, allSet_succ (j + 1)]
    · rw [hother _ _ (hx hi hj (by omega)), hs.rest j hj (by omega)]
    · rw [hother _ _ (hw i hi), hs.other w hw]

theorem run_undo_compute (h : Scratch n q x) (hn : 2 ≤ n) (z : ι → Bool) :
    Reversible.run ((undo n q x).flatMap flips)
      (Reversible.run ((compute n q x).flatMap flips) z) = z := by
  rw [flips_undo]
  exact Reversible.run_reverse_run (proper_of_mem_flips (isFlip_compute h hn)) z

theorem run_compute_top (h : Scratch n q x) (hn : 2 ≤ n) (hz : Clear n x z) :
    Reversible.run ((compute n q x).flatMap flips) z (x (n - 2)) = allSet n q z := by
  rw [(computed h hn hz).done (n - 2) (by omega), Nat.sub_add_cancel hn]

/-- **A phase flip of the highest scratch bit** is one for the register with all bits set. -/
theorem compose_phase (h : Scratch n q x) (hn : 2 ≤ n) (hz : Clear n x z) :
    compose operator (compute n q x ++ [gate1 .Z (x (n - 2))] ++ undo n q x) (ket z) =
      (if allSet n q z then (-1 : ℂ) else 1) • ket z := by
  rw [compose_append, compose_append, Module.End.mul_apply, Module.End.mul_apply,
    compose_ket (isFlip_compute h hn), compose_cons, compose_nil, one_mul, operator_Z_ket,
    run_compute_top h hn hz, map_smul, compose_ket (isFlip_undo h hn), run_undo_compute h hn]

/-- **A negation under the highest scratch bit** is one for the register with all bits set. -/
theorem compose_flag (h : Scratch n q x) (hn : 2 ≤ n) (hz : Clear n x z)
    (htq : ∀ i < n, q i ≠ t) (htx : ∀ j < n - 1, x j ≠ t) :
    compose operator (compute n q x ++ [CNOT (x (n - 2)) t] ++ undo n q x) (ket z) =
      ket (Function.update z t (z t ^^ allSet n q z)) := by
  have hflip : ∀ g ∈ [(CNOT (x (n - 2)) t : GateCall ι)], g.IsFlip :=
    List.forall_mem_singleton.mpr (htx (n - 2) (by omega))
  have hcnot (s : ι → Bool) :
      Reversible.run ([(CNOT (x (n - 2)) t : GateCall ι)].flatMap flips) s =
        Function.update s t (s t ^^ s (x (n - 2))) := by
    rw [List.flatMap_singleton, flips, Reversible.run_cons, Reversible.run_nil,
      Reversible.Gate.act, flipWhen, Reversible.Gate.fires, List.all_cons, List.all_nil,
      Bool.and_true]
  have havoids : ∀ r ∈ (undo n q x).flatMap flips, r.Avoids t := by
    have hgate (w : ι) (i j : ℕ) (hw : t ≠ w) (hi : i < n) (hj : j < n - 1) :
        (⟨[w, q i], x j⟩ : Reversible.Gate ι).Avoids t := by
      refine ⟨fun hmem ↦ ?_, (htx j hj).symm⟩
      rcases List.mem_cons.mp hmem with hmem | hmem
      · exact hw hmem
      · exact htq i hi (List.mem_singleton.mp hmem).symm
    intro r hr
    rw [flips_undo, List.mem_reverse, flips_compute, List.mem_cons, List.mem_flatMap] at hr
    rcases hr with rfl | ⟨j, hj, hr⟩
    · exact hgate _ 0 0 (htq 1 (by omega)).symm (by omega) (by omega)
    · obtain ⟨hj₁, hj₂⟩ := Reversible.mem_up.mp hj
      rw [List.mem_singleton.mp hr]
      exact hgate _ (j + 1) j (htx (j - 1) (by omega)).symm (by omega) hj₂
  rw [compose_append, compose_append, Module.End.mul_apply, Module.End.mul_apply,
    compose_ket (isFlip_compute h hn), compose_ket hflip, hcnot, run_compute_top h hn hz,
    (computed h hn hz).other t htx, compose_ket (isFlip_undo h hn),
    Reversible.run_update havoids, run_undo_compute h hn]

end ScaffCC.SquareRoot
