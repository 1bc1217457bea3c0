import ScaffCC.SquareRoot.Mark
import ScaffCC.SquareRoot.Square

/-!
# The search for the square root

The modules on basis states and on sums of them, and the whole program. With clear registers at
first, the amplitudes of the polynomials that are searched change as in a search: one step marks the
square roots of `x` and takes twice the mean off. There is exactly one square root, so that the
chance to find it is the square of a sine, and it is near one after the number of steps that the
program makes.
-/

namespace ScaffCC.SquareRoot

open GateCall Quantum
open Finset (range mem_range)
open Reversible (up)
open scoped ENNReal Finset

variable {ι : Type*} [DecidableEq ι] {n : ℕ} {a b q x y : ℕ → ι} {t : ι} {z : ι → Bool}

/-! ## The modules -/

/-- The basis state with the square of the first polynomial added to the second one. -/
def squared (n : ℕ) (a b : ℕ → ι) (z : ι → Bool) : ι → Bool :=
  Reversible.run ((Sqr n a b).flatMap flips) z

omit [DecidableEq ι] in
theorem isFlip_Sqr (h : Pair n a b) (hn : 2 ≤ n) : ∀ g ∈ Sqr n a b, g.IsFlip := by
  intro g hg
  rw [Sqr_eq] at hg
  obtain ⟨e, he, rfl⟩ := List.mem_map.mp hg
  obtain ⟨h₁, h₂⟩ := mem_copies (by omega) he
  exact h.apart _ h₁ _ h₂

theorem certain_Sqr (h : Pair n a b) (hn : 2 ≤ n) (s : Finset ℕ) (f : ℕ → ℂ)
    (e : ℕ → ι → Bool) : Certain outcomes (Sqr n a b) (∑ v ∈ s, f v • ket (e v))
      (∑ v ∈ s, f v • ket (squared n a b (e v))) :=
  certain_flips (isFlip_Sqr h hn) s f e

theorem squared_other (h : Pair n a b) (hn : 2 ≤ n) (z : ι → Bool) {w : ι}
    (hw : ∀ k < n, b k ≠ w) : squared n a b z w = z w := by
  rw [squared, Sqr_eq]
  exact (run_copies h (fun e ↦ mem_copies (by omega)) z).1 w hw

theorem content_squared (h : Pair n a b) (hn : 2 ≤ n) (z : ι → Bool) :
    content n b (squared n a b z) = content n b z + content n a z ^ 2 := by
  rw [squared, Sqr_eq, (run_copies h (fun e ↦ mem_copies (by omega)) z).2, sum_copies hn]

theorem content_first (h : Pair n a b) (hn : 2 ≤ n) (z : ι → Bool) :
    content n a (squared n a b z) = content n a z := by
  rw [content_eq, content_eq]
  refine Finset.sum_congr rfl fun i hi ↦ ?_
  rw [squared_other h hn z fun k hk ↦ (h.apart i (mem_range.mp hi) k hk).symm]

theorem squared_squared (h : Pair n a b) (hn : 2 ≤ n) (z : ι → Bool) :
    squared n a b (squared n a b z) = z := by
  refine eq_of_content_eq hn (b := b) (fun w hw ↦ ?_) ?_
  · rw [squared_other h hn _ hw, squared_other h hn _ hw]
  · rw [content_squared h hn, content_squared h hn, content_first h hn, add_assoc, ← two_mul,
      two_eq_zero, zero_mul, add_zero]

/-- **The squaring adds the square**: every basis state becomes one in which only the second
register has changed, by the square of the first one, and two of them are nothing. -/
theorem Sqr_adds (h : Pair n a b) (hn : 2 ≤ n) (z : ι → Bool) :
    ∃ s, results outcomes (Sqr n a b) (ket z) = [ket s] ∧
      (∀ w, (∀ k < n, b k ≠ w) → s w = z w) ∧
      content n b s = content n b z + content n a z ^ 2 ∧
      results outcomes (Sqr n a b) (ket s) = [ket z] := by
  have hrun (z : ι → Bool) : results outcomes (Sqr n a b) (ket z) = [ket (squared n a b z)] := by
    rw [results, ← circuit, circuit_of_isUnitary fun g hg ↦ (isFlip_Sqr h hn g hg).isUnitary,
      List.map_singleton, compose_ket (isFlip_Sqr h hn), squared]
  refine ⟨squared n a b z, hrun z, fun w ↦ squared_other h hn z, content_squared h hn z, ?_⟩
  rw [hrun, squared_squared h hn]

omit [DecidableEq ι] in
theorem pair_registers (n : ℕ) : Pair n (Prod.mk 0 : ℕ → ℕ × ℕ) (Prod.mk 1) where
  injOn_a := (Prod.mk_right_injective 0).injOn
  injOn_b := (Prod.mk_right_injective 1).injOn
  apart _ _ _ _ h := Nat.zero_ne_one (congrArg Prod.fst h)

/-- The program of the source has ten qubits in a register. -/
theorem Sqr_adds_ten : ∃ s, results outcomes (Sqr 10 (Prod.mk 0 : ℕ → ℕ × ℕ) (Prod.mk 1))
        (ket fun w ↦ decide (w.1 = 0)) = [ket s] ∧
      (∀ w : ℕ × ℕ, (∀ k < 10, (1, k) ≠ w) → s w = decide (w.1 = 0)) ∧
      content 10 (Prod.mk 1) s = content 10 (Prod.mk 1) (fun w : ℕ × ℕ ↦ decide (w.1 = 0)) +
        content 10 (Prod.mk 0) (fun w : ℕ × ℕ ↦ decide (w.1 = 0)) ^ 2 ∧
      results outcomes (Sqr 10 (Prod.mk 0 : ℕ → ℕ × ℕ) (Prod.mk 1)) (ket s) =
        [ket fun w ↦ decide (w.1 = 0)] :=
  Sqr_adds (pair_registers 10) (by norm_num) fun w ↦ decide (w.1 = 0)

omit [DecidableEq ι] in
theorem element_two (hn : 2 ≤ n) : element n 2 = root n := by
  have hone : 1 ∈ range n := mem_range.mpr (by omega)
  rw [element, Finset.sum_eq_single_of_mem 1 hone]
  · rw [testBit_two, decide_eq_true rfl, if_pos rfl, pow_one]
  · intro i _ hi
    rw [testBit_two, decide_eq_false hi.symm, if_neg Bool.false_ne_true]

omit [DecidableEq ι] in
theorem number_eq_two_iff (hn : 2 ≤ n) (b : ℕ → ι) (z : ι → Bool) :
    number b n z = 2 ↔ content n b z = root n := by
  have htwo : 2 < 2 ^ n := lt_of_lt_of_le (by norm_num) (Nat.pow_le_pow_right two_pos hn)
  rw [← element_two hn, content]
  exact ((element_injOn hn).eq_iff (number_lt b n z) htwo).symm

open Classical in
/-- **The marking marks `x`**: with a clear scratch register it is certain, changes nothing but the
sign of the basis states with the polynomial `x` or the result qubit there, and leaves the scratch
register clear. -/
theorem EQxMark_marks (h : MarkWires n b t x) (hn : 2 ≤ n) (hz : Clear n x z) (tF : ℤ) :
    Certain outcomes (EQxMark n b t x tF) (ket z) (if tF = 0
      then (if content n b z = root n then (-1 : ℂ) else 1) • ket z
      else ket (Function.update z t (z t ^^ decide (content n b z = root n)))) := by
  have hcertain := certain_EQxMark h hn tF fun j hj ↦ cleared_ket (hz j hj)
  split_ifs with htF hx
  · subst htF
    rwa [compose_EQxMark_zero h hn hz, if_pos ((number_eq_two_iff hn b z).mpr hx)] at hcertain
  · subst htF
    rwa [compose_EQxMark_zero h hn hz, if_neg ((number_eq_two_iff hn b z).not.mpr hx)]
      at hcertain
  · rw [compose_EQxMark_of_ne h hn htF hz] at hcertain
    simpa only [number_eq_two_iff hn b z] using hcertain

omit [DecidableEq ι] in
theorem mark_registers (n : ℕ) : MarkWires n (Prod.mk 1 : ℕ → ℕ × ℕ) (2, 0) (Prod.mk 3) where
  injOn_q := (Prod.mk_right_injective 1).injOn
  injOn_x := (Prod.mk_right_injective 3).injOn
  apart _ _ _ _ h := absurd (congrArg Prod.fst h) (by norm_num)
  result_b _ _ h := absurd (congrArg Prod.fst h) (by norm_num)
  result_x _ _ h := absurd (congrArg Prod.fst h) (by norm_num)

open Classical in
/-- A register with the polynomial `x`, and the answer in the result qubit. -/
theorem EQxMark_marks_ten :
    Certain outcomes (EQxMark 10 (Prod.mk 1 : ℕ → ℕ × ℕ) (2, 0) (Prod.mk 3) 1)
      (ket fun w ↦ decide (w = (1, 1))) (if (1 : ℤ) = 0
        then (if content 10 (Prod.mk 1) (fun w : ℕ × ℕ ↦ decide (w = (1, 1))) = root 10
          then (-1 : ℂ) else 1) • ket fun w ↦ decide (w = (1, 1))
        else ket (Function.update (fun w ↦ decide (w = (1, 1))) (2, 0)
          (decide ((2, 0) = (1, 1)) ^^ decide
            (content 10 (Prod.mk 1) (fun w : ℕ × ℕ ↦ decide (w = (1, 1))) = root 10)))) :=
  EQxMark_marks (mark_registers 10) (by norm_num)
    (fun _ _ ↦ decide_eq_false fun h ↦ absurd (congrArg Prod.fst h) (by norm_num)) 1

/-- **The diffusion is a reflection**: with a clear scratch register it is certain, and takes twice
the mean off the amplitude of every number in the register. -/
theorem diffuse_reflects (h : Scratch n q x) (hn : 2 ≤ n) (hz : Clear n x z) (f : ℕ → ℂ) :
    Certain outcomes (diffuse n q x) (∑ v ∈ range (2 ^ n), f v • ket (place q n v z))
      (∑ v ∈ range (2 ^ n),
        (f v - 2 * (∑ w ∈ range (2 ^ n), f w) / 2 ^ n) • ket (place q n v z)) := by
  have hclear : ∀ j < n - 1,
      Cleared (x j) (∑ v ∈ range (2 ^ n), f v • ket (place q n v z)) :=
    fun j hj ↦ cleared_sum f fun v _ ↦ cleared_ket (h.clear_place hz v j hj)
  have hcertain := certain_diffuse h hn hclear
  rw [compose_diffuse h hn hz] at hcertain
  simpa only [Search.reflect_apply, Finset.card_range, Nat.cast_pow, Nat.cast_ofNat] using hcertain

omit [DecidableEq ι] in
theorem diffuse_registers (n : ℕ) : Scratch n (Prod.mk 0 : ℕ → ℕ × ℕ) (Prod.mk 4) where
  injOn_q := (Prod.mk_right_injective 0).injOn
  injOn_x := (Prod.mk_right_injective 4).injOn
  apart _ _ _ _ h := absurd (congrArg Prod.fst h) (by norm_num)

/-- One amplitude is one, the others are zero. -/
theorem diffuse_reflects_ten :
    Certain outcomes (diffuse 10 (Prod.mk 0 : ℕ → ℕ × ℕ) (Prod.mk 4))
      (∑ v ∈ range (2 ^ 10), (Pi.single 3 1 : ℕ → ℂ) v •
        ket (place (Prod.mk 0 : ℕ → ℕ × ℕ) 10 v fun _ ↦ false))
      (∑ v ∈ range (2 ^ 10), ((Pi.single 3 1 : ℕ → ℂ) v -
          2 * (∑ w ∈ range (2 ^ 10), (Pi.single 3 1 : ℕ → ℂ) w) / 2 ^ 10) •
        ket (place (Prod.mk 0 : ℕ → ℕ × ℕ) 10 v fun _ ↦ false)) :=
  diffuse_reflects (diffuse_registers 10) (by norm_num) (fun _ _ ↦ rfl) _

/-! ## The program -/

/-- The wires of the program are different, where it matters. -/
structure Wires (n : ℕ) (a b : ℕ → ι) (t : ι) (x y : ℕ → ι) : Prop extends Pair n a b where
  mark : MarkWires n b t x
  diffuse : Scratch n a y
  first_mark : ∀ i < n, a i ≠ t ∧ ∀ j < n - 1, a i ≠ x j

structure AllClear (n : ℕ) (a b : ℕ → ι) (t : ι) (x y : ℕ → ι) (z : ι → Bool) : Prop where
  first : ∀ i < n, z (a i) = false
  second : ∀ i < n, z (b i) = false
  result : z t = false
  mark : Clear n x z
  diffuse : Clear n y z

omit [DecidableEq ι] in
theorem wires_registers (n : ℕ) :
    Wires n (Prod.mk 0 : ℕ → ℕ × ℕ) (Prod.mk 1) (2, 0) (Prod.mk 3) (Prod.mk 4) where
  toPair := pair_registers n
  mark := mark_registers n
  diffuse := diffuse_registers n
  first_mark _ _ := ⟨fun h ↦ absurd (congrArg Prod.fst h) (by norm_num),
    fun _ _ h ↦ absurd (congrArg Prod.fst h) (by norm_num)⟩

omit [DecidableEq ι] in
theorem allClear_false (n : ℕ) (a b : ℕ → ι) (t : ι) (x y : ℕ → ι) :
    AllClear n a b t x y fun _ ↦ false :=
  ⟨fun _ _ ↦ rfl, fun _ _ ↦ rfl, rfl, fun _ _ ↦ rfl, fun _ _ ↦ rfl⟩

section Program

open scoped Classical

variable (h : Wires n a b t x y) (hn : 2 ≤ n) (hz : AllClear n a b t x y z)

include h hn hz

theorem content_squared_place {v : ℕ} (hv : v < 2 ^ n) :
    content n b (squared n a b (place a n v z)) = element n v ^ 2 := by
  have hzero : content n b (place a n v z) = 0 := by
    rw [content_eq]
    refine Finset.sum_eq_zero fun k hk ↦ ?_
    have hk' := mem_range.mp hk
    rw [place_of_ne (fun i hi ↦ h.apart i hi k hk'), hz.second k hk', if_neg Bool.false_ne_true]
  rw [content_squared h.toPair hn, hzero, zero_add, content, number_place h.injOn_a,
    Nat.mod_eq_of_lt hv]

omit hn hz in
theorem clear_squared_place (hn : 2 ≤ n) (hz : AllClear n a b t x y z) (v : ℕ) :
    Clear n x (squared n a b (place a n v z)) := by
  intro j hj
  rw [squared_other h.toPair hn _ fun k hk ↦ h.mark.apart k hk j hj,
    place_of_ne fun i hi ↦ (h.first_mark i hi).2 j hj]
  exact hz.mark j hj

theorem certain_mark (f : ℕ → ℂ) :
    Certain outcomes (EQxMark n b t x 0)
      (∑ v ∈ range (2 ^ n), f v • ket (squared n a b (place a n v z)))
      (∑ v ∈ range (2 ^ n),
        Search.mark (fun v ↦ element n v ^ 2 = root n) f v •
          ket (squared n a b (place a n v z))) := by
  have hclear : ∀ j < n - 1, Cleared (x j)
      (∑ v ∈ range (2 ^ n), f v • ket (squared n a b (place a n v z))) :=
    fun j hj ↦ cleared_sum f fun v _ ↦ cleared_ket (clear_squared_place h hn hz v j hj)
  have hcertain := certain_EQxMark h.mark hn 0 hclear
  rw [map_sum] at hcertain
  convert hcertain using 1
  refine Finset.sum_congr rfl fun v hv ↦ ?_
  have hmarked : number b n (squared n a b (place a n v z)) = 2 ↔ element n v ^ 2 = root n := by
    rw [number_eq_two_iff hn, content_squared_place h hn hz (mem_range.mp hv)]
  rw [map_smul, compose_EQxMark_zero h.mark hn (clear_squared_place h hn hz v), smul_smul,
    Search.mark]
  split_ifs with h₁ h₂ h₂
  · rw [mul_neg_one]
  · exact absurd (hmarked.mpr h₁) h₂
  · exact absurd (hmarked.mp h₂) h₁
  · rw [mul_one]

/-- **One step of the iteration is one round of the search.** -/
theorem certain_step (f : ℕ → ℂ) :
    Certain outcomes (step n a b t x y) (∑ v ∈ range (2 ^ n), f v • ket (place a n v z))
      (∑ v ∈ range (2 ^ n),
        Search.round (range (2 ^ n)) (fun v ↦ element n v ^ 2 = root n) f v •
          ket (place a n v z)) := by
  set g := Search.mark (fun v ↦ element n v ^ 2 = root n) f with hg
  have hforth := certain_Sqr h.toPair hn (range (2 ^ n)) f fun v ↦ place a n v z
  have hback := certain_Sqr h.toPair hn (range (2 ^ n)) g fun v ↦ squared n a b (place a n v z)
  simp only [squared_squared h.toPair hn] at hback
  have hclear : ∀ j < n - 1, Cleared (y j) (∑ v ∈ range (2 ^ n), g v • ket (place a n v z)) :=
    fun j hj ↦ cleared_sum g fun v _ ↦ cleared_ket (h.diffuse.clear_place hz.diffuse v j hj)
  have hreflect := certain_diffuse h.diffuse hn hclear
  rw [compose_diffuse h.diffuse hn hz.diffuse] at hreflect
  have hmark := certain_mark h hn hz f
  exact ((hforth.append hmark).append hback).append hreflect

omit [DecidableEq ι] h hn hz in
theorem invSqrtTwo_pow (n : ℕ) : invSqrtTwo ^ n = (((√(#(range (2 ^ n)) : ℝ))⁻¹ : ℝ) : ℂ) := by
  have hsqrt : √((2 : ℝ) ^ n) = √2 ^ n := by
    rw [Real.sqrt_eq_iff_mul_self_eq (by positivity) (by positivity), ← mul_pow,
      Real.mul_self_sqrt zero_le_two]
  rw [Finset.card_range, Nat.cast_pow, Nat.cast_ofNat, hsqrt, invSqrtTwo]
  push_cast
  exact inv_pow _ n

omit h hn in
/-- The Hadamard gates make all amplitudes the same. -/
theorem certain_start (ha : Set.InjOn a (Set.Iio n)) :
    Certain outcomes ((up 0 n).map fun i ↦ gate1 .H (a i)) (ket z)
      (∑ v ∈ range (2 ^ n), (((√(#(range (2 ^ n)) : ℝ))⁻¹ : ℝ) : ℂ) • ket (place a n v z)) := by
  have hunitary : ∀ g ∈ (up 0 n).map fun i ↦ gate1 .H (a i), outcomes g = [operator g] := by
    intro g hg
    obtain ⟨i, -, rfl⟩ := List.mem_map.mp hg
    rfl
  have hclear : place a n 0 z = z :=
    (eq_place ha (fun s hs ↦ (hz.first s hs).trans (Nat.zero_testBit s).symm) fun _ _ ↦ rfl).symm
  have hcertain := Certain.of_operators hunitary (ket z)
  rw [compose_hadamards, ← hclear, layer_ket ha, hclear, invSqrtTwo_pow, Finset.smul_sum]
    at hcertain
  simpa only [walsh_zero_left, one_smul] using hcertain

theorem certain_steps (k : ℕ) (f : ℕ → ℂ) :
    Certain outcomes ((up 1 (k + 1)).flatMap fun _ ↦ step n a b t x y)
      (∑ v ∈ range (2 ^ n), f v • ket (place a n v z))
      (∑ v ∈ range (2 ^ n),
        (Search.round (range (2 ^ n)) fun v ↦ element n v ^ 2 = root n)^[k] f v •
          ket (place a n v z)) := by
  induction k with
  | zero => exact Certain.nil _
  | succ k ih =>
    rw [Reversible.up_succ_right (by omega), List.flatMap_append, List.flatMap_singleton,
      Function.iterate_succ']
    exact ih.append (certain_step h hn hz _)

/-- The basis state before the measurements. -/
noncomputable def final (n : ℕ) (a b : ℕ → ι) (t : ι) (z : ι → Bool) (v : ℕ) : ι → Bool :=
  Function.update (squared n a b (place a n v z)) t
    (decide (element n v ^ 2 = root n))

/-- The amplitude of a polynomial after `k` steps. -/
noncomputable def amplitude (n k : ℕ) : ℕ → ℂ :=
  (Search.round (range (2 ^ n)) fun v ↦ element n v ^ 2 = root n)^[k]
    fun _ ↦ (((√(#(range (2 ^ n)) : ℝ))⁻¹ : ℝ) : ℂ)

theorem certain_final (k : ℕ) :
    Certain outcomes ((up 0 n).map (fun i ↦ gate1 .H (a i)) ++
        (up 1 (k + 1)).flatMap (fun _ ↦ step n a b t x y) ++ Sqr n a b ++ EQxMark n b t x 1) (ket z)
      (∑ v ∈ range (2 ^ n), amplitude n k v • ket (final n a b t z v)) := by
  have hsteps := (certain_start hz h.injOn_a).append (certain_steps h hn hz k _)
  set f := amplitude n k
  have hsquare := certain_Sqr h.toPair hn (range (2 ^ n)) f fun v ↦ place a n v z
  have hclear : ∀ j < n - 1, Cleared (x j)
      (∑ v ∈ range (2 ^ n), f v • ket (squared n a b (place a n v z))) :=
    fun j hj ↦ cleared_sum f fun v _ ↦ cleared_ket (clear_squared_place h hn hz v j hj)
  have hresult := certain_EQxMark h.mark hn 1 hclear
  have hfinal : ∀ v ∈ range (2 ^ n), compose operator (EQxMark n b t x 1)
      (f v • ket (squared n a b (place a n v z))) = f v • ket (final n a b t z v) := by
    intro v hv
    have ht : squared n a b (place a n v z) t = false := by
      rw [squared_other h.toPair hn _ h.mark.result_b,
        place_of_ne fun i hi ↦ (h.first_mark i hi).1, hz.result]
    have hmarked : number b n (squared n a b (place a n v z)) = 2 ↔ element n v ^ 2 = root n := by
      rw [number_eq_two_iff hn, content_squared_place h hn hz (mem_range.mp hv)]
    rw [map_smul, compose_EQxMark_of_ne h.mark hn one_ne_zero (clear_squared_place h hn hz v), ht,
      Bool.false_xor, final]
    simp only [hmarked]
  rw [map_sum, Finset.sum_congr rfl hfinal] at hresult
  exact (hsteps.append hsquare).append hresult

omit hz in
theorem content_final (v : ℕ) : content n a (final n a b t z v) = element n v := by
  rw [content_eq, element]
  refine Finset.sum_congr rfl fun i hi ↦ ?_
  have hi' := mem_range.mp hi
  rw [final, Function.update_of_ne (h.first_mark i hi').1,
    squared_other h.toPair hn _ fun k hk ↦ (h.apart i hi' k hk).symm, place_wire h.injOn_a hi']

omit h hn hz in
theorem result_final (v : ℕ) : final n a b t z v t = true ↔ element n v ^ 2 = root n := by
  rw [final, Function.update_self, decide_eq_true_iff]

omit hz in
theorem injOn_final : Set.InjOn (final n a b t z) (range (2 ^ n)) := by
  intro v hv w hw heq
  refine element_injOn hn (mem_range.mp hv) (mem_range.mp hw) ?_
  rw [← content_final h hn (z := z) v, heq, content_final h hn]

omit h hn hz [DecidableEq ι] in
theorem exists_marked (hn : 2 ≤ n) : ∃ v, element n v ^ 2 = root n ∧
    {v ∈ range (2 ^ n) | element n v ^ 2 = root n} = {v} := by
  obtain ⟨v, ⟨hv, hroot⟩, hunique⟩ := existsUnique_sqrt hn (root n)
  refine ⟨v, hroot, ?_⟩
  ext w
  rw [Finset.mem_filter, mem_range, Finset.mem_singleton]
  constructor
  · exact fun hw ↦ hunique w hw
  · rintro rfl
    exact ⟨hv, hroot⟩

omit h hn hz [DecidableEq ι] in
theorem marked_eq_one (hn : 2 ≤ n) :
    Search.marked (range (2 ^ n)) (fun v ↦ element n v ^ 2 = root n) = 1 := by
  obtain ⟨v, -, hsingle⟩ := exists_marked hn
  rw [Search.marked, hsingle, Finset.card_singleton, Nat.cast_one]

omit h hn hz [DecidableEq ι] in
theorem unmarked_pos (hn : 2 ≤ n) :
    0 < Search.unmarked (range (2 ^ n)) (fun v ↦ element n v ^ 2 = root n) := by
  have hpow : (4 : ℝ) ≤ 2 ^ n := by
    calc (4 : ℝ) = 2 ^ 2 := by norm_num
      _ ≤ 2 ^ n := pow_le_pow_right₀ one_le_two hn
  have hsum := Search.marked_add_unmarked (s := range (2 ^ n))
    (p := fun v ↦ element n v ^ 2 = root n)
  rw [marked_eq_one hn, Finset.card_range, Nat.cast_pow, Nat.cast_ofNat] at hsum
  linarith

omit h hn hz [DecidableEq ι] in
theorem amplitude_sq (hn : 2 ≤ n) (k : ℕ) {v : ℕ} (hv : element n v ^ 2 = root n) :
    ‖amplitude n k v‖ₑ ^ 2 =
      ENNReal.ofReal (Real.sin ((2 * k + 1) * Real.arcsin (√(2 ^ n))⁻¹) ^ 2) := by
  have hangle : Search.angle (range (2 ^ n)) (fun v ↦ element n v ^ 2 = root n) =
      Real.arcsin (√(2 ^ n))⁻¹ := by
    rw [Search.angle, marked_eq_one hn, Finset.card_range, Nat.cast_pow, Nat.cast_ofNat,
      Real.sqrt_div zero_le_one, Real.sqrt_one, one_div]
  have hnorm (c : ℂ) : ‖c‖ₑ ^ 2 = ENNReal.ofReal (‖c‖ ^ 2) := by
    rw [← ofReal_norm, ENNReal.ofReal_pow (norm_nonneg c)]
  have hmarked : 0 < Search.marked (range (2 ^ n)) fun v ↦ element n v ^ 2 = root n := by
    rw [marked_eq_one hn]
    exact one_pos
  rw [amplitude, Search.iterate_round hmarked (unmarked_pos hn), hnorm, Search.spread,
    if_pos hv, marked_eq_one hn, Real.sqrt_one, div_one, hangle, norm_mul, norm_pow, norm_neg,
    norm_one, one_pow, one_mul, Complex.norm_real, Real.norm_eq_abs, sq_abs]

/-- What the program measures, in the amplitudes before it. -/
theorem chance_main (k : ℕ) (p : Set (ι → Bool)) :
    chance outcomes (main n k a b t x y) (ket z) p =
      ∑ v ∈ range (2 ^ n) with final n a b t z v ∈ p, ‖amplitude n k v‖ₑ ^ 2 := by
  have hmeasure : ∀ g ∈ [meas .z t] ++ (up 0 n).map fun i ↦ meas .z (a i),
      Observes outcomes g := by
    intro g hg
    rcases List.mem_append.mp hg with hg | hg
    · rw [List.mem_singleton.mp hg]
      exact observes_measZ t
    · obtain ⟨i, -, rfl⟩ := List.mem_map.mp hg
      exact observes_measZ (a i)
  rw [main, List.append_assoc _ [meas .z t], (certain_final h hn hz k).chance_append,
    chance_of_observes hmeasure, weight_sum_ket _ (injOn_final h hn)]

theorem chance_found (k : ℕ) :
    chance outcomes (main n k a b t x y) (ket z) {w | w t = true ∧ content n a w ^ 2 = root n} =
      ENNReal.ofReal (Real.sin ((2 * k + 1) * Real.arcsin (√(2 ^ n))⁻¹) ^ 2) := by
  obtain ⟨v, hv, hsingle⟩ := exists_marked hn
  simp only [chance_main h hn hz, Set.mem_ofPred_eq, result_final, content_final h hn, and_self]
  rw [hsingle, Finset.sum_singleton, amplitude_sq hn k hv]

/-- **The chance to find the square root**: after `k` steps the program measures the square root of
`x` and a result that says so with the chance of a search, and it never measures another polynomial
with a result that says so. -/
theorem main_finds (k : ℕ) :
    chance outcomes (main n k a b t x y) (ket z) {w | w t = true ∧ content n a w ^ 2 = root n} =
        ENNReal.ofReal (Real.sin ((2 * k + 1) * Real.arcsin (√(2 ^ n))⁻¹) ^ 2) ∧
      chance outcomes (main n k a b t x y) (ket z) {w | w t = true ∧ content n a w ^ 2 ≠ root n} =
        0 := by
  refine ⟨chance_found h hn hz k, ?_⟩
  -- a result that says so stands for a polynomial with the square
  simp only [chance_main h hn hz, Set.mem_ofPred_eq, result_final, content_final h hn,
    and_not_self, ne_eq, Finset.filter_false, Finset.sum_empty]

end Program

/-- The source with ten qubits in a register makes 25 steps. -/
theorem main_finds_ten :
    chance outcomes
        (main 10 25 (Prod.mk 0 : ℕ → ℕ × ℕ) (Prod.mk 1) (2, 0) (Prod.mk 3) (Prod.mk 4))
        (ket fun _ ↦ false) {w | w (2, 0) = true ∧ content 10 (Prod.mk 0) w ^ 2 = root 10} =
        ENNReal.ofReal (Real.sin ((2 * (25 : ℕ) + 1) * Real.arcsin (√(2 ^ 10))⁻¹) ^ 2) ∧
      chance outcomes
        (main 10 25 (Prod.mk 0 : ℕ → ℕ × ℕ) (Prod.mk 1) (2, 0) (Prod.mk 3) (Prod.mk 4))
        (ket fun _ ↦ false) {w | w (2, 0) = true ∧ content 10 (Prod.mk 0) w ^ 2 ≠ root 10} = 0 :=
  main_finds (wires_registers 10) (by norm_num) (allClear_false 10 _ _ _ _ _) 25

/-- The number of steps the program makes, with exact square roots. The power is an `int`: it has no
value from 31 qubits on. -/
noncomputable def nstep (n : ℕ) : Option ℕ :=
  if 2 ^ n < 2 ^ 31 then some ⌊Real.pi / (4 : ℕ) * √((2 ^ n : ℕ) : ℝ)⌋₊ else none

/-- **The program finds the square root almost surely.** -/
theorem main_almost_surely (h : Wires n a b t x y) (hn : 2 ≤ n) (hint : n ≤ 30)
    (hz : AllClear n a b t x y z) :
    ∃ k, nstep n = some k ∧ ENNReal.ofReal (1 - 2 / 2 ^ n) ≤
      chance outcomes (main n k a b t x y) (ket z)
        {w | w t = true ∧ content n a w ^ 2 = root n} := by
  refine ⟨_, if_pos (Nat.pow_lt_pow_right one_lt_two (Nat.lt_succ_of_le hint)), ?_⟩
  have hpow : (4 : ℝ) ≤ 2 ^ n := by
    calc (4 : ℝ) = 2 ^ 2 := by norm_num
      _ ≤ 2 ^ n := pow_le_pow_right₀ one_le_two hn
  have hsqrt : (2 : ℝ) ≤ √(2 ^ n) := Real.le_sqrt_of_sq_le (by linarith)
  have hhalf : (√(2 ^ n : ℝ))⁻¹ ≤ 1 / 2 := by
    rw [one_div]
    exact inv_anti₀ two_pos hsqrt
  have hle := Search.le_sin_sq (inv_pos.mpr (by linarith)) hhalf
  rw [inv_pow, Real.sq_sqrt (by positivity), div_inv_eq_mul, ← div_eq_mul_inv] at hle
  rw [chance_found h hn hz, Nat.cast_pow, Nat.cast_ofNat, Nat.cast_ofNat]
  exact ENNReal.ofReal_le_ofReal hle

/-- The sizes of the registers are the source's. -/
theorem main_almost_surely_ten : ∃ k, nstep 10 = some k ∧ ENNReal.ofReal (1 - 2 / 2 ^ 10) ≤
    chance outcomes (main 10 k (Prod.mk 0 : ℕ → ℕ × ℕ) (Prod.mk 1) (2, 0) (Prod.mk 3) (Prod.mk 4))
      (ket fun _ ↦ false) {w | w (2, 0) = true ∧ content 10 (Prod.mk 0) w ^ 2 = root 10} :=
  main_almost_surely (wires_registers 10) (by norm_num) (by norm_num) (allClear_false 10 _ _ _ _ _)

end ScaffCC.SquareRoot
