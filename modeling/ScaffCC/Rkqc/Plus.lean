import ScaffCC.Rkqc.Minus

/-!
# The adder with ancillas

The adder of the reversible library writes the bits without carries to fresh lines and then gives
the names of the operands to these. It adds exactly when no carry arises below the top bit.
-/

namespace ScaffCC.Rkqc

open Reversible

/-! ## The source -/

/-- A register on fresh lines, and the lines there are then; at least one line is made. -/
def zeroToGarbage (lines num : ℕ) : (ℕ → ℕ) × ℕ :=
  (fun i ↦ lines + i, lines + max 1 num)

/-- A circuit after which the registers are on other lines. -/
structure Renaming where
  gates : List (Gate ℕ)
  x : ℕ → ℕ
  y : ℕ → ℕ
  lines : ℕ

/-- `x` is to be increased by `y`. -/
def aEqAPlusB (x y : ℕ → ℕ) (size lines : ℕ) : Renaming :=
  let (zero, lines) := zeroToGarbage lines size
  let (ancilla, lines) := zeroToGarbage lines size
  { gates := (up 0 size).flatMap fun i ↦
      [cnot (x i) (ancilla i), cnot (y i) (zero i), cnot (x i) (y i),
        toffoli (y i) (ancilla i) (x i), cnot (zero i) (ancilla i), cnot (zero i) (y i)]
    x := fun i ↦ if i < size then ancilla i else x i
    y := fun i ↦ if i < size then zero i else y i
    lines }

/-! ## The loop -/

/-- The operands and the two registers of ancillas. -/
inductive Quad
  | x
  | y
  | zero
  | ancilla
deriving DecidableEq

/-- The loop on four registers. -/
private def body (i : ℕ) : List (Gate (Quad × ℕ)) :=
  [cnot (.x, i) (.ancilla, i), cnot (.y, i) (.zero, i), cnot (.x, i) (.y, i),
    toffoli (.y, i) (.ancilla, i) (.x, i), cnot (.zero, i) (.ancilla, i), cnot (.zero, i) (.y, i)]

/-- The positions that are done hold the bits without carries and the second operand. -/
private structure Copied (n k : ℕ) (s : Quad × ℕ → Bool) (x y : ℕ → Bool) : Prop where
  sum : ∀ i < k, s (.ancilla, i) = (x i ^^ y i)
  kept : ∀ i < k, s (.zero, i) = y i
  left : ∀ i, k ≤ i → i < n →
    s (.x, i) = x i ∧ s (.y, i) = y i ∧ s (.zero, i) = false ∧ s (.ancilla, i) = false

private theorem run_body {n : ℕ} {x y : ℕ → Bool} {s : Quad × ℕ → Bool} (h : Copied n 0 s x y) :
    Copied n n (run ((up 0 n).flatMap body) s) x y := by
  refine run_up (P := fun k s ↦ Copied n k s x y) (Nat.zero_le n) h fun k s _ hkn hs ↦ ?_
  obtain ⟨hx, hy, hzero, hancilla⟩ := hs.left k le_rfl hkn
  have hother : ∀ (r : Quad) (i : ℕ), i ≠ k → run (body k) s (r, i) = s (r, i) := by
    intro r i hi
    exact run_of_notMem (by simp [body, toffoli, cnot, hi]) s
  constructor
  · intro i hi
    rcases Nat.lt_succ_iff_lt_or_eq.mp hi with hlt | rfl
    · rw [hother _ _ hlt.ne, hs.sum i hlt]
    · simp [body, act_cnot, act_toffoli, hx, hy, hzero, hancilla]
  · intro i hi
    rcases Nat.lt_succ_iff_lt_or_eq.mp hi with hlt | rfl
    · rw [hother _ _ hlt.ne, hs.kept i hlt]
    · simp [body, act_cnot, act_toffoli, hy, hzero]
  · intro i hi hin
    have hne : i ≠ k := by omega
    rw [hother _ _ hne, hother _ _ hne, hother _ _ hne, hother _ _ hne]
    exact hs.left i (by omega) hin

/-- The bits without carries are the sum exactly when there are no carries below the top bit. -/
theorem value_xor_eq_iff (n : ℕ) (x y : ℕ → Bool) :
    value n (fun i ↦ x i ^^ y i) = (value n x + value n y) % 2 ^ n ↔
      ∀ i, i + 1 < n → (x i && y i) = false := by
  rw [← value_sumBit, value_inj]
  have hcarry : (∀ i < n, (x i ^^ y i) = sumBit x y i) ↔ ∀ i < n, carry x y i = false := by
    refine forall₂_congr fun i _ ↦ ?_
    rw [sumBit]
    cases x i ^^ y i <;> cases carry x y i <;> simp
  rw [hcarry]
  constructor
  · intro h i hi
    have hi' := h i (Nat.lt_of_succ_lt hi)
    have hi'' := h (i + 1) hi
    rw [carry, hi'] at hi''
    revert hi''
    cases x i <;> cases y i <;> decide
  · intro h i hi
    induction i with
    | zero => rfl
    | succ i ih =>
      rw [carry, ih (Nat.lt_of_succ_lt hi)]
      have hboth := h i hi
      revert hboth
      cases x i <;> cases y i <;> decide

/-! ## The adder -/

/-- Operands on lines that there are. -/
structure Allocated (n lines : ℕ) extends Registers Operand ℕ n where
  lt_lines : ∀ w : Operand × ℕ, w.2 < n → wire w < lines

/-- The operands and the fresh lines. -/
private def Allocated.quad {n lines : ℕ} (L : Allocated n lines) : Registers Quad ℕ n where
  wire w := match w with
    | (.x, i) => L.wire (.x, i)
    | (.y, i) => L.wire (.y, i)
    | (.zero, i) => lines + i
    | (.ancilla, i) => lines + max 1 n + i
  injOn := by
    have hinj : ∀ {r r' : Operand} {i j : ℕ}, i < n → j < n → L.wire (r, i) = L.wire (r', j) →
        r = r' ∧ i = j := fun hi hj h ↦ Prod.mk.inj (L.injOn hi hj h)
    have hlt := fun (r : Operand) (i : ℕ) (hi : i < n) ↦ L.lt_lines (r, i) hi
    rintro ⟨r, i⟩ hi ⟨r', j⟩ hj h
    replace hi : i < n := hi
    replace hj : j < n := hj
    have hxi := hlt .x i hi
    have hyi := hlt .y i hi
    have hxj := hlt .x j hj
    have hyj := hlt .y j hj
    cases r <;> cases r' <;> simp only at h <;>
      first
        | exact absurd (hinj hi hj h).1 (by decide)
        | rw [(hinj hi hj h).2]
        | exact congrArg (Prod.mk _) (by omega)
        | omega

private theorem gates_eq {n lines : ℕ} (L : Allocated n lines) :
    (aEqAPlusB (fun i ↦ L.wire (.x, i)) (fun i ↦ L.wire (.y, i)) n lines).gates =
      ((up 0 n).flatMap body).map (Gate.map L.quad.wire) := by
  rw [List.map_flatMap]
  rfl

/-- The registers after the adder hold the bits without carries and the second operand. -/
theorem aEqAPlusB_holds {n lines : ℕ} (L : Allocated n lines) {s : ℕ → Bool}
    (hclean : ∀ l, lines ≤ l → s l = false) :
    let P := aEqAPlusB (fun i ↦ L.wire (.x, i)) (fun i ↦ L.wire (.y, i)) n lines
    ∀ i < n, run P.gates s (P.x i) = (s (L.wire (.x, i)) ^^ s (L.wire (.y, i))) ∧
      run P.gates s (P.y i) = s (L.wire (.y, i)) := by
  intro P i hi
  have hbelow : ∀ g ∈ (up 0 n).flatMap body, g.Below n := by
    simp only [body, List.mem_flatMap, mem_up, List.mem_cons, List.not_mem_nil, or_false]
    rintro g ⟨i, hi, rfl | rfl | rfl | rfl | rfl | rfl⟩ <;>
      simp [Gate.Below, Gate.Within, cnot, toffoli] <;> omega
  have hcopied : Copied n 0 (fun w ↦ s (L.quad.wire w)) (fun i ↦ s (L.wire (.x, i)))
      (fun i ↦ s (L.wire (.y, i))) :=
    ⟨fun i hi ↦ absurd hi (Nat.not_lt_zero i), fun i hi ↦ absurd hi (Nat.not_lt_zero i),
      fun i _ _ ↦ ⟨rfl, rfl, hclean _ (by simp [Allocated.quad]),
        hclean _ (by simp [Allocated.quad]; omega)⟩⟩
  have hrun := run_body hcopied
  have hx : P.x i = L.quad.wire (.ancilla, i) := if_pos hi
  have hy : P.y i = L.quad.wire (.zero, i) := if_pos hi
  rw [hx, hy, show P.gates = _ from gates_eq L, L.quad.run_wire hbelow s _ hi,
    L.quad.run_wire hbelow s _ hi]
  exact ⟨hrun.sum i hi, hrun.kept i hi⟩

/-- **The adder adds exactly when no carry arises below the top bit.** -/
theorem aEqAPlusB_iff {n lines : ℕ} (L : Allocated n lines) {s : ℕ → Bool}
    (hclean : ∀ l, lines ≤ l → s l = false) :
    let P := aEqAPlusB (fun i ↦ L.wire (.x, i)) (fun i ↦ L.wire (.y, i)) n lines
    (value n (fun i ↦ run P.gates s (P.x i)) = (L.read .x s + L.read .y s) % 2 ^ n ∧
      value n (fun i ↦ run P.gates s (P.y i)) = L.read .y s) ↔
    ∀ i, i + 1 < n → (s (L.wire (.x, i)) && s (L.wire (.y, i))) = false := by
  intro P
  have hholds := aEqAPlusB_holds L hclean
  rw [value_inj.mpr fun i hi ↦ (hholds i hi).1, value_inj.mpr fun i hi ↦ (hholds i hi).2]
  exact (and_iff_left rfl).trans (value_xor_eq_iff n _ _)

private theorem injOn_firstFour : Set.InjOn
    (fun w : Operand × ℕ ↦ match w with | (.x, i) => i | (.y, i) => i + 2) {w | w.2 < 2} := by
  rintro ⟨r | r, i⟩ hi ⟨r' | r', j⟩ hj h <;> simp_all
  all_goals omega

private theorem lt_firstFour (w : Operand × ℕ) (hw : w.2 < 2) :
    (match w with | (.x, i) => i | (.y, i) => i + 2) < 4 := by
  obtain ⟨r | r, i⟩ := w <;> simp_all <;> omega

/-- Operands of two bits on the first four lines. -/
def firstFour : Allocated 2 4 where
  wire w := match w with
    | (.x, i) => i
    | (.y, i) => i + 2
  injOn := injOn_firstFour
  lt_lines := lt_firstFour

/-- Two and one. -/
theorem aEqAPlusB_two_one :
    let P := aEqAPlusB (fun i ↦ firstFour.wire (.x, i)) (fun i ↦ firstFour.wire (.y, i)) 2 4
    let s : ℕ → Bool := fun l ↦ l = 1 ∨ l = 2
    value 2 (fun i ↦ run P.gates s (P.x i)) = 3 ∧ value 2 (fun i ↦ run P.gates s (P.y i)) = 1 :=
  (aEqAPlusB_iff firstFour (s := fun l ↦ l = 1 ∨ l = 2)
    fun l hl ↦ decide_eq_false (by omega)).mpr fun i hi ↦ by
      obtain rfl : i = 0 := by omega
      rfl

/-- One and one. -/
theorem not_aEqAPlusB_one_one :
    let P := aEqAPlusB (fun i ↦ firstFour.wire (.x, i)) (fun i ↦ firstFour.wire (.y, i)) 2 4
    let s : ℕ → Bool := fun l ↦ l = 0 ∨ l = 2
    ¬ (value 2 (fun i ↦ run P.gates s (P.x i)) =
        (firstFour.read .x s + firstFour.read .y s) % 2 ^ 2 ∧
      value 2 (fun i ↦ run P.gates s (P.y i)) = firstFour.read .y s) := by
  decide

end ScaffCC.Rkqc
