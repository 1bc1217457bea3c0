import ScaffCC.Reversible.Register

/-!
# The subtractor

The in-place subtractor of the reversible library. A first loop leaves in the register of the
minuend the bits without borrows, and a second one the minuend and the borrows in the register of
the subtrahend. The borrows then go to the first register, and the last loop restores the second.
-/

namespace ScaffCC.Rkqc

open Reversible

/-! ## The source -/

section Gates

variable {ι : Type*}

/-- A controlled negation. -/
def cnot (control target : ι) : Gate ι := ⟨[control], target⟩

def toffoli (control₁ control₂ target : ι) : Gate ι := ⟨[control₁, control₂], target⟩

/-- `x` is decreased by `y`. -/
def aEqAMinusB (x y : ℕ → ι) (size : ℕ) : List (Gate ι) :=
  (down 1 size).flatMap (fun i ↦
    [cnot (y i) (x i), cnot (x i) (y i), cnot (y (i - 1)) (y i)]) ++
  [cnot (y 0) (x 0), cnot (x 0) (y 0), cnot (y 0) (y 1)] ++
  (up 2 size).flatMap (fun i ↦
    [toffoli (y (i - 2)) (x (i - 2)) (y (i - 1)), cnot (y (i - 1)) (y i)]) ++
  [toffoli (y (size - 2)) (x (size - 2)) (y (size - 1))] ++
  (down 1 size).flatMap (fun i ↦ [toffoli (y (i - 1)) (x (i - 1)) (x i)]) ++
  [cnot (x 0) (y 0)] ++
  (up 1 size).flatMap (fun i ↦ [cnot (x (i - 1)) (x i), cnot (x i) (y i)])

end Gates

section Act

variable {ι : Type*} [DecidableEq ι]

theorem act_cnot (c t w : ι) (s : ι → Bool) :
    (cnot c t).act s w = if w = t then s w ^^ s c else s w := by
  rw [Gate.act_apply, Gate.fires, cnot]
  simp only [List.all_cons, List.all_nil, Bool.and_true]

theorem act_toffoli (c₁ c₂ t w : ι) (s : ι → Bool) :
    (toffoli c₁ c₂ t).act s w = if w = t then s w ^^ (s c₁ && s c₂) else s w := by
  rw [Gate.act_apply, Gate.fires, toffoli]
  simp only [List.all_cons, List.all_nil, Bool.and_true]

end Act

/-! ## The loops -/

inductive Operand
  | x
  | y
deriving DecidableEq

section Loops

variable {n : ℕ} {x y : ℕ → Bool} {s : Operand × ℕ → Bool}

/-- The bits of the two registers. -/
def Holds (n : ℕ) (s : Operand × ℕ → Bool) (x y : ℕ → Bool) : Prop :=
  ∀ i < n, s (.x, i) = x i ∧ s (.y, i) = y i

/-- The first loop: the bits without borrows, and the minuend with the next bit of the
subtrahend. -/
private theorem run_parities (hn : 0 < n) (h : Holds n s x y) :
    Holds n (run ((down 1 n).flatMap fun i ↦ [cnot (.y, i) (.x, i), cnot (.x, i) (.y, i),
      cnot (.y, i - 1) (.y, i)]) s)
      (fun i ↦ if 1 ≤ i then x i ^^ y i else x i)
      (fun i ↦ if 1 ≤ i then x i ^^ y (i - 1) else y i) := by
  refine run_down (P := fun k s ↦ Holds n s (fun i ↦ if k ≤ i then x i ^^ y i else x i)
    (fun i ↦ if k ≤ i then x i ^^ y (i - 1) else y i)) hn (fun i hi ↦ ?_)
    fun k s hk hkn hs i hi ↦ ?_
  · simpa [Nat.not_le.mpr hi] using h i hi
  · obtain ⟨hx, hy⟩ := hs i hi
    obtain ⟨-, hyk⟩ := hs (k - 1) (by omega)
    have hne : k - 1 ≠ k := by omega
    have hleft : ¬ k + 1 ≤ k - 1 := by omega
    simp only [run_cons, run_nil, act_cnot, Prod.mk.injEq, reduceCtorEq, true_and, false_and,
      if_false, hne]
    rcases eq_or_ne i k with rfl | hik
    · simp only [hx, hy, hyk, hleft, Nat.not_succ_le_self, le_refl, if_true, if_false]
      cases x i <;> cases y i <;> cases y (i - 1) <;> simp
    · have hle : k + 1 ≤ i ↔ k ≤ i := by omega
      simp only [hik, hx, hy, hle, if_false, and_self]

/-- Inside the second loop: the borrows are known below position `k - 1`, where the next one is
about to be computed. -/
private structure Borrowing (n k : ℕ) (s : Operand × ℕ → Bool) (x y : ℕ → Bool) : Prop where
  first : ∀ i < n, s (.x, i) = (x i ^^ y i)
  below : ∀ i, i + 1 < k → s (.y, i) = (x i ^^ borrow x y i)
  next : ∀ i, i + 2 = k → s (.y, i + 1) = (x (i + 1) ^^ (y i ^^ (x i ^^ borrow x y i)))
  above : ∀ i, k ≤ i → i < n → s (.y, i) = (x i ^^ y (i - 1))

private theorem run_bottom (hn : 2 ≤ n)
    (h : Holds n s (fun i ↦ if 1 ≤ i then x i ^^ y i else x i)
      (fun i ↦ if 1 ≤ i then x i ^^ y (i - 1) else y i)) :
    Borrowing n 2
      (run [cnot (.y, 0) (.x, 0), cnot (.x, 0) (.y, 0), cnot (.y, 0) (.y, 1)] s) x y := by
  obtain ⟨hx₀, hy₀⟩ := h 0 (by omega)
  obtain ⟨-, hy₁⟩ := h 1 (by omega)
  constructor
  · intro i hi
    rcases Nat.eq_zero_or_pos i with rfl | hpos
    · simp [act_cnot, hx₀, hy₀]
    · simp [act_cnot, (h i hi).1, hpos.ne', Nat.succ_le_of_lt hpos]
  · intro i hi
    obtain rfl : i = 0 := by omega
    simp only [act_cnot, run_cons, run_nil, hx₀, hy₀]
    cases x 0 <;> cases y 0 <;> simp
  · intro i hi
    obtain rfl : i = 0 := by omega
    simp only [act_cnot, run_cons, run_nil, hx₀, hy₀, hy₁]
    cases x 0 <;> cases y 0 <;> simp
  · intro i hi hin
    have h₀ : i ≠ 0 := by omega
    have h₁ : i ≠ 1 := by omega
    simp [act_cnot, (h i hin).2, h₀, h₁, show 1 ≤ i by omega]

/-- **The second loop**: the minuend and the borrows. -/
private theorem run_borrows (hn : 2 ≤ n) (h : Borrowing n 2 s x y) :
    Borrowing n n (run ((up 2 n).flatMap fun i ↦ [toffoli (.y, i - 2) (.x, i - 2) (.y, i - 1),
      cnot (.y, i - 1) (.y, i)]) s) x y := by
  refine run_up (P := fun k s ↦ Borrowing n k s x y) hn h fun k s hk hkn hs ↦ ?_
  obtain ⟨m, rfl⟩ : ∃ m, k = m + 2 := ⟨k - 2, by omega⟩
  have hx := hs.first m (by omega)
  have hy := hs.below m (by omega)
  have hnext := hs.next m rfl
  have habove := hs.above (m + 2) le_rfl hkn
  rw [show m + 2 - 2 = m from rfl, show m + 2 - 1 = m + 1 from rfl] at *
  have hborrow : (s (.y, m + 1) ^^ (s (.y, m) && s (.x, m))) =
      (x (m + 1) ^^ borrow x y (m + 1)) := by
    rw [hnext, hy, hx, borrow]
    cases x (m + 1) <;> cases x m <;> cases y m <;> cases borrow x y m <;> rfl
  have hother : ∀ w : Operand × ℕ, w ≠ (.y, m + 1) → w ≠ (.y, m + 2) →
      run [toffoli (.y, m) (.x, m) (.y, m + 1), cnot (.y, m + 1) (.y, m + 2)] s w = s w := by
    intro w hw hw'
    exact run_of_notMem (by simp [toffoli, cnot, hw, hw']) s
  constructor
  · intro i hi
    rw [hother _ (by simp) (by simp), hs.first i hi]
  · intro i hi
    rcases Nat.lt_or_ge i (m + 1) with hlt | hge
    · rw [hother _ (by simp; omega) (by simp; omega), hs.below i (by omega)]
    · obtain rfl : i = m + 1 := by omega
      simp [act_cnot, act_toffoli, hborrow]
  · intro i hi
    obtain rfl : i = m + 1 := by omega
    simp only [run_cons, run_nil, act_cnot, act_toffoli, if_true, hborrow]
    simp [habove]
  · intro i hi hin
    rw [hother _ (by simp; omega) (by simp; omega), hs.above i (by omega) hin]

private theorem act_last (hn : 2 ≤ n) (h : Borrowing n n s x y) :
    Holds n (run [toffoli (.y, n - 2) (.x, n - 2) (.y, n - 1)] s)
      (fun i ↦ x i ^^ y i) (fun i ↦ x i ^^ borrow x y i) := by
  obtain ⟨m, rfl⟩ : ∃ m, n = m + 2 := ⟨n - 2, by omega⟩
  intro i hi
  refine ⟨by simp [act_toffoli, h.first i hi], ?_⟩
  rcases Nat.lt_or_ge i (m + 1) with hlt | hge
  · simp [act_toffoli, h.below i (by omega), hlt.ne]
  · obtain rfl : i = m + 1 := by omega
    simp only [run_cons, run_nil, act_toffoli, Nat.add_sub_cancel, Nat.add_succ_sub_one, if_true,
      h.next m rfl, h.below m (by omega), h.first m (by omega), borrow]
    cases x (m + 1) <;> cases x m <;> cases y m <;> cases borrow x y m <;> rfl

/-- **The third loop**: the borrows go to the first register. -/
private theorem run_differences (hn : 0 < n)
    (h : Holds n s (fun i ↦ x i ^^ y i) (fun i ↦ x i ^^ borrow x y i)) :
    Holds n (run ((down 1 n).flatMap fun i ↦ [toffoli (.y, i - 1) (.x, i - 1) (.x, i)]) s)
      (fun i ↦ if 1 ≤ i then diffBit x y i ^^ diffBit x y (i - 1) else x i ^^ y i)
      (fun i ↦ x i ^^ borrow x y i) := by
  refine run_down (P := fun k s ↦ Holds n s
    (fun i ↦ if k ≤ i then diffBit x y i ^^ diffBit x y (i - 1) else x i ^^ y i)
    (fun i ↦ x i ^^ borrow x y i)) hn (fun i hi ↦ ?_) fun k s hk hkn hs i hi ↦ ?_
  · simpa [Nat.not_le.mpr hi] using h i hi
  · obtain ⟨m, rfl⟩ : ∃ m, k = m + 1 := ⟨k - 1, by omega⟩
    obtain ⟨hx, hy⟩ := hs i hi
    obtain ⟨hxm, hym⟩ := hs m (by omega)
    have hleft : ¬ m + 1 + 1 ≤ m := by omega
    simp only [run_cons, run_nil, act_toffoli, Prod.mk.injEq, reduceCtorEq, true_and, false_and,
      if_false, Nat.add_sub_cancel, hy, and_true]
    rcases eq_or_ne i (m + 1) with rfl | hne
    · simp only [hx, hxm, hym, hleft, Nat.not_succ_le_self, le_refl, if_true, if_false,
        Nat.add_sub_cancel, diffBit, borrow]
      cases x (m + 1) <;> cases y (m + 1) <;> cases x m <;> cases y m <;> cases borrow x y m <;> rfl
    · have hle : m + 1 + 1 ≤ i ↔ m + 1 ≤ i := by omega
      simp only [hne, hx, hle, if_false]

/-- **The last loop**: the difference, and the subtrahend again. -/
private theorem run_restore (hn : 0 < n)
    (h : Holds n s
      (fun i ↦ if 1 ≤ i then diffBit x y i ^^ diffBit x y (i - 1) else x i ^^ y i)
      (fun i ↦ x i ^^ borrow x y i)) :
    Holds n (run ((up 1 n).flatMap fun i ↦ [cnot (.x, i - 1) (.x, i), cnot (.x, i) (.y, i)])
      (run [cnot (.x, 0) (.y, 0)] s)) (diffBit x y) y := by
  have hloop := run_up (a := 1) (b := n) (P := fun k s ↦ Holds n s
    (fun i ↦ if i < k then diffBit x y i else diffBit x y i ^^ diffBit x y (i - 1))
    (fun i ↦ if i < k then y i else x i ^^ borrow x y i))
    (B := fun i ↦ [cnot (.x, i - 1) (.x, i), cnot (.x, i) (.y, i)])
    (s := run [cnot (.x, 0) (.y, 0)] s) hn (fun i hi ↦ ?_) fun k s hk hkn hs i hi ↦ ?_
  · intro i hi
    simpa [hi] using hloop i hi
  · obtain ⟨hx, hy⟩ := h i hi
    rcases Nat.eq_zero_or_pos i with rfl | hpos
    · simp only [run_cons, run_nil, act_cnot, hx, hy, Prod.mk.injEq, reduceCtorEq, diffBit]
      cases x 0 <;> cases y 0 <;> simp
    · simp [act_cnot, hx, hy, hpos.ne', Nat.succ_le_of_lt hpos]
  · obtain ⟨m, rfl⟩ : ∃ m, k = m + 1 := ⟨k - 1, by omega⟩
    obtain ⟨hx, hy⟩ := hs i hi
    obtain ⟨hxm, -⟩ := hs m (by omega)
    simp only [run_cons, run_nil, act_cnot, Prod.mk.injEq, reduceCtorEq, true_and, false_and,
      if_false, Nat.add_sub_cancel]
    rcases eq_or_ne i (m + 1) with rfl | hne
    · simp only [hx, hy, hxm, Nat.lt_irrefl, Nat.lt_succ_self, if_true, if_false,
        Nat.add_sub_cancel, diffBit]
      cases x (m + 1) <;> cases y (m + 1) <;> cases x m <;> cases y m <;>
        cases borrow x y m <;> cases borrow x y (m + 1) <;> simp
    · have hlt : i < m + 1 + 1 ↔ i < m + 1 := by omega
      simp only [hne, hx, hy, hlt, if_false, and_self]

theorem run_aEqAMinusB (hn : 2 ≤ n) (h : Holds n s x y) :
    Holds n (run (aEqAMinusB (Prod.mk Operand.x) (Prod.mk Operand.y) n) s) (diffBit x y) y := by
  have hpos : 0 < n := by omega
  have hborrows := run_borrows hn (run_bottom hn (run_parities hpos h))
  have hdiff := run_restore hpos (run_differences hpos (act_last hn hborrows))
  simpa only [aEqAMinusB, run_append] using hdiff

end Loops

/-! ## The subtractor -/

theorem aEqAMinusB_below {n : ℕ} (hn : 2 ≤ n) :
    ∀ g ∈ aEqAMinusB (Prod.mk Operand.x) (Prod.mk Operand.y) n, g.Below n := by
  simp only [aEqAMinusB, List.mem_append, List.mem_flatMap, mem_up, mem_down, List.mem_cons,
    List.not_mem_nil, or_false]
  rintro g ((((((⟨i, hi, rfl | rfl | rfl⟩ | rfl | rfl | rfl) | ⟨i, hi, rfl | rfl⟩) | rfl) |
    ⟨i, hi, rfl⟩) | rfl) | ⟨i, hi, rfl | rfl⟩) <;>
    simp [Gate.Below, Gate.Within, cnot, toffoli] <;> omega

theorem map_aEqAMinusB {ι κ : Type*} (f : ι → κ) (x y : ℕ → ι) (n : ℕ) :
    (aEqAMinusB x y n).map (Gate.map f) = aEqAMinusB (fun i ↦ f (x i)) (fun i ↦ f (y i)) n := by
  simp [aEqAMinusB, List.map_flatMap, Gate.map, cnot, toffoli]

/-- **The subtractor subtracts**: the first register holds the difference modulo `2 ^ n`, the second
register what it held, and no other line is touched. -/
theorem aEqAMinusB_eq {κ : Type*} [DecidableEq κ] {n : ℕ} (hn : 2 ≤ n)
    (L : Registers Operand κ n) (s : κ → Bool) :
    let s' := run (aEqAMinusB (fun i ↦ L.wire (.x, i)) (fun i ↦ L.wire (.y, i)) n) s
    (L.read .x s' : ℤ) = ((L.read .x s : ℤ) - L.read .y s) % 2 ^ n ∧
      L.read .y s' = L.read .y s ∧ ∀ w, (∀ r, ∀ i < n, w ≠ L.wire (r, i)) → s' w = s w := by
  intro s'
  have hs' : s' = run ((aEqAMinusB (Prod.mk Operand.x) (Prod.mk Operand.y) n).map
      (Gate.map L.wire)) s := by
    rw [map_aEqAMinusB]
  have hruns := run_aEqAMinusB (s := fun w ↦ s (L.wire w)) hn fun _ _ ↦ ⟨rfl, rfl⟩
  refine ⟨?_, ?_, fun w hw ↦ ?_⟩
  · rw [hs', L.read_run (aEqAMinusB_below hn), value_inj.mpr fun i hi ↦ (hruns i hi).1]
    exact value_diffBit n _ _
  · rw [hs', L.read_run (aEqAMinusB_below hn), value_inj.mpr fun i hi ↦ (hruns i hi).2]
    rfl
  · rw [hs']
    refine run_of_notMem (fun hmem ↦ ?_) s
    simp only [List.mem_map] at hmem
    obtain ⟨-, ⟨g, hg, rfl⟩, rfl⟩ := hmem
    exact hw _ _ (aEqAMinusB_below hn g hg).2 rfl

/-- Two registers with lines in turn. -/
def inTurn (n : ℕ) : Registers Operand ℕ n where
  wire w := match w with
    | (.x, i) => 2 * i
    | (.y, i) => 2 * i + 1
  injOn := by
    rintro ⟨r | r, i⟩ - ⟨r' | r', j⟩ - h <;> simp at h <;> first | omega | simp [h]

/-- Zero minus one is three. -/
theorem aEqAMinusB_zero_one :
    ((inTurn 2).read .x (run (aEqAMinusB (fun i ↦ (inTurn 2).wire (.x, i))
      (fun i ↦ (inTurn 2).wire (.y, i)) 2) fun w ↦ w = 1) : ℤ) = 3 :=
  (aEqAMinusB_eq le_rfl (inTurn 2) fun w ↦ w = 1).1

end ScaffCC.Rkqc
