import ScaffCC.SquareRoot.Program
import ScaffCC.SquareRoot.Ring

/-!
# The squaring

The squaring is a sequence of controlled negations from the first register to the second one, and
each adds a power of `x` to the second polynomial where a bit of the first one is set. In the ring
the square of a sum is the sum of the squares, so that bit `i` adds the power with the exponent
twice `i`; from the half of the bits on this is a sum of two lower powers.
-/

namespace ScaffCC.SquareRoot

open GateCall Quantum
open Reversible (up)
open Finset (range mem_range)

variable {ι : Type*} {n : ℕ} {a b : ℕ → ι} {z : ι → Bool}

/-- The wires of the two registers are different. -/
structure Pair (n : ℕ) (a b : ℕ → ι) : Prop where
  injOn_a : Set.InjOn a (Set.Iio n)
  injOn_b : Set.InjOn b (Set.Iio n)
  apart : ∀ i < n, ∀ j < n, a i ≠ b j

/-- The polynomial in a register. -/
noncomputable def content (n : ℕ) (r : ℕ → ι) (z : ι → Bool) : Poly n := element n (number r n z)

theorem content_eq (n : ℕ) (r : ℕ → ι) (z : ι → Bool) :
    content n r z = ∑ i ∈ range n, if z (r i) then root n ^ i else 0 := by
  rw [content, element]
  refine Finset.sum_congr rfl fun i hi ↦ ?_
  rw [testBit_number r (mem_range.mp hi)]

/-- Only the register with the polynomial has to be compared. -/
theorem eq_of_content_eq (hn : 2 ≤ n) {s : ι → Bool} (hother : ∀ w, (∀ k < n, b k ≠ w) → s w = z w)
    (hcontent : content n b s = content n b z) : s = z := by
  have hnumber := element_injOn hn (number_lt b n s) (number_lt b n z) hcontent
  funext w
  by_cases hw : ∃ k < n, b k = w
  · obtain ⟨k, hk, rfl⟩ := hw
    rw [← testBit_number b hk s, hnumber, testBit_number b hk]
  · exact hother w fun k hk h ↦ hw ⟨k, hk, h⟩

/-! ## Controlled negations -/

/-- The indices of the controlled negations, of the control and of the target. -/
def copies (n : ℕ) : List (ℕ × ℕ) :=
  (up 0 ((n - 1) / 2 + 1)).map (fun i ↦ (i, 2 * i)) ++
  (up ((n + 1) / 2) n).flatMap fun i ↦ [(i, 2 * i - n), (i, 2 * i - n + 1)]

theorem Sqr_eq (n : ℕ) (a b : ℕ → ι) :
    Sqr n a b = (copies n).map fun e ↦ CNOT (a e.1) (b e.2) := by
  rw [Sqr, copies, List.map_append, List.map_map, List.map_flatMap]
  rfl

theorem mem_copies {e : ℕ × ℕ} (hn : 1 ≤ n) (he : e ∈ copies n) : e.1 < n ∧ e.2 < n := by
  rcases List.mem_append.mp he with he | he
  · obtain ⟨i, hi, rfl⟩ := List.mem_map.mp he
    have hi' := (Reversible.mem_up.mp hi).2
    constructor <;> dsimp only <;> omega
  · obtain ⟨i, hi, he⟩ := List.mem_flatMap.mp he
    obtain ⟨hi₁, hi₂⟩ := Reversible.mem_up.mp hi
    rcases List.mem_cons.mp he with rfl | he
    · constructor <;> dsimp only <;> omega
    · rw [List.mem_singleton.mp he]
      constructor <;> dsimp only <;> omega

variable [DecidableEq ι]

theorem content_update (h : Pair n a b) {k : ℕ} (hk : k < n) (i : ℕ) (z : ι → Bool) :
    content n b (Function.update z (b k) (z (b k) ^^ z (a i))) =
      content n b z + if z (a i) then root n ^ k else 0 := by
  have hterm : ∀ j ∈ range n,
      (if Function.update z (b k) (z (b k) ^^ z (a i)) (b j) then root n ^ j else 0) =
        (if z (b j) then root n ^ j else 0) +
          if j = k then (if z (a i) then root n ^ k else 0) else 0 := by
    intro j hj
    by_cases hjk : j = k
    · subst hjk
      have hself : root n ^ j + root n ^ j = 0 := by
        rw [← two_mul, two_eq_zero, zero_mul]
      rw [Function.update_self, if_pos rfl]
      cases z (b j) <;> cases z (a i) <;> simp [hself]
    · have hne : b j ≠ b k := fun heq ↦ hjk (h.injOn_b (mem_range.mp hj) hk heq)
      rw [Function.update_of_ne hne, if_neg hjk, add_zero]
  rw [content_eq, content_eq, Finset.sum_congr rfl hterm, Finset.sum_add_distrib,
    Finset.sum_ite_eq' _ _ fun _ ↦ (if z (a i) then root n ^ k else 0),
    if_pos (mem_range.mpr hk)]

/-- **A sequence of controlled negations adds the powers of the bits that are set.** -/
theorem run_copies (h : Pair n a b) {L : List (ℕ × ℕ)} (hL : ∀ e ∈ L, e.1 < n ∧ e.2 < n)
    (z : ι → Bool) :
    let s := Reversible.run ((L.map fun e ↦ CNOT (a e.1) (b e.2)).flatMap flips) z
    (∀ w, (∀ k < n, b k ≠ w) → s w = z w) ∧ content n b s =
      content n b z + (L.map fun e ↦ if z (a e.1) then root n ^ e.2 else 0).sum := by
  induction L generalizing z with
  | nil => exact ⟨fun _ _ ↦ rfl, (add_zero _).symm⟩
  | cons e L ih =>
    obtain ⟨he, hL⟩ := List.forall_mem_cons.mp hL
    set z' := Function.update z (b e.2) (z (b e.2) ^^ z (a e.1)) with hz'
    have hcontrol : ∀ e' ∈ L, z' (a e'.1) = z (a e'.1) := fun e' he' ↦
      Function.update_of_ne (h.apart e'.1 (hL e' he').1 e.2 he.2) _ _
    obtain ⟨hother, hcontent⟩ := ih hL z'
    have hrun : Reversible.run
        (((e :: L).map fun e ↦ CNOT (a e.1) (b e.2)).flatMap flips) z =
        Reversible.run ((L.map fun e ↦ CNOT (a e.1) (b e.2)).flatMap flips) z' := by
      rw [List.map_cons, List.flatMap_cons, Reversible.run_append, flips, Reversible.run_cons,
        Reversible.run_nil, Reversible.Gate.act, flipWhen, Reversible.Gate.fires, List.all_cons,
        List.all_nil, Bool.and_true]
    have hsum : (L.map fun e' ↦ if z' (a e'.1) then root n ^ e'.2 else 0) =
        L.map fun e' ↦ if z (a e'.1) then root n ^ e'.2 else 0 :=
      List.map_congr_left fun e' he' ↦ by rw [hcontrol e' he']
    refine ⟨fun w hw ↦ ?_, ?_⟩
    · rw [hrun, hother w hw, hz', Function.update_of_ne (hw e.2 he.2).symm]
    · rw [hrun, hcontent, hz', content_update h he.2, ← hz', hsum, List.map_cons,
        List.sum_cons, add_assoc]

omit [DecidableEq ι]

theorem sum_up {M : Type*} [AddCommMonoid M] (n : ℕ) (F : ℕ → M) :
    ((up 0 n).map F).sum = ∑ i ∈ range n, F i := by
  induction n with
  | zero => rfl
  | succ n ih =>
    rw [Reversible.up_succ_right (Nat.zero_le n), List.map_append, List.sum_append, ih,
      Finset.sum_range_succ, List.map_singleton, List.sum_singleton]

theorem up_append_up {l m : ℕ} (h : l ≤ m) : up 0 l ++ up l m = up 0 m := by
  induction m, h using Nat.le_induction with
  | base => rw [Reversible.up_self, List.append_nil]
  | succ m hlm ih =>
    rw [Reversible.up_succ_right hlm, Reversible.up_succ_right (Nat.zero_le m), ← ih,
      List.append_assoc]

/-- **The powers that are added are the square.** -/
theorem sum_copies (hn : 2 ≤ n) (z : ι → Bool) :
    ((copies n).map fun e ↦ if z (a e.1) then root n ^ e.2 else 0).sum = content n a z ^ 2 := by
  have hchar := charP_poly hn
  set F := fun i ↦ if z (a i) then root n ^ (2 * i) else 0 with hF
  have hhalf : (n - 1) / 2 + 1 = (n + 1) / 2 := by omega
  -- from the half of the bits on, the power is a sum of two lower ones
  have hhigh : ∀ i ∈ up ((n + 1) / 2) n,
      (if z (a i) then root n ^ (2 * i - n) else 0) +
        (if z (a i) then root n ^ (2 * i - n + 1) else 0) = F i := by
    intro i hi
    obtain ⟨hi₁, hi₂⟩ := Reversible.mem_up.mp hi
    have hpow : root n ^ (2 * i) = root n ^ (2 * i - n) + root n ^ (2 * i - n + 1) := by
      calc root n ^ (2 * i) = root n ^ (2 * i - n) * root n ^ n := by
            rw [← pow_add, Nat.sub_add_cancel (by omega)]
        _ = root n ^ (2 * i - n) + root n ^ (2 * i - n + 1) := by
            rw [root_pow, pow_succ]
            ring
    simp only [hF, hpow]
    split_ifs
    · rfl
    · exact add_zero 0
  have hlist : ∀ l : List ℕ, ((l.flatMap fun i ↦ [(i, 2 * i - n), (i, 2 * i - n + 1)]).map
      fun e : ℕ × ℕ ↦ if z (a e.1) then root n ^ e.2 else 0).sum =
      (l.map fun i ↦ (if z (a i) then root n ^ (2 * i - n) else 0) +
        if z (a i) then root n ^ (2 * i - n + 1) else 0).sum := by
    intro l
    induction l with
    | nil => rfl
    | cons i l ih =>
      rw [List.flatMap_cons, List.map_append, List.sum_append, ih, List.map_cons, List.sum_cons]
      simp only [List.map_cons, List.map_nil, List.sum_cons, List.sum_nil, add_zero]
  have hsquare : ∀ i ∈ range n, (if z (a i) then root n ^ i else 0) ^ 2 = F i := by
    intro i _
    simp only [hF]
    split_ifs
    · rw [← pow_mul, Nat.mul_comm]
    · exact zero_pow two_ne_zero
  rw [copies, List.map_append, List.sum_append, List.map_map, hlist, List.map_congr_left hhigh,
    hhalf]
  calc ((up 0 ((n + 1) / 2)).map F).sum + ((up ((n + 1) / 2) n).map F).sum
      = ((up 0 n).map F).sum := by
        rw [← List.sum_append, ← List.map_append, up_append_up (by omega)]
    _ = content n a z ^ 2 := by
        rw [sum_up, content_eq, CharTwo.sum_sq, Finset.sum_congr rfl hsquare]

end ScaffCC.SquareRoot
