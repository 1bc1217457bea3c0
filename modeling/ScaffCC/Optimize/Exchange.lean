import ScaffCC.Optimize.Optimal

/-!
# Two gates brought together

A position that `canSwap` returns says that two gates can be brought next to each other: the first
one goes up to the position and the second one down to the place after it. This is so for gates of
every kind. Measurements that change places keep their results, but these are listed in another
order, so that the operations are the same up to a permutation of the outcomes.
-/

open Quantum

namespace ScaffCC.Optimize

/-! ## Moves -/

variable {A B C G : List OpGate} {x y : OpGate} {iInd fInd p : ℕ}

theorem gates_singleton {k : GateCall ℕ} (hk : x.toGate = some k) : gates [x] = [k] :=
  List.filterMap_cons_some hk

/-- A gate that moves past gates it commutes with keeps the operation. -/
theorem circuit_move_perm (h : ∀ y ∈ B, ifCommute x y) :
    (circuit (gates (A ++ (B ++ x :: C)))).Perm (circuit (gates (A ++ x :: (B ++ C)))) := by
  have hleft : gates (A ++ (B ++ x :: C)) = gates A ++ (gates B ++ gates [x]) ++ gates C := by
    rw [← gates_append, ← gates_append, ← gates_append]
    simp
  have hright : gates (A ++ x :: (B ++ C)) = gates A ++ (gates [x] ++ gates B) ++ gates C := by
    rw [← gates_append, ← gates_append, ← gates_append]
    simp
  rw [hleft, hright, circuit, circuit]
  refine run_perm_segment ?_ _ _
  cases hx : x.toGate with
  | none =>
    have hnil : gates [x] = [] := List.filterMap_cons_none hx
    rw [hnil, List.append_nil, List.nil_append]
  | some k =>
    rw [gates_singleton hx, List.singleton_append]
    refine run_concat_perm fun l hl a ha b hb ↦ ?_
    obtain ⟨y, hy, hyl⟩ := List.mem_filterMap.mp hl
    exact (OpGate.commute_outcomes (h y hy) hx hb hyl ha).symm

theorem moveTo_back {i : ℕ} (hp : A.length = p) (hi : p + B.length = i) :
    moveTo (A ++ (B ++ x :: C)) i p = A ++ x :: (B ++ C) := by
  subst hp hi
  have hgate : gateAt (A ++ (B ++ x :: C)) (A.length + B.length) = x := by
    rw [← List.append_assoc]
    exact gateAt_append_cons (List.length_append ..)
  have herase : (A ++ (B ++ x :: C)).eraseIdx (A.length + B.length) = A ++ (B ++ C) := by
    rw [List.eraseIdx_append_of_length_le (Nat.le_add_right ..), Nat.add_sub_cancel_left,
      List.eraseIdx_append_of_length_le le_rfl, Nat.sub_self, List.eraseIdx_cons_zero]
  rw [moveTo, hgate, herase]
  exact insertIdx_length_append A (B ++ C) x

/-! ## The exchange -/

/-- The list with the gate at `iInd` in position `p` and the one at `fInd` in position `p + 1`. -/
def bringTogether (G : List OpGate) (iInd fInd p : ℕ) : List OpGate :=
  moveTo (moveTo G iInd p) fInd (p + 1)

/-- The list cut at the two gates and at the position. -/
theorem exists_bringTogether (hi : iInd ≤ p) (hp : p < fInd) (hf : fInd < G.length) :
    ∃ A B C D, G = A ++ gateAt G iInd :: (B ++ (C ++ gateAt G fInd :: D)) ∧
      bringTogether G iInd fInd p =
        A ++ (B ++ gateAt G iInd :: gateAt G fInd :: (C ++ D)) ∧
      (∀ z ∈ B, ∃ j, iInd < j ∧ j ≤ p ∧ gateAt G j = z) ∧
      ∀ z ∈ C, ∃ j, p < j ∧ j < fInd ∧ gateAt G j = z := by
  obtain ⟨A, E, D, hG, hA, hE⟩ := exists_split (hi.trans_lt hp) hf
  set x := gateAt G iInd
  set y := gateAt G fInd
  obtain ⟨B, C, rfl, hB⟩ : ∃ B C, E = B ++ C ∧ B.length = p - iInd :=
    ⟨E.take (p - iInd), E.drop (p - iInd), (List.take_append_drop ..).symm, by
      rw [List.length_take]
      omega⟩
  rw [List.append_assoc] at hG
  rw [List.length_append] at hE
  refine ⟨A, B, C, D, hG, ?_, fun z hz ↦ ?_, fun z hz ↦ ?_⟩
  · have hfirst : moveTo G iInd p = (A ++ (B ++ [x])) ++ (C ++ y :: D) := by
      conv_lhs => rw [hG]
      rw [moveTo_append hA (by omega)]
      simp
    have hlen : (A ++ (B ++ [x])).length = p + 1 := by
      rw [List.length_append, List.length_append, List.length_singleton]
      omega
    rw [bringTogether, hfirst, moveTo_back hlen (by omega)]
    simp
  · obtain ⟨j, hj, hjz⟩ := exists_gateAt (A := A ++ [x]) (R := C ++ y :: D) hz
    rw [List.length_append, List.length_singleton] at hj
    refine ⟨j, by omega, by omega, ?_⟩
    rw [hG, ← hjz]
    simp
  · obtain ⟨j, hj, hjz⟩ := exists_gateAt (A := A ++ x :: B) (R := y :: D) hz
    rw [List.length_append, List.length_cons] at hj
    refine ⟨j, by omega, by omega, ?_⟩
    rw [hG, ← hjz]
    simp

/-- The second loop stops at the first gate when that is not the first of the list. -/
theorem canSwap_ne_offFront (hi : 1 ≤ iInd) (hif : iInd < fInd) :
    canSwap G iInd fInd ≠ .offFront := by
  have hdown := (swapDown_le G fInd (fInd - iInd) fInd).1
  rw [canSwap, if_neg (by omega)]
  simp only
  rw [if_neg (by omega)]
  split <;> simp

/-- **Soundness of `canSwap`.** A position it returns is between the two gates, and the list with
the gates brought together there implements the same operation. -/
theorem canSwap_sound (hi : 1 ≤ iInd) (hif : iInd < fInd) (hf : fInd < G.length) :
    canSwap G iInd fInd = .uintMax ∨ ∃ p, canSwap G iInd fInd = .pos p ∧ (iInd ≤ p ∧ p < fInd) ∧
      (circuit (gates (bringTogether G iInd fInd p))).Perm (circuit (gates G)) := by
  cases hswap : canSwap G iInd fInd with
  | uintMax => exact .inl rfl
  | offFront => exact absurd hswap (canSwap_ne_offFront hi hif)
  | pos p =>
    obtain ⟨⟨hip, hpf⟩, hup, hdown, -⟩ := canSwap_eq_pos hif hswap
    refine .inr ⟨p, rfl, ⟨hip, hpf⟩, ?_⟩
    obtain ⟨A, B, C, D, hG, htogether, hB, hC⟩ := exists_bringTogether hip hpf hf
    set x := gateAt G iInd
    set y := gateAt G fInd
    have hx : ∀ z ∈ B, ifCommute x z := fun z hz ↦ by
      obtain ⟨j, hj, hjp, rfl⟩ := hB z hz
      exact hup j hj hjp
    have hy : ∀ z ∈ C, ifCommute y z := fun z hz ↦ by
      obtain ⟨j, hj, hjf, rfl⟩ := hC z hz
      exact hdown j hj hjf
    -- the second gate goes down, then the first one up
    have hback := circuit_move_perm (A := A ++ x :: B) (C := D) hy
    have hfront := circuit_move_perm (A := A) (C := y :: (C ++ D)) hx
    rw [List.append_assoc, List.append_assoc, List.cons_append, List.cons_append] at hback
    rw [htogether]
    conv_rhs => rw [hG]
    exact hfront.trans hback.symm

theorem canSwap_sound_four :
    let G : List OpGate := [erased, cnotGate 1 2, ⟨.H, 3, 0, 0, false, 0⟩, cnotGate 1 2]
    canSwap G 1 3 = .uintMax ∨ ∃ p, canSwap G 1 3 = .pos p ∧ (1 ≤ p ∧ p < 3) ∧
      (circuit (gates (bringTogether G 1 3 p))).Perm (circuit (gates G)) :=
  canSwap_sound le_rfl (by decide) (by decide)

end ScaffCC.Optimize
