import Mathlib.Data.List.Basic
import ScaffCC.Transition.Recurrence

/-!
# Lists whose head is moved back

A step takes the head of a list and puts it back behind some of those that follow. If a run
of such steps comes back to a list it has left, only a front block of the list takes part in it:
the elements up to the furthest any head is moved. Every element of the block becomes the head at
some time, and so every element of the block is at some time moved past each of the others.
-/

namespace StateTransition

variable {α : Type*}

/-- The head moved back past `n` elements. -/
inductive HeadMove (n : ℕ) : List α → List α → Prop
  | mk (x : α) (B C : List α) (h : B.length = n) : HeadMove n (x :: (B ++ C)) (B ++ x :: C)

namespace HeadMove

variable {n m : ℕ} {D D' : List α}

theorem perm (h : HeadMove n D D') : D'.Perm D := by
  obtain ⟨x, B, C, -⟩ := h
  exact List.perm_middle

theorem drop_eq (h : HeadMove n D D') (hm : n ≤ m) : D'.drop (m + 1) = D.drop (m + 1) := by
  obtain ⟨x, B, C, rfl⟩ := h
  obtain ⟨k, rfl⟩ := Nat.exists_eq_add_of_le hm
  calc (B ++ x :: C).drop (B.length + k + 1)
      = (x :: C).drop (k + 1) := by rw [Nat.add_assoc, List.drop_length_add_append]
    _ = (B ++ C).drop (B.length + k) := by rw [List.drop_succ_cons, List.drop_length_add_append]

theorem take_perm (h : HeadMove n D D') (hm : n ≤ m) :
    (D'.take (m + 1)).Perm (D.take (m + 1)) := by
  have hsplit := h.perm
  rw [← List.take_append_drop (m + 1) D', ← List.take_append_drop (m + 1) D, h.drop_eq hm,
    List.perm_append_right_iff] at hsplit
  exact hsplit

variable [DecidableEq α]

theorem idxOf_ne_zero (h : HeadMove n D D') {y : α} (hy : D.head? ≠ some y) :
    D.idxOf y ≠ 0 := by
  obtain ⟨x, B, C, -⟩ := h
  rw [List.head?_cons, ne_eq, Option.some.injEq] at hy
  rw [List.idxOf_cons_ne _ hy]
  exact Nat.succ_ne_zero _

theorem idxOf_eq (h : HeadMove n D D') {y : α} (hy : D.head? ≠ some y) :
    D'.idxOf y = if D.idxOf y ≤ n then D.idxOf y - 1 else D.idxOf y := by
  obtain ⟨x, B, C, hB⟩ := h
  rw [List.head?_cons, ne_eq, Option.some.injEq] at hy
  rw [List.idxOf_cons_ne _ hy]
  by_cases hmem : y ∈ B
  · have := List.idxOf_lt_length_of_mem hmem
    rw [List.idxOf_append_of_mem hmem, List.idxOf_append_of_mem hmem, if_pos (by omega)]
    rfl
  · rw [List.idxOf_append_of_notMem hmem, List.idxOf_append_of_notMem hmem,
      List.idxOf_cons_ne _ hy, if_neg (by omega)]
    omega

/-- A step keeps two elements in order unless it moves the first past the second. -/
theorem idxOf_lt (h : HeadMove n D D') {x y : α} (hlt : D.idxOf x < D.idxOf y)
    (hpass : D.head? = some x → y ∉ D.tail.take n) : D'.idxOf x < D'.idxOf y := by
  have hy : D.head? ≠ some y := by
    rintro heq
    obtain ⟨z, B, C, -⟩ := h
    rw [List.head?_cons, Option.some.injEq] at heq
    rw [heq, List.idxOf_cons_self] at hlt
    exact absurd hlt (Nat.not_lt_zero _)
  by_cases hx : D.head? = some x
  · have hnot := hpass hx
    obtain ⟨z, B, C, hB⟩ := h
    rw [List.head?_cons, Option.some.injEq] at hx
    rw [List.head?_cons, ne_eq, Option.some.injEq] at hy
    subst hx
    rw [List.tail_cons, ← hB, List.take_left] at hnot
    have hbehind : (B ++ z :: C).idxOf y = B.length + (C.idxOf y + 1) := by
      rw [List.idxOf_append_of_notMem hnot, List.idxOf_cons_ne _ hy]
    have hahead : (B ++ z :: C).idxOf z ≤ B.length := by
      by_cases hz : z ∈ B
      · rw [List.idxOf_append_of_mem hz]
        exact (List.idxOf_lt_length_of_mem hz).le
      · rw [List.idxOf_append_of_notMem hz, List.idxOf_cons_self]
        omega
    omega
  · rw [h.idxOf_eq hx, h.idxOf_eq hy]
    have := h.idxOf_ne_zero hx
    split_ifs <;> omega

end HeadMove

/-! ## Runs that come back -/

section Recurs

variable {σ : Type*} {f : σ → Option σ} {v : σ → List α} {l : σ → ℕ} {s : σ}
  (hmove : ∀ t u, Reaches f s t → f t = some u → HeadMove (l t) (v t) (v u))

include hmove in
/-- Behind the furthest move nothing changes, and the block before it keeps its elements. -/
theorem block_of_reaches (hmax : ∀ t, Reaches f s t → l t ≤ l s) {t : σ}
    (ht : Reaches f s t) : ((v t).take (l s + 1)).Perm ((v s).take (l s + 1)) ∧
      (v t).drop (l s + 1) = (v s).drop (l s + 1) :=
  Reaches.invariant
    (P := fun t ↦ ((v t).take (l s + 1)).Perm ((v s).take (l s + 1)) ∧
      (v t).drop (l s + 1) = (v s).drop (l s + 1))
    ht ⟨.refl _, rfl⟩ fun u w hu ih huw ↦
      ⟨((hmove u w hu huw).take_perm (hmax u hu)).trans ih.1,
        ((hmove u w hu huw).drop_eq (hmax u hu)).trans ih.2⟩

variable [DecidableEq α] (hs : Recurs f s)

private theorem idxOf_le_of_mem_take {D : List α} {y : α} {n : ℕ} (hy : y ∈ D.take (n + 1)) :
    D.idxOf y ≤ n := by
  have hlt := List.idxOf_lt_length_of_mem hy
  have happ : (D.take (n + 1) ++ D.drop (n + 1)).idxOf y = (D.take (n + 1)).idxOf y :=
    List.idxOf_append_of_mem hy
  rw [List.take_append_drop] at happ
  rw [List.length_take] at hlt
  omega

include hmove hs in
/-- Every element of the block becomes the head. The step from `s` brings it forward, and until it
is the head no step takes it back. -/
theorem exists_head_of_mem_block {y : α} (hy : y ∈ (v s).take (l s + 1)) :
    ∃ t, Reaches f s t ∧ (v t).head? = some y := by
  by_contra hnone
  have hne : ∀ t, Reaches f s t → (v t).head? ≠ some y := fun t ht heq ↦ hnone ⟨t, ht, heq⟩
  obtain ⟨u, hsu, hus⟩ := Relation.TransGen.head'_iff.mp hs
  have hfirst := hmove s u .refl hsu
  have hpos := hfirst.idxOf_ne_zero (hne s .refl)
  have hforward : (v u).idxOf y < (v s).idxOf y := by
    rw [hfirst.idxOf_eq (hne s .refl), if_pos (idxOf_le_of_mem_take hy)]
    omega
  have hback : (v s).idxOf y ≤ (v u).idxOf y :=
    Reaches.invariant (P := fun t ↦ (v t).idxOf y ≤ (v u).idxOf y) hus le_rfl
      fun t w ht hle htw ↦ by
        have hst : Reaches f s t := Relation.ReflTransGen.head hsu ht
        rw [(hmove t w hst htw).idxOf_eq (hne t hst)]
        split_ifs <;> omega
  omega

include hmove hs in
/-- Of two elements of the block each is moved past the other: a relation that holds between every
head and what it is moved past holds between them. -/
theorem rel_of_mem_block {R : α → α → Prop}
    (hpass : ∀ t x, Reaches f s t → (v t).head? = some x →
      ∀ y ∈ (v t).tail.take (l t), R x y)
    {x y : α} (hxy : x ≠ y) (hx : x ∈ (v s).take (l s + 1))
    (hy : y ∈ (v s).take (l s + 1)) : R x y := by
  by_contra hR
  obtain ⟨t, ht, htx⟩ := exists_head_of_mem_block hmove hs hx
  obtain ⟨u, hu, huy⟩ := exists_head_of_mem_block hmove hs hy
  have htu : Reaches f t u := (hs.reaches ht).trans hu
  have hhead : ∀ {D : List α} {z : α}, D.head? = some z → D.idxOf z = 0 := by
    intro D z hD
    obtain ⟨E, rfl⟩ := List.head?_eq_some_iff.mp hD
    exact List.idxOf_cons_self
  have hkeep : (v u).idxOf x < (v u).idxOf y := by
    refine Reaches.invariant (P := fun z ↦ (v z).idxOf x < (v z).idxOf y) htu ?_
      fun z w hz hlt hzw ↦ (hmove z w (ht.trans hz) hzw).idxOf_lt hlt fun hzx hmem ↦
        hR (hpass z x (ht.trans hz) hzx y hmem)
    rw [hhead htx, Nat.pos_iff_ne_zero]
    intro h0
    obtain ⟨E, hE⟩ := List.head?_eq_some_iff.mp htx
    rw [hE, List.idxOf_cons_ne _ hxy] at h0
    exact absurd h0 (Nat.succ_ne_zero _)
  rw [hhead huy] at hkeep
  exact absurd hkeep (Nat.not_lt_zero _)

end Recurs

end StateTransition
