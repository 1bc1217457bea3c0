import ScaffCC.Quantum.Circuit

/-!
# Sequences that undo each other

Two sequences of steps undo each other when both of their compositions are the identity. The inverse
of a program is written by hand, part by part from the last one to the first, so what is needed is
how the parts go together: in sequence, in loops, and around a part that is not undone.
-/

namespace Quantum

variable {α γ : Type*} [Monoid α] {op : γ → α} {B C C' D D' : List γ}

/-- The two sequences undo each other. -/
structure Undoes (op : γ → α) (C' C : List γ) : Prop where
  left : compose op C' * compose op C = 1
  right : compose op C * compose op C' = 1

namespace Undoes

theorem nil : Undoes op [] [] := ⟨one_mul 1, one_mul 1⟩

theorem symm (h : Undoes op C' C) : Undoes op C C' := ⟨h.right, h.left⟩

theorem append (h : Undoes op C' C) (h' : Undoes op D' D) : Undoes op (D' ++ C') (C ++ D) where
  left := by
    rw [compose_append, compose_append, mul_assoc, ← mul_assoc (compose op D'), h'.left, one_mul,
      h.left]
  right := by
    rw [compose_append, compose_append, mul_assoc, ← mul_assoc (compose op C), h.right, one_mul,
      h'.right]

/-- A loop is undone by a loop in the opposite direction. -/
theorem flatMap {β : Type*} {l : List β} {body body' : β → List γ}
    (h : ∀ i ∈ l, Undoes op (body' i) (body i)) :
    Undoes op (l.reverse.flatMap body') (l.flatMap body) := by
  induction l with
  | nil => exact nil
  | cons i l ih =>
    obtain ⟨hi, hl⟩ := List.forall_mem_cons.mp h
    rw [List.reverse_cons, List.flatMap_append, List.flatMap_singleton, List.flatMap_cons]
    exact hi.append (ih hl)

/-- A list of parts is undone by the parts that undo them, in the opposite order. -/
theorem flatten {Ls Ls' : List (List γ)} (h : List.Forall₂ (Undoes op) Ls'.reverse Ls) :
    Undoes op Ls'.flatten Ls.flatten := by
  have hforall : ∀ {Ls' Ls : List (List γ)}, List.Forall₂ (Undoes op) Ls' Ls →
      Undoes op Ls'.reverse.flatten Ls.flatten := by
    intro Ls' Ls h
    induction h with
    | nil => exact nil
    | cons hi _ ih =>
      rw [List.reverse_cons, List.flatten_concat, List.flatten_cons]
      exact hi.append ih
  rw [← List.reverse_reverse Ls']
  exact hforall h

/-- What is done and undone at once can be left out. -/
theorem compose_cancel (h : Undoes op C' C) (B D : List γ) :
    compose op (B ++ C ++ (C' ++ D)) = compose op (B ++ D) := by
  rw [compose_append, compose_append, compose_append, compose_append, mul_assoc,
    ← mul_assoc (compose op C'), h.left, one_mul]

/-- **Around a part**: the sequence is the identity exactly if the part is. -/
theorem compose_around_iff (h : Undoes op C' C) (B : List γ) :
    compose op (C ++ B ++ C') = 1 ↔ compose op B = 1 := by
  rw [compose_append, compose_append]
  constructor
  · intro hone
    calc compose op B
        = compose op C * compose op C' * compose op B * (compose op C * compose op C') := by
          rw [h.right, one_mul, mul_one]
      _ = compose op C * (compose op C' * (compose op B * compose op C)) * compose op C' := by
          simp only [mul_assoc]
      _ = 1 := by rw [hone, mul_one, h.right]
  · intro hone
    rw [hone, one_mul, h.left]

end Undoes

end Quantum
