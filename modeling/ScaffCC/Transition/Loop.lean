import Mathlib.Data.List.Basic

/-!
# Loops over a state

A loop that changes a state goes through it like a fold. A loop that looks for something and returns
when it is found leaves the state as it is.
-/

namespace StateLoop

variable {σ : Type} {α : Type*}

/-- A loop that returns when it finds something changes nothing. -/
theorem run_check (p : σ → α → Bool) (l : List α) (s : σ) :
    (do
      for a in l do
        if p (← get) a then return false
      return true : StateM σ Bool).run s = (l.all fun a ↦ !p s a, s) := by
  induction l with
  | nil => rfl
  | cons a l ih =>
    rw [List.all_cons]
    cases h : p s a
    · simpa [h] using ih
    · simp [h]
      rfl

/-- A loop whose body changes the state, and what comes after it. -/
theorem run_forIn_bind {β : Type} (f : α → StateM σ PUnit) (g : σ → α → σ)
    (h : ∀ a s, (f a).run s = (⟨⟩, g s a)) (l : List α) (k : PUnit → StateM σ β) (s : σ) :
    (forIn l PUnit.unit (fun a _ ↦ do
      f a
      pure (ForInStep.yield PUnit.unit)) >>= k : StateM σ β).run s
      = (k ⟨⟩).run (l.foldl g s) := by
  induction l generalizing s with
  | nil => rfl
  | cons a l ih =>
    have hcons := ih (g s a)
    simp only [List.forIn_cons, StateT.run_bind, List.foldl_cons, h] at hcons ⊢
    exact hcons

end StateLoop
