import Mathlib.Data.List.Basic
import Mathlib.Logic.Function.Basic

/-!
# Timings that respect dependencies

A list scheduler gives timesteps to operations one by one and never takes one back. Its state is a
partial assignment of timesteps. The assignment respects the dependencies when an operation that has
a timestep depends only on operations that have earlier ones. Giving a timestep to an operation
whose dependencies are met keeps that, whatever was placed before and whatever comes later.
-/

namespace Scheduling

variable {α : Type*} (dep : α → α → Prop)

/-- Whatever an operation with a timestep depends on has an earlier one. -/
def Timely (t : α → Option ℕ) : Prop :=
  ∀ a b n, dep a b → t b = some n → ∃ m, t a = some m ∧ m < n

/-- Whatever `b` depends on has a timestep before `n`. -/
def Ready (t : α → Option ℕ) (b : α) (n : ℕ) : Prop :=
  ∀ a, dep a b → ∃ m, t a = some m ∧ m < n

variable {dep} {t : α → Option ℕ} {a b : α} {m n : ℕ}

theorem timely_none : Timely dep fun _ : α ↦ none :=
  fun _ _ _ _ h ↦ absurd h.symm (Option.some_ne_none _)

theorem Ready.mono (h : Ready dep t b m) (hmn : m ≤ n) : Ready dep t b n :=
  fun a ha ↦ (h a ha).imp fun _ hk ↦ ⟨hk.1, Nat.lt_of_lt_of_le hk.2 hmn⟩

theorem Timely.place [DecidableEq α] (h : Timely dep t) (hb : t b = none) (hr : Ready dep t b n) :
    Timely dep (Function.update t b (some n)) := by
  -- what has a timestep already keeps it
  have hkeep : ∀ {c k}, t c = some k → Function.update t b (some n) c = some k := by
    intro c k hc
    rw [Function.update_of_ne ?_, hc]
    rintro rfl
    rw [hb] at hc
    exact Option.some_ne_none k hc.symm
  intro a c k hac hc
  by_cases hcb : c = b
  · subst hcb
    rw [Function.update_self, Option.some.injEq] at hc
    obtain ⟨m, hm, hlt⟩ := hr a hac
    exact ⟨m, hkeep hm, hc ▸ hlt⟩
  · rw [Function.update_of_ne hcb] at hc
    obtain ⟨m, hm, hlt⟩ := h a c k hac hc
    exact ⟨m, hkeep hm, hlt⟩

/-- An operation placed at `n` while something it depends on has a timestep from `n` on, or gets one
later, is not timely. -/
theorem not_timely (hab : dep a b) (hb : t b = some n) (ha : ∀ m, t a = some m → n ≤ m) :
    ¬ Timely dep t := by
  intro h
  obtain ⟨m, hm, hlt⟩ := h a b n hab hb
  exact absurd (ha m hm) (Nat.not_le.mpr hlt)

end Scheduling
