import Mathlib.Computability.StateTransition
import Mathlib.Data.Nat.Find
import Mathlib.Order.Bounds.Defs

/-!
# Loops that look for a number

A loop that goes from one number to the next one until a condition is met has an end exactly if some
number meets it, and then it ends with the least one that does.
-/

namespace StateTransition

variable {σ : Type*} {f : σ → Option σ} {s : ℕ → σ} {p : ℕ → Prop} {n : ℕ} {b : σ}

theorem reaches_of_forall_not (hstep : ∀ n, ¬ p n → f (s n) = some (s (n + 1)))
    (h : ∀ m < n, ¬ p m) : Reaches f (s 0) (s n) := by
  induction n with
  | zero => exact .refl
  | succ n ih => exact (ih fun m hm ↦ h m (by omega)).tail (hstep n (h n n.lt_succ_self))

theorem mem_eval_of_isLeast (hstep : ∀ n, ¬ p n → f (s n) = some (s (n + 1)))
    (hstop : ∀ n, p n → f (s n) = none) (h : IsLeast {n | p n} n) : s n ∈ eval f (s 0) := by
  refine mem_eval.mpr ⟨reaches_of_forall_not hstep fun m hm hpm ↦ ?_, hstop n h.1⟩
  exact (h.2 hpm).not_gt hm

/-- **What the loop ends with.** -/
theorem mem_eval_iff_isLeast (hstep : ∀ n, ¬ p n → f (s n) = some (s (n + 1)))
    (hstop : ∀ n, p n → f (s n) = none) :
    b ∈ eval f (s 0) ↔ ∃ n, IsLeast {n | p n} n ∧ b = s n := by
  classical
  constructor
  · intro hb
    by_cases hex : ∃ n, p n
    · have hleast : IsLeast {n | p n} (Nat.find hex) :=
        ⟨Nat.find_spec hex, fun m hm ↦ Nat.find_min' hex hm⟩
      exact ⟨_, hleast, Part.mem_unique hb (mem_eval_of_isLeast hstep hstop hleast)⟩
    · -- every state that is reached has a next one
      obtain ⟨hreach, hend⟩ := mem_eval.mp hb
      have hall : ∀ c, Reaches f (s 0) c → ∃ m, c = s m := by
        intro c hc
        induction hc with
        | refl => exact ⟨0, rfl⟩
        | tail _ hstep' ih =>
          obtain ⟨m, rfl⟩ := ih
          exact ⟨m + 1, Option.mem_unique hstep' (hstep m fun hm ↦ hex ⟨m, hm⟩)⟩
      obtain ⟨m, rfl⟩ := hall b hreach
      rw [hstep m fun hm ↦ hex ⟨m, hm⟩] at hend
      exact absurd hend (Option.some_ne_none _)
  · rintro ⟨n, hn, rfl⟩
    exact mem_eval_of_isLeast hstep hstop hn

end StateTransition
