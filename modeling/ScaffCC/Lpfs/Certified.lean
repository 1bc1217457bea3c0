import ScaffCC.Lpfs.Global
import ScaffCC.Lpfs.Local

/-!
# Right moves

The moves are found as long as region `1` has an operation, so up to the first timestep at which it
has none. If the schedule is one whose moves the tables can keep track of, every timestep keeps what
is kept, and the moves that come out are right.
-/

namespace ScaffCC.Lpfs

open Scheduling

variable {body : List Call} {s : State} {O : MoveOptions}

/-! ## The timesteps of the loop -/

theorem Kept.printed_eq {n : ℕ} {σ : Tracking} (hσ : Kept body s n σ) {k : ℕ} (hk : n ≤ k) :
    σ.printed k = σ.printed n := by
  induction k, hk using Nat.le_induction with
  | base => rfl
  | succ k hk ih =>
    have hnone : ∀ l : List Move, l ⊆ σ.move_schedule ++ σ.local_move_schedule →
        l.filter (·.ts = k) = [] := by
      intro l hl
      rw [List.filter_eq_nil_iff]
      intro mov hmov
      have hlt := hσ.past mov (hl hmov)
      simpa using (show mov.ts ≠ k by omega)
    rw [Tracking.printed_succ, ih, hnone _ (List.subset_append_left _ _),
      hnone _ (List.subset_append_right _ _), List.append_nil, List.append_nil]

theorem slot_of_nextAdd_eq_some {P : Params} {c : Config} {i : ℕ} {x : Slot}
    (h : nextAdd body P c = some (i, x)) : c.state.slot i = none := by
  obtain ⟨point, s⟩ := c
  cases point with
  | paths entries ts =>
    cases entries with
    | nil =>
      have hnone : nextAdd body P ⟨.paths [] ts, s⟩ = none := rfl
      rw [hnone] at h
      cases h
    | cons e rest =>
      rw [nextAdd] at h
      split_ifs at h with hfree
      obtain ⟨rfl, -⟩ := Prod.mk.inj (Option.some.inj h)
      exact hfree.1
  | free rest =>
    cases rest with
    | nil =>
      have hnone : nextAdd body P ⟨.free [], s⟩ = none := rfl
      rw [hnone] at h
      cases h
    | cons j rest =>
      rw [nextAdd] at h
      split_ifs at h with hfree
      obtain ⟨ts, -, heq⟩ := Option.map_eq_some_iff.mp h
      obtain ⟨rfl, -⟩ := Prod.mk.inj heq
      exact hfree.1

/-- The schedules the pass builds are such that the entries are in the slots of the operations. -/
theorem entered_of_lpfs {P : Params} (h : lpfs body P = some s) : s.Entered := by
  have hrun : ∀ c, StateTransition.Reaches (step body P) (start body P) c → c.state.Entered := by
    intro c hc
    induction hc with
    | refl => exact fun x i hx ↦ absurd hx List.not_mem_nil
    | tail _ hstep ih =>
      rename_i c c'
      rcases step_cases hstep with ⟨i, x, hnext, heq⟩ | ⟨-, hschedule, hslot⟩
      · have hfree := slot_of_nextAdd_eq_some hnext
        intro y j hy
        rw [heq] at hy ⊢
        rcases List.mem_append.mp hy with hy | hy
        · exact State.extends_place hfree j y (ih y j hy)
        · obtain ⟨rfl, rfl⟩ := Prod.mk.inj (List.mem_singleton.mp hy)
          exact Function.update_self ..
      · intro x i hx
        rw [hschedule] at hx
        rw [hslot]
        exact ih x i hx
  exact hrun _ (reaches_of_lpfs h).1

end ScaffCC.Lpfs
