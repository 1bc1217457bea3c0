import Mathlib.Computability.StateTransition
import ScaffCC.Lpfs.Invariant

/-!
# The scheduling, one operation at a time

The loops of `lpfs` as a transition system: a step takes the next entry of the paths or the next
operation of `priorityVector`, and starts a new round when the operations of the last one are gone
through. Every state the function comes through is one that the system reaches, and if the function
ends, the system ends in the same state.

At every point the schedule and the slots say the same. While the paths are placed the counter is
the length of the schedule. Without a region this holds for the paths only: the other operations are
put at a timestep that has nothing to do with the schedule.
-/

open StateTransition

namespace ScaffCC.Lpfs

/-- Where the function is: in the loop over the entries of the paths, with those that are left and
the timestep counter, or in a round over `priorityVector`, with the operations that are left. -/
inductive Point
  | paths (entries : List (ℕ × ℕ)) (ts : ℕ)
  | free (rest : List ℕ)

structure Config where
  point : Point
  state : State

/-- Where the function starts. -/
def start (body : List Call) (P : Params) : Config :=
  ⟨.paths (pathEntries body P.lastPtr P.l) 0, .init⟩

/-- One round of a loop. There is none after the last one, nor after one that does not end. -/
def step (body : List Call) (P : Params) : Config → Option Config
  | ⟨.paths [] _, s⟩ => some ⟨.free [], s⟩
  | ⟨.paths ((i, path) :: rest) ts, s⟩ =>
    if s.slot i = none then
      (sched_op body i ⟨ts, path⟩ s).map fun s ↦ ⟨.paths rest (ts + 1), s.count⟩
    else some ⟨.paths rest ts, s.count⟩
  | ⟨.free [], s⟩ =>
    if s.sched_ops < (operations body).length then some ⟨.free P.order, s⟩ else none
  | ⟨.free (i :: rest), s⟩ => (placeFree body P.k P.opp_simd s i).map fun s ↦ ⟨.free rest, s⟩

/-- The operation that the next step places, and its slot. -/
def nextAdd (body : List Call) (P : Params) : Config → Option (ℕ × Slot)
  | ⟨.paths ((i, path) :: _) ts, s⟩ =>
    if s.slot i = none ∧ isGate body i then some (i, ⟨ts, path⟩) else none
  | ⟨.free (i :: _), s⟩ =>
    if s.slot i = none ∧ isGate body i then
      (firstMet body s i (s.schedule.length + 1) 0).map fun ts ↦
        (i, chooseSlot body P.k P.opp_simd s i ts)
    else none
  | _ => none

variable {body : List Call} {P : Params} {c c' : Config} {s s' : State} {i : ℕ} {x : Slot}

/-! ## The run of the function -/

theorem reaches_of_placePaths (entries : List (ℕ × ℕ)) {ts : ℕ}
    (h : placePaths body entries ts s = some s') :
    Reaches (step body P) ⟨.paths entries ts, s⟩ ⟨.free [], s'⟩ := by
  induction entries generalizing ts s with
  | nil =>
    obtain rfl : s = s' := Option.some.inj h
    exact .single rfl
  | cons e entries ih =>
    obtain ⟨i, path⟩ := e
    rw [placePaths] at h
    split_ifs at h with hi
    · obtain ⟨s₁, h₁, h⟩ := Option.bind_eq_some_iff.mp h
      refine .head ?_ (ih h)
      rw [Option.mem_def, step, if_pos hi, h₁, Option.map_some]
    · refine .head ?_ (ih h)
      rw [Option.mem_def, step, if_neg hi]

theorem reaches_of_pass (order : List ℕ) (h : pass body P.k P.opp_simd order s = some s') :
    Reaches (step body P) ⟨.free order, s⟩ ⟨.free [], s'⟩ := by
  induction order generalizing s with
  | nil =>
    obtain rfl : s = s' := Option.some.inj h
    exact .refl
  | cons i order ih =>
    rw [pass, List.foldlM_cons] at h
    obtain ⟨s₁, h₁, h⟩ := Option.bind_eq_some_iff.mp h
    refine .head ?_ (ih h)
    rw [Option.mem_def, step, h₁, Option.map_some]

theorem reaches_of_freeList {n : ℕ} (h : freeList body P.k P.opp_simd P.order n s = some s') :
    Reaches (step body P) ⟨.free [], s⟩ ⟨.free [], s'⟩ ∧ step body P ⟨.free [], s'⟩ = none := by
  induction n generalizing s with
  | zero =>
    rw [freeList] at h
    split_ifs at h with hlt
    obtain rfl : s = s' := Option.some.inj h
    exact ⟨.refl, by rw [step, if_neg hlt]⟩
  | succ n ih =>
    rw [freeList] at h
    split_ifs at h with hlt
    · obtain ⟨s₁, h₁, h⟩ := Option.bind_eq_some_iff.mp h
      obtain ⟨hrest, hend⟩ := ih h
      refine ⟨.head ?_ ((reaches_of_pass P.order h₁).trans hrest), hend⟩
      rw [Option.mem_def, step, if_pos hlt]
    · obtain rfl : s = s' := Option.some.inj h
      exact ⟨.refl, by rw [step, if_neg hlt]⟩

/-- **The run of the function.** If the function ends, the system ends in the same state. -/
theorem reaches_of_lpfs (h : lpfs body P = some s) :
    Reaches (step body P) (start body P) ⟨.free [], s⟩ ∧ step body P ⟨.free [], s⟩ = none := by
  rw [lpfs] at h
  obtain ⟨s₁, h₁, h⟩ := Option.bind_eq_some_iff.mp h
  obtain ⟨hrest, hend⟩ := reaches_of_freeList h
  exact ⟨(reaches_of_placePaths _ h₁).trans hrest, hend⟩

/-! ## What a step does -/

theorem sched_op_eq_some :
    sched_op body i x s = some s' ↔
      (s.slot i = none ∧ isGate body i ∧ s' = s.place i x) ∨ (s.slot i ≠ none ∧ s' = s) := by
  rw [sched_op]
  split_ifs with hi hg
  · simp [hi, hg, eq_comm]
  · simp [hi, hg]
  · rw [Option.some.injEq, or_iff_right fun h ↦ hi h.1, and_iff_right hi, eq_comm]

/-- A step places the operation if there is one to be placed, and leaves the schedule as it is if
there is none. -/
theorem step_cases (h : step body P c = some c') :
    (∃ i x, nextAdd body P c = some (i, x) ∧ c'.state = (c.state.place i x).count) ∨
      nextAdd body P c = none ∧ c'.state.schedule = c.state.schedule ∧
        c'.state.slot = c.state.slot := by
  obtain ⟨point, s⟩ := c
  cases point with
  | paths entries ts =>
    cases entries with
    | nil =>
      obtain rfl := Option.some.inj h
      exact .inr ⟨rfl, rfl, rfl⟩
    | cons e rest =>
      obtain ⟨i, path⟩ := e
      rw [step] at h
      split_ifs at h with hi
      · obtain ⟨s', hs', rfl⟩ := Option.map_eq_some_iff.mp h
        rcases sched_op_eq_some.mp hs' with ⟨-, hg, rfl⟩ | ⟨hne, -⟩
        · exact .inl ⟨i, ⟨ts, path⟩, by rw [nextAdd, if_pos ⟨hi, hg⟩], rfl⟩
        · exact absurd hi hne
      · obtain rfl := Option.some.inj h
        exact .inr ⟨by rw [nextAdd, if_neg fun h ↦ hi h.1], rfl, rfl⟩
  | free rest =>
    cases rest with
    | nil =>
      rw [step] at h
      split_ifs at h
      obtain rfl := Option.some.inj h
      exact .inr ⟨rfl, rfl, rfl⟩
    | cons i rest =>
      rw [step] at h
      obtain ⟨s', hs', rfl⟩ := Option.map_eq_some_iff.mp h
      rw [placeFree] at hs'
      split_ifs at hs' with hi
      · obtain ⟨ts, hts, hs'⟩ := Option.bind_eq_some_iff.mp hs'
        obtain ⟨s₁, hs₁, rfl⟩ := Option.map_eq_some_iff.mp hs'
        rcases sched_op_eq_some.mp hs₁ with ⟨-, hg, rfl⟩ | ⟨hne, -⟩
        · exact .inl ⟨i, _, by rw [nextAdd, if_pos ⟨hi, hg⟩, hts, Option.map_some], rfl⟩
        · exact absurd hi hne
      · obtain rfl := Option.some.inj hs'
        exact .inr ⟨by rw [nextAdd, if_neg fun h ↦ hi h.1], rfl, rfl⟩

theorem exists_step (h : nextAdd body P c = some (i, x)) :
    ∃ c', step body P c = some c' ∧ c'.state = (c.state.place i x).count := by
  obtain ⟨point, s⟩ := c
  cases point with
  | paths entries ts =>
    cases entries with
    | nil => exact absurd h nofun
    | cons e rest =>
      obtain ⟨j, path⟩ := e
      rw [nextAdd] at h
      split_ifs at h with hj
      obtain ⟨rfl, rfl⟩ := Prod.mk.inj (Option.some.inj h)
      refine ⟨⟨.paths rest (ts + 1), (s.place j ⟨ts, path⟩).count⟩, ?_, rfl⟩
      rw [step, if_pos hj.1, sched_op_of_none hj.1 hj.2, Option.map_some]
  | free rest =>
    cases rest with
    | nil => exact absurd h nofun
    | cons j rest =>
      rw [nextAdd] at h
      split_ifs at h with hj
      obtain ⟨ts, hts, heq⟩ := Option.map_eq_some_iff.mp h
      obtain ⟨rfl, rfl⟩ := Prod.mk.inj heq
      refine ⟨⟨.free rest, (s.place j _).count⟩, ?_, rfl⟩
      rw [step, placeFree, if_pos hj.1, hts, Option.bind_some, sched_op_of_none hj.1 hj.2,
        Option.map_some, Option.map_some]

theorem schedule_prefix_of_reaches (h : Reaches (step body P) c c') :
    c.state.schedule <+: c'.state.schedule := by
  induction h with
  | refl => exact List.prefix_rfl
  | tail _ hstep ih =>
    refine ih.trans ?_
    rcases step_cases hstep with ⟨i, x, -, heq⟩ | ⟨-, heq, -⟩
    · rw [heq]
      exact List.prefix_append _ _
    · rw [heq]

/-! ## The invariant -/

/-- What holds at a point of the function. -/
def Sound (body : List Call) (P : Params) : Config → Prop
  | ⟨.paths _ ts, s⟩ => s.Ok body ∧ s.schedule.length = ts
  | ⟨.free _, s⟩ => 1 ≤ P.k → s.Ok body

theorem sound_start : Sound body P (start body P) := ⟨State.ok_init, rfl⟩

theorem Sound.step (hc : Sound body P c) (h : step body P c = some c') : Sound body P c' := by
  obtain ⟨point, s⟩ := c
  cases point with
  | paths entries ts =>
    obtain ⟨hok, hlen⟩ := hc
    cases entries with
    | nil =>
      obtain rfl := Option.some.inj h
      exact fun _ ↦ hok
    | cons e rest =>
      obtain ⟨i, path⟩ := e
      rw [Lpfs.step] at h
      split_ifs at h with hi
      · obtain ⟨s', hs', rfl⟩ := Option.map_eq_some_iff.mp h
        rcases sched_op_eq_some.mp hs' with ⟨-, hg, rfl⟩ | ⟨hne, -⟩
        · exact ⟨hok.place hi hg hlen.ge, by rw [State.length_place, hlen]⟩
        · exact absurd hi hne
      · obtain rfl := Option.some.inj h
        exact ⟨hok.count, hlen⟩
  | free rest =>
    cases rest with
    | nil =>
      rw [Lpfs.step] at h
      split_ifs at h
      obtain rfl := Option.some.inj h
      exact hc
    | cons i rest =>
      rw [Lpfs.step] at h
      obtain ⟨s', hs', rfl⟩ := Option.map_eq_some_iff.mp h
      intro hk
      rw [placeFree] at hs'
      split_ifs at hs' with hi
      · obtain ⟨ts, hts, hs'⟩ := Option.bind_eq_some_iff.mp hs'
        obtain ⟨s₁, hs₁, rfl⟩ := Option.map_eq_some_iff.mp hs'
        -- a free operation goes to a timestep of the schedule, or to a new one at its end
        have hle := firstMet_lt hts
        rcases sched_op_eq_some.mp hs₁ with ⟨-, hg, rfl⟩ | ⟨hne, -⟩
        · exact (hc hk).place hi hg (chooseSlot_spec _ hk (hc hk) (by omega)).2
        · exact absurd hi hne
      · obtain rfl := Option.some.inj hs'
        exact hc hk

/-- **The invariant of the run.** -/
theorem sound_of_reaches (h : Reaches (Lpfs.step body P) (start body P) c) : Sound body P c := by
  induction h with
  | refl => exact sound_start
  | tail _ hstep ih => exact ih.step hstep

end ScaffCC.Lpfs
