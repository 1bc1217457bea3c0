import Mathlib.Data.List.Perm.Subperm
import ScaffCC.Lpfs.Schedule
import ScaffCC.Scheduling.Timing

/-!
# What a scheduling step does

The schedule and the slots of the operations say the same at all times, and no step takes a slot
away. A step on a path places the operation at the counter, which is the number of operations placed
so far. A step on the free list finds its timestep after at most as many tries, since no timestep is
skipped, and so does every loop inside it.
-/

open Scheduling

namespace ScaffCC.Lpfs

def State.time (s : State) (i : ℕ) : Option ℕ := (s.slot i).map Slot.ts

/-- Every operation has been placed in exactly one slot, and nothing else has. -/
def Complete (body : List Call) (s : State) : Prop :=
  (s.schedule.map Prod.snd).Perm (operations body)

namespace State

/-- The entries of the schedule are the slots of the operations, one for each operation placed, and
no timestep is skipped. -/
structure Ok (body : List Call) (s : State) : Prop where
  nodup : (s.schedule.map Prod.snd).Nodup
  mem : ∀ x i, (x, i) ∈ s.schedule ↔ s.slot i = some x
  gate : ∀ x i, s.slot i = some x → isGate body i
  bound : ∀ x i, s.slot i = some x → x.ts < s.schedule.length
  counted : s.schedule.length ≤ s.sched_ops

variable {body : List Call} {s s' : State} {i : ℕ} {x : Slot}

theorem length_place (i : ℕ) (x : Slot) :
    (s.place i x).count.schedule.length = s.schedule.length + 1 := by
  simp [State.place, State.count]

theorem ok_init : State.init.Ok body :=
  ⟨List.nodup_nil, by simp [State.init], by simp [State.init], by simp [State.init], le_rfl⟩

theorem Ok.lt_length (h : s.Ok body) : ∀ p ∈ s.schedule, p.1.ts < s.schedule.length :=
  fun p hp ↦ h.bound p.1 p.2 ((h.mem p.1 p.2).mp hp)

theorem Ok.count (h : s.Ok body) : s.count.Ok body :=
  ⟨h.nodup, h.mem, h.gate, h.bound, h.counted.trans (Nat.le_succ _)⟩

theorem Ok.place (h : s.Ok body) (hi : s.slot i = none) (hg : isGate body i)
    (hx : x.ts ≤ s.schedule.length) : (s.place i x).count.Ok body := by
  have hslot : ∀ y j, (s.place i x).slot j = some y ↔ (j = i ∧ y = x) ∨ s.slot j = some y := by
    intro y j
    by_cases hj : j = i
    · subst hj
      simp [State.place, hi, eq_comm]
    · simp [State.place, hj]
  have hlen : (s.place i x).schedule.length = s.schedule.length + 1 := length_place i x
  refine ⟨?_, fun y j ↦ ?_, fun y j hy ↦ ?_, fun y j hy ↦ ?_, ?_⟩
  · change ((s.schedule ++ [(x, i)]).map Prod.snd).Nodup
    rw [List.map_append, List.map_singleton]
    refine h.nodup.append (List.nodup_singleton i) fun j hj hji ↦ ?_
    rw [List.mem_singleton] at hji
    subst hji
    obtain ⟨⟨y, j⟩, hmem, rfl⟩ := List.mem_map.mp hj
    rw [(h.mem y j).mp hmem] at hi
    exact Option.some_ne_none y hi
  · change (y, j) ∈ s.schedule ++ [(x, i)] ↔ (s.place i x).slot j = some y
    rw [hslot, List.mem_append, h.mem, List.mem_singleton, Prod.mk.injEq, or_comm, and_comm]
  · rcases (hslot y j).mp hy with ⟨rfl, -⟩ | hy
    · exact hg
    · exact h.gate y j hy
  · change y.ts < (s.place i x).schedule.length
    rcases (hslot y j).mp hy with ⟨-, rfl⟩ | hy
    · omega
    · have := h.bound y j hy
      omega
  · change (s.place i x).schedule.length ≤ s.sched_ops + 1
    have := h.counted
    omega

/-- What has a slot keeps it. -/
def Extends (s s' : State) : Prop := ∀ i x, s.slot i = some x → s'.slot i = some x

theorem Extends.refl (s : State) : s.Extends s := fun _ _ h ↦ h

theorem Extends.trans {s'' : State} (h : s.Extends s') (h' : s'.Extends s'') : s.Extends s'' :=
  fun i x hx ↦ h' i x (h i x hx)

theorem extends_place (hi : s.slot i = none) : s.Extends (s.place i x).count := by
  intro j y hy
  have hj : j ≠ i := by
    rintro rfl
    rw [hi] at hy
    exact Option.some_ne_none y hy.symm
  change Function.update s.slot i (some x) j = some y
  rw [Function.update_of_ne hj, hy]

end State

/-! ## The paths -/

theorem sched_op_of_none {body : List Call} {i : ℕ} {x : Slot} {s : State} (hi : s.slot i = none)
    (hg : isGate body i) : sched_op body i x s = some (s.place i x) := by
  rw [sched_op, if_pos hi, if_pos hg]

theorem firstMet_lt {body : List Call} {s : State} {i n ts t : ℕ}
    (h : firstMet body s i n ts = some t) : t < ts + n := by
  induction n generalizing ts with
  | zero => exact absurd h nofun
  | succ n ih =>
    rw [firstMet] at h
    split_ifs at h
    · obtain rfl := Option.some.inj h
      omega
    · have := ih h
      omega

theorem le_tempTS (s : State) (r n ts : ℕ) : ts ≤ tempTS s r n ts := by
  induction n generalizing ts with
  | zero => exact le_rfl
  | succ n ih =>
    rw [tempTS]
    split_ifs
    · exact (Nat.le_succ ts).trans (ih (ts + 1))
    · exact le_rfl

/-- The search for a free timestep goes no further than the end of the schedule, and finds one. -/
theorem tempTS_spec {s : State} {r n ts len : ℕ} (hlen : ∀ p ∈ s.schedule, p.1.ts < len)
    (hts : ts ≤ len) (hn : len < ts + n) :
    tempTS s r n ts ≤ len ∧ ¬ occupied s ⟨tempTS s r n ts, r⟩ := by
  induction n generalizing ts with
  | zero => omega
  | succ n ih =>
    rw [tempTS]
    split_ifs with h
    · rcases Nat.lt_or_eq_of_le hts with hlt | rfl
      · exact ih hlt (by omega)
      · obtain ⟨p, hp, heq⟩ := List.any_eq_true.mp h
        rw [decide_eq_true_iff] at heq
        exact absurd (heq ▸ hlen p hp) (lt_irrefl _)
    · exact ⟨hts, h⟩

/-- The timesteps from `ts` to the end of the schedule, between which a slot is looked for. -/
def Within (s : State) (ts : ℕ) (x : Slot) : Prop := ts ≤ x.ts ∧ x.ts ≤ s.schedule.length

theorem lower_eq (s : State) (ts : ℕ) (low : Option Slot) (r : ℕ) :
    lower s ts low r = some ⟨tempTS s r (s.schedule.length + 1) ts, r⟩ ∨
      (low ≠ none ∧ lower s ts low r = low) := by
  cases low with
  | none => exact .inl rfl
  | some x =>
    rw [lower]
    split_ifs
    · exact .inl rfl
    · exact .inr ⟨Option.some_ne_none x, rfl⟩

theorem exists_foldl_lower (s : State) (ts : ℕ) (rs : List ℕ) {low : Option Slot}
    (hne : rs ≠ [] ∨ low ≠ none)
    (hlow : ∀ x, low = some x → ∃ r, x = ⟨tempTS s r (s.schedule.length + 1) ts, r⟩) :
    ∃ r, rs.foldl (lower s ts) low = some ⟨tempTS s r (s.schedule.length + 1) ts, r⟩ := by
  induction rs generalizing low with
  | nil =>
    obtain ⟨x, hx⟩ := Option.ne_none_iff_exists'.mp (hne.resolve_left fun h ↦ h rfl)
    obtain ⟨r, rfl⟩ := hlow x hx
    exact ⟨r, hx⟩
  | cons r rs ih =>
    rw [List.foldl_cons]
    rcases lower_eq s ts low r with heq | ⟨hne, heq⟩
    · rw [heq]
      exact ih (.inr (Option.some_ne_none _)) fun x hx ↦ ⟨r, (Option.some.inj hx).symm⟩
    · rw [heq]
      exact ih (.inr hne) hlow

/-- With at least one region, an operation that joins no other gets the first free timestep of a
region. -/
theorem exists_lowSlot_eq {k : ℕ} (hk : 1 ≤ k) (s : State) (ts : ℕ) :
    ∃ r, lowSlot k s ts = ⟨tempTS s r (s.schedule.length + 1) ts, r⟩ := by
  have hne : (List.range' 1 k).reverse ≠ [] := by
    rw [ne_eq, List.reverse_eq_nil_iff, List.range'_eq_nil_iff]
    omega
  obtain ⟨r, hr⟩ := exists_foldl_lower s ts _ (.inl hne)
    fun x (hx : none = some x) ↦ absurd hx nofun
  exact ⟨r, by rw [lowSlot, hr, Option.getD_some]⟩

theorem chooseSlot_spec {body : List Call} {k ts i : ℕ} (opp : Bool) {s : State} (hk : 1 ≤ k)
    (hs : s.Ok body) (hts : ts ≤ s.schedule.length) :
    Within s ts (chooseSlot body k opp s i ts) := by
  rw [chooseSlot]
  split_ifs
  · cases sameGate body k s i ts with
    | some r => exact ⟨le_rfl, hts⟩
    | none =>
      obtain ⟨r, hr⟩ := exists_lowSlot_eq hk s ts
      rw [hr]
      exact ⟨le_tempTS s r _ ts, (tempTS_spec hs.lt_length hts (by omega)).1⟩
  · exact ⟨le_rfl, hts⟩

end ScaffCC.Lpfs
