import Mathlib.Data.List.Nodup
import Mathlib.Data.List.Perm.Subperm
import Mathlib.Order.WellFounded
import ScaffCC.Scheduling.Timing

/-!
# Placements

A list scheduler keeps two records of what it has done: the place of each operation, and for each
place the operations put there, in the order in which they came. Here a place is a timestep and a
region. The two records say the same as long as no operation is placed a second time, and then a
schedule that has as many entries as there are operations has each of them once.
-/

namespace Scheduling

variable {α R : Type*}

/-- The place of each operation, and the operations placed, in the order in which they came. -/
structure Placement (α R : Type*) where
  slot : α → Option (ℕ × R)
  schedule : List ((ℕ × R) × α)

namespace Placement

/-- Nothing is placed. -/
def empty : Placement α R := ⟨fun _ ↦ none, []⟩

/-- The operation `a` put into a place. -/
def place [DecidableEq α] (s : Placement α R) (a : α) (x : ℕ × R) : Placement α R :=
  ⟨Function.update s.slot a (some x), s.schedule ++ [(x, a)]⟩

def time (s : Placement α R) (a : α) : Option ℕ := (s.slot a).map Prod.fst

/-- The operations put into a place. -/
def opsAt [DecidableEq R] (s : Placement α R) (x : ℕ × R) : List α :=
  (s.schedule.filter (·.1 = x)).map Prod.snd

variable {s s' s'' : Placement α R} {a b : α} {x : ℕ × R}

@[simp] theorem slot_place_self [DecidableEq α] : (s.place a x).slot a = some x :=
  Function.update_self ..

@[simp] theorem slot_place_of_ne [DecidableEq α] (h : b ≠ a) : (s.place a x).slot b = s.slot b :=
  Function.update_of_ne h ..

@[simp] theorem schedule_place [DecidableEq α] :
    (s.place a x).schedule = s.schedule ++ [(x, a)] :=
  rfl

theorem time_place [DecidableEq α] : (s.place a x).time = Function.update s.time a (some x.1) := by
  funext b
  by_cases hb : b = a
  · subst hb
    rw [time, slot_place_self, Function.update_self, Option.map_some]
  · rw [time, slot_place_of_ne hb, Function.update_of_ne hb, time]

theorem time_eq_some {n : ℕ} : s.time a = some n ↔ ∃ r, s.slot a = some (n, r) := by
  simp [time, Option.map_eq_some_iff]

theorem time_eq_none : s.time a = none ↔ s.slot a = none := Option.map_eq_none_iff

theorem mem_opsAt [DecidableEq R] : a ∈ s.opsAt x ↔ (x, a) ∈ s.schedule := by
  simp [opsAt]

theorem opsAt_of_schedule_eq [DecidableEq R] {as : List α}
    (h : s'.schedule = s.schedule ++ as.map fun a ↦ (x, a)) (y : ℕ × R) :
    s'.opsAt y = s.opsAt y ++ if y = x then as else [] := by
  rw [opsAt, h, List.filter_append, List.map_append, ← opsAt]
  split_ifs with hy
  · have hall : (as.map fun a ↦ (x, a)).filter (·.1 = y) = as.map fun a ↦ (x, a) := by
      simp [List.filter_eq_self, hy]
    have hsnd : (Prod.snd ∘ fun a : α ↦ (x, a)) = id := rfl
    rw [hall, List.map_map, hsnd, List.map_id]
  · have hnil : (as.map fun a ↦ (x, a)).filter (·.1 = y) = [] := by
      simp [List.filter_eq_nil_iff, Ne.symm hy]
    rw [hnil, List.map_nil]

/-! ## Consistent records -/

/-- The two records say the same. -/
structure Consistent (s : Placement α R) : Prop where
  nodup : (s.schedule.map Prod.snd).Nodup
  mem : ∀ x a, (x, a) ∈ s.schedule ↔ s.slot a = some x

theorem consistent_empty : (empty : Placement α R).Consistent :=
  ⟨List.nodup_nil, by simp [empty]⟩

theorem Consistent.mem_map_snd (h : s.Consistent) :
    a ∈ s.schedule.map Prod.snd ↔ s.slot a ≠ none := by
  rw [Option.ne_none_iff_exists', List.mem_map]
  constructor
  · rintro ⟨⟨x, b⟩, hx, rfl⟩
    exact ⟨x, (h.mem x b).mp hx⟩
  · rintro ⟨x, hx⟩
    exact ⟨(x, a), (h.mem x a).mpr hx, rfl⟩

theorem Consistent.slot_ne_none_iff (h : s.Consistent) (h' : s'.Consistent) {as : List α}
    (hsched : s'.schedule = s.schedule ++ as.map fun a ↦ (x, a)) :
    s'.slot b ≠ none ↔ s.slot b ≠ none ∨ b ∈ as := by
  rw [← h.mem_map_snd, ← h'.mem_map_snd, hsched, List.map_append, List.mem_append, List.map_map]
  simp

theorem Consistent.place [DecidableEq α] (h : s.Consistent) (ha : s.slot a = none) :
    (s.place a x).Consistent := by
  refine ⟨?_, fun y b ↦ ?_⟩
  · rw [schedule_place, List.map_append, List.map_singleton]
    refine h.nodup.append (List.nodup_singleton a) fun b hb hba ↦ ?_
    rw [List.mem_singleton] at hba
    subst hba
    exact h.mem_map_snd.mp hb ha
  · rw [schedule_place, List.mem_append, h.mem, List.mem_singleton, Prod.mk.injEq]
    by_cases hb : b = a
    · subst hb
      simp [ha, eq_comm]
    · simp [hb]

/-- Every operation of a list is placed once, and nothing else is. -/
def Complete (all : List α) (s : Placement α R) : Prop := (s.schedule.map Prod.snd).Perm all

/-- A consistent schedule of operations of the list is complete when nothing is left. -/
theorem Consistent.forall_placed_iff (h : s.Consistent) {all : List α} (hall : all.Nodup)
    (hmem : ∀ a, s.slot a ≠ none → a ∈ all) :
    s.Complete all ↔ ∀ a ∈ all, s.slot a ≠ none := by
  constructor
  · intro hc a ha
    exact h.mem_map_snd.mp (hc.mem_iff.mpr ha)
  · intro hplaced
    refine (List.perm_ext_iff_of_nodup h.nodup hall).mpr fun a ↦ ?_
    rw [h.mem_map_snd]
    exact ⟨hmem a, hplaced a⟩

/-- As long as the schedule is shorter than the list, something is left. -/
theorem Consistent.exists_of_length_lt (h : s.Consistent) {all : List α}
    (hall : all.Nodup) (hlt : s.schedule.length < all.length) : ∃ a ∈ all, s.slot a = none := by
  by_contra hnone
  push Not at hnone
  have hsub : all ⊆ s.schedule.map Prod.snd := fun a ha ↦ h.mem_map_snd.mpr (hnone a ha)
  have hle := (List.subperm_of_subset hall hsub).length_le
  rw [List.length_map] at hle
  omega

theorem Consistent.length_le (h : s.Consistent) {all : List α}
    (hmem : ∀ a, s.slot a ≠ none → a ∈ all) : s.schedule.length ≤ all.length := by
  have hsub : s.schedule.map Prod.snd ⊆ all := fun a ha ↦ hmem a (h.mem_map_snd.mp ha)
  have hle := (List.subperm_of_subset h.nodup hsub).length_le
  rwa [List.length_map] at hle

/-! ## What stays -/

/-- What is placed stays where it is. -/
def Extends (s s' : Placement α R) : Prop := ∀ a x, s.slot a = some x → s'.slot a = some x

theorem Extends.refl (s : Placement α R) : s.Extends s := fun _ _ h ↦ h

theorem Extends.trans (h : s.Extends s') (h' : s'.Extends s'') : s.Extends s'' :=
  fun a x hx ↦ h' a x (h a x hx)

theorem Extends.time (h : s.Extends s') {n : ℕ} (ha : s.time a = some n) : s'.time a = some n := by
  obtain ⟨r, hr⟩ := time_eq_some.mp ha
  exact time_eq_some.mpr ⟨r, h a _ hr⟩

theorem extends_place [DecidableEq α] (ha : s.slot a = none) : s.Extends (s.place a x) := by
  intro b y hy
  rw [slot_place_of_ne, hy]
  rintro rfl
  rw [ha] at hy
  exact Option.some_ne_none y hy.symm

/-! ## Readiness -/

variable {dep : α → α → Prop} {n : ℕ}

theorem ready_place [DecidableEq α] (ha : s.slot a = none) :
    Ready dep (s.place a x).time b x.1 ↔ Ready dep s.time b x.1 := by
  refine forall_congr' fun c ↦ forall_congr' fun _ ↦ ?_
  rw [time_place]
  by_cases hc : c = a
  · subst hc
    rw [Function.update_self, time_eq_none.mpr ha]
    constructor
    · rintro ⟨m, hm, hlt⟩
      rw [Option.some.injEq] at hm
      omega
    · rintro ⟨m, hm, -⟩
      exact absurd hm.symm (Option.some_ne_none m)
  · rw [Function.update_of_ne hc]

/-- Among the operations that are left there is one all of whose dependencies are placed. -/
theorem exists_first (rank : α → ℕ) (hrank : ∀ a b, dep a b → rank a < rank b) {p : α → Prop}
    (hdep : ∀ a b, dep a b → p b → p a) (hleft : ∃ a, p a ∧ s.slot a = none) :
    ∃ a, (p a ∧ s.slot a = none ∧ ∀ b, dep b a → s.slot b ≠ none) ∧
      ∀ b, p b → s.slot b = none → rank a ≤ rank b := by
  obtain ⟨a, ⟨hpa, ha⟩, hmin⟩ :=
    (measure rank).wf.has_min {a | p a ∧ s.slot a = none} hleft
  have hmin' : ∀ b, p b → s.slot b = none → rank a ≤ rank b :=
    fun b hpb hb ↦ not_lt.mp (hmin b ⟨hpb, hb⟩)
  refine ⟨a, ⟨hpa, ha, fun b hba hb ↦ ?_⟩, hmin'⟩
  exact absurd (hmin' b (hdep b a hba hpa) hb) (not_le.mpr (hrank b a hba))

end Placement

end Scheduling
