import Mathlib.Logic.Relation
import ScaffCC.Sched.Moves

/-!
# Ready operations

The schedulers keep the ready operations in a hash and work through timestep after timestep. An
operation is ready at a timestep when all its parents have earlier ones. During a timestep the hash
holds such operations only, and what is placed does not make others ready for the same timestep. At
the end the children of what was placed are looked at, and the hash holds what is ready at the next
timestep.

Perl does not say in which order a hash is gone through, so the order is a parameter.
-/

open Scheduling

namespace ScaffCC.Sched

/-- The fields `ts` and `simd` of the operations, and the operations of each timestep and region. -/
abbrev Schedule := Placement ℕ ℕ

/-- The order in which a hash with the given keys is gone through. It may be another one for each
timestep and region. -/
structure HashOrder where
  keys : ℕ → ℕ → List ℕ → List ℕ
  perm : ∀ ts simd l, (keys ts simd l).Perm l

def HashOrder.added : HashOrder := ⟨fun _ _ l ↦ l, fun _ _ l ↦ List.Perm.refl l⟩

variable (ops : List Op)

/-- Whether all parents have a timestep. -/
def op_ready (s : Schedule) (i : ℕ) : Bool := (in_edges ops i).all fun a ↦ (s.time a).isSome

def get_ready_children (s : Schedule) (i : ℕ) : List ℕ := (out_edges ops i).filter (op_ready ops s)

/-- An operation that is ready is put into a region. There is no result if it is not. -/
def sched_op (s : Schedule) (op : Option ℕ) (ts simd : ℕ) : Option Schedule :=
  op.bind fun i ↦ if op_ready ops s i then some (s.place i (ts, simd)) else none

/-- Operations placed one after the other, each if it is ready. -/
def sched_ops (s : Schedule) (is : List ℕ) (ts simd : ℕ) : Schedule :=
  is.foldl (fun s i ↦ (sched_op ops s (some i) ts simd).getD s) s

/-- The regions used at a timestep. -/
def regionsAt (s : Schedule) (ts : ℕ) : List ℕ :=
  ((s.schedule.filter (·.1.1 = ts)).map (·.1.2)).dedup

/-- The operations in each region at a timestep. -/
def timestep (s : Schedule) (ts : ℕ) : Timestep := fun simd ↦ (s.opsAt (ts, simd)).map (opAt ops)

variable {ops} {s s' : Schedule} {i ts simd k : ℕ}

theorem op_ready_iff : op_ready ops s i ↔ ∀ a ∈ in_edges ops i, s.slot a ≠ none := by
  rw [op_ready, List.all_eq_true]
  refine forall_congr' fun a ↦ imp_congr_right fun _ ↦ ?_
  rw [Option.isSome_iff_ne_none, ne_eq, Placement.time_eq_none]

theorem sched_op_eq_some : sched_op ops s (some i) ts simd = some s' ↔
    op_ready ops s i ∧ s' = s.place i (ts, simd) := by
  rw [sched_op, Option.bind_some]
  split_ifs with h
  · rw [Option.some.injEq, eq_comm, and_iff_right h]
  · simp [h]

theorem op_ready_place {x : ℕ × ℕ} {j : ℕ} (h : op_ready ops s i) :
    op_ready ops (s.place j x) i := by
  refine op_ready_iff.mpr fun a ha ↦ ?_
  by_cases haj : a = j
  · rw [haj, Placement.slot_place_self]
    exact Option.some_ne_none x
  · rw [Placement.slot_place_of_ne haj]
    exact op_ready_iff.mp h a ha

theorem sched_ops_cons {is : List ℕ} (h : op_ready ops s i) :
    sched_ops ops s (i :: is) ts simd = sched_ops ops (s.place i (ts, simd)) is ts simd := by
  rw [sched_ops, List.foldl_cons, sched_op_eq_some.mpr ⟨h, rfl⟩, Option.getD_some, ← sched_ops]

theorem op_ready_of_ready (h : Ready (Parent ops) s.time i ts) (hi : i < ops.length) :
    op_ready ops s i := by
  refine op_ready_iff.mpr fun a ha ↦ ?_
  obtain ⟨m, hm, -⟩ := h a ⟨hi, ha⟩
  obtain ⟨r, hr⟩ := Placement.time_eq_some.mp hm
  rw [hr]
  exact Option.some_ne_none _

/-- When no timestep after `ts` is used, an operation that is ready has its parents up to `ts`. -/
theorem ready_succ_of_op_ready (hle : ∀ a x, s.slot a = some x → x.1 ≤ ts) (h : op_ready ops s i) :
    Ready (Parent ops) s.time i (ts + 1) := by
  intro a ha
  obtain ⟨x, hx⟩ := Option.ne_none_iff_exists'.mp (op_ready_iff.mp h a ha.2)
  exact ⟨x.1, Placement.time_eq_some.mpr ⟨x.2, hx⟩, Nat.lt_succ_of_le (hle a x hx)⟩

/-- An operation that is ready is placed. -/
def Places (ops : List Op) (s s' : Schedule) : Prop :=
  ∃ i x, op_ready ops s i ∧ s' = s.place i x

theorem not_mem_of_parent_self (hi : Parent ops i i)
    (h : Relation.ReflTransGen (Places ops) .empty s) (x : ℕ × ℕ) : (x, i) ∉ s.schedule := by
  suffices hnone : s.slot i = none ∧ ∀ x, (x, i) ∉ s.schedule from hnone.2 x
  induction h with
  | refl => exact ⟨rfl, fun x ↦ List.not_mem_nil⟩
  | tail _ hplace ih =>
    obtain ⟨j, y, hready, rfl⟩ := hplace
    have hij : i ≠ j := by
      rintro rfl
      exact op_ready_iff.mp hready i hi.2 ih.1
    refine ⟨(Placement.slot_place_of_ne hij).trans ih.1, fun x hx ↦ ?_⟩
    rw [Placement.schedule_place, List.mem_append, List.mem_singleton, Prod.mk.injEq] at hx
    exact hx.elim (ih.2 x) fun hx ↦ hij hx.2

/-! ## The hash of ready operations -/

/-- What is true at every moment of a timestep. An operation is claimed when it is placed, or kept
for a region. -/
structure Tracks (ops : List Op) (k ts : ℕ) (claimed : ℕ → Prop) (s : Schedule) (ready : List ℕ) :
    Prop where
  consistent : s.Consistent
  placed : ∀ i x, s.slot i = some x → i < ops.length ∧ x.1 ≤ ts ∧ 1 ≤ x.2 ∧ x.2 ≤ k
  of_placed : ∀ i, s.slot i ≠ none → claimed i
  ready : ∀ i, i ∈ ready ↔ i < ops.length ∧ ¬ claimed i ∧ Ready (Parent ops) s.time i ts

namespace Tracks

variable {claimed claimed' : ℕ → Prop} {ready ready' : List ℕ} (h : Tracks ops k ts claimed s ready)
include h

theorem slot_eq_none (hi : i ∈ ready) : s.slot i = none := by
  by_contra hslot
  exact ((h.ready i).mp hi).2.1 (h.of_placed i hslot)

theorem op_ready (hi : i ∈ ready) : op_ready ops s i :=
  op_ready_of_ready ((h.ready i).mp hi).2.2 ((h.ready i).mp hi).1

theorem mem_range (hi : s.slot i ≠ none) : i ∈ List.range ops.length := by
  obtain ⟨x, hx⟩ := Option.ne_none_iff_exists'.mp hi
  exact List.mem_range.mpr (h.placed i x hx).1

theorem place (hi : i < ops.length) (hnone : s.slot i = none) (hpos : 1 ≤ simd) (hle : simd ≤ k)
    (hclaimed : ∀ j, claimed' j ↔ claimed j ∨ j = i)
    (hready : ∀ j, j ∈ ready' ↔ j ∈ ready ∧ j ≠ i) :
    Tracks ops k ts claimed' (s.place i (ts, simd)) ready' := by
  refine ⟨h.consistent.place hnone, fun j x hx ↦ ?_, fun j hj ↦ ?_, fun j ↦ ?_⟩
  · by_cases hj : j = i
    · subst hj
      rw [Placement.slot_place_self, Option.some.injEq] at hx
      subst hx
      exact ⟨hi, le_rfl, hpos, hle⟩
    · rw [Placement.slot_place_of_ne hj] at hx
      exact h.placed j x hx
  · rw [hclaimed]
    by_cases hji : j = i
    · exact .inr hji
    · rw [Placement.slot_place_of_ne hji] at hj
      exact .inl (h.of_placed j hj)
  · rw [hready, h.ready, hclaimed, not_or, Placement.ready_place hnone]
    exact ⟨fun ⟨⟨hlt, hc, hr⟩, hne⟩ ↦ ⟨hlt, ⟨hc, hne⟩, hr⟩,
      fun ⟨hlt, ⟨hc, hne⟩, hr⟩ ↦ ⟨⟨hlt, hc, hr⟩, hne⟩⟩

theorem congr (hclaimed : ∀ j, claimed' j ↔ claimed j) : Tracks ops k ts claimed' s ready :=
  ⟨h.consistent, h.placed, fun i hi ↦ (hclaimed i).mpr (h.of_placed i hi),
    fun i ↦ (h.ready i).trans (by rw [hclaimed])⟩

omit h in
/-- Ready operations are placed one after the other. -/
theorem sched_ops {is : List ℕ} (h : Tracks ops k ts claimed s ready) (hpos : 1 ≤ simd)
    (hle : simd ≤ k) (his : is.Nodup) (hsub : is ⊆ ready) :
    Tracks ops k ts (fun j ↦ claimed j ∨ j ∈ is) (sched_ops ops s is ts simd)
        (ready.filter (· ∉ is)) ∧
      (Timely (Parent ops) s.time → Timely (Parent ops) (Sched.sched_ops ops s is ts simd).time) ∧
      s.Extends (Sched.sched_ops ops s is ts simd) ∧
      (Sched.sched_ops ops s is ts simd).schedule
        = s.schedule ++ is.map fun i ↦ ((ts, simd), i) := by
  induction is generalizing s ready claimed with
  | nil =>
    have hfilter : ready.filter (· ∉ ([] : List ℕ)) = ready := by simp
    rw [hfilter]
    exact ⟨h.congr (by simp), id, Placement.Extends.refl s, (List.append_nil _).symm⟩
  | cons i is ih =>
    have hi : i ∈ ready := hsub List.mem_cons_self
    rw [List.nodup_cons] at his
    have hnone := h.slot_eq_none hi
    have htracks : Tracks ops k ts (fun j ↦ claimed j ∨ j = i) (s.place i (ts, simd))
        (ready.filter (· ≠ i)) :=
      h.place ((h.ready i).mp hi).1 hnone hpos hle (fun _ ↦ Iff.rfl) fun j ↦ by simp
    have htimely (ht : Timely (Parent ops) s.time) :
        Timely (Parent ops) (s.place i (ts, simd)).time := by
      rw [Placement.time_place]
      exact ht.place (Placement.time_eq_none.mpr hnone) ((h.ready i).mp hi).2.2
    obtain ⟨ht, hty, hext, hsched⟩ := ih htracks his.2 fun j hj ↦ List.mem_filter.mpr
      ⟨hsub (List.mem_cons_of_mem i hj), decide_eq_true fun heq ↦ his.1 (heq ▸ hj)⟩
    have hfilter : (ready.filter (· ≠ i)).filter (· ∉ is) = ready.filter (· ∉ i :: is) := by
      rw [List.filter_filter]
      refine List.filter_congr fun j _ ↦ ?_
      simp [Bool.and_comm]
    rw [sched_ops_cons (h.op_ready hi), ← hfilter]
    refine ⟨ht.congr fun j ↦ ?_, hty ∘ htimely, (Placement.extends_place hnone).trans hext, ?_⟩
    · rw [List.mem_cons, or_assoc]
    · rw [hsched, Placement.schedule_place, List.append_assoc, List.singleton_append,
        List.map_cons]

theorem length_regionsAt_le (n : ℕ) : (regionsAt s n).length ≤ k := by
  have hsub : regionsAt s n ⊆ List.range' 1 k := by
    intro r hr
    obtain ⟨⟨⟨m, r'⟩, i⟩, hx, rfl⟩ := List.mem_map.mp (List.mem_dedup.mp hr)
    have hslot := (h.consistent.mem _ i).mp (List.mem_filter.mp hx).1
    obtain ⟨-, -, hpos, hle⟩ := h.placed i _ hslot
    rw [List.mem_range'_1]
    dsimp only at hpos hle ⊢
    omega
  have hle := (List.subperm_of_subset (List.nodup_dedup _) hsub).length_le
  rwa [List.length_range'] at hle

/-- **The end of a timestep.** The ready children of what was placed are added. -/
theorem next {added : List ℕ} (hadded : ∀ c, c ∈ added ↔
      (∃ a simd, s.slot a = some (ts, simd) ∧ c ∈ get_ready_children ops s a) ∧ ¬ claimed c) :
    Tracks ops k (ts + 1) claimed s (added ∪ ready) := by
  have hle : ∀ a x, s.slot a = some x → x.1 ≤ ts := fun a x hx ↦ (h.placed a x hx).2.1
  refine ⟨h.consistent, fun i x hx ↦ ?_, h.of_placed, fun i ↦ ?_⟩
  · obtain ⟨hi, hts, hsimd⟩ := h.placed i x hx
    exact ⟨hi, by omega, hsimd⟩
  · rw [List.mem_union_iff, h.ready, hadded]
    constructor
    · rintro (⟨⟨a, simd, -, hchild⟩, hc⟩ | ⟨hi, hc, hr⟩)
      · obtain ⟨hout, hr⟩ := List.mem_filter.mp hchild
        exact ⟨(mem_out_edges.mp hout).1, hc, ready_succ_of_op_ready hle hr⟩
      · exact ⟨hi, hc, hr.mono (Nat.le_succ ts)⟩
    · rintro ⟨hi, hc, hr⟩
      by_cases hearlier : Ready (Parent ops) s.time i ts
      · exact .inr ⟨hi, hc, hearlier⟩
      · -- some parent was placed at this timestep
        rw [Ready] at hearlier
        push Not at hearlier
        obtain ⟨a, ha, hlate⟩ := hearlier
        obtain ⟨m, hm, hlt⟩ := hr a ha
        obtain ⟨simd, hslot⟩ := Placement.time_eq_some.mp hm
        have hmts : m = ts := le_antisymm (Nat.lt_succ_iff.mp hlt) (hlate m hm)
        refine .inl ⟨⟨a, simd, hmts ▸ hslot, ?_⟩, hc⟩
        exact List.mem_filter.mpr ⟨mem_out_edges.mpr ha, op_ready_of_ready hr hi⟩

/-- At the start of a timestep an operation that is left and not kept for a region is in the hash
if no other that is left comes before it. -/
theorem exists_first (hd : DistinctArgs ops) (hbefore : ∀ i x, s.slot i = some x → x.1 < ts)
    (hleft : s.schedule.length < ops.length) :
    ∃ i < ops.length, s.slot i = none ∧ Ready (Parent ops) s.time i ts ∧
      ∀ j < ops.length, s.slot j = none → i ≤ j := by
  obtain ⟨a, ha, hnone⟩ := h.consistent.exists_of_length_lt List.nodup_range
    (by rwa [List.length_range])
  have hrank : ∀ a b, Parent ops a b → id a < id b := fun a b hab ↦ hab.lt hd
  obtain ⟨i, ⟨hi, hslot, hparents⟩, hmin⟩ := Placement.exists_first id hrank
    (fun a b hab hb ↦ (hrank a b hab).trans hb) ⟨a, List.mem_range.mp ha, hnone⟩
  refine ⟨i, hi, hslot, fun a ha ↦ ?_, hmin⟩
  obtain ⟨x, hx⟩ := Option.ne_none_iff_exists'.mp (hparents a ha)
  exact ⟨x.1, Placement.time_eq_some.mpr ⟨x.2, hx⟩, hbefore a x hx⟩

/-- A schedule with as many entries as there are operations has each of them once. -/
theorem complete (hlength : ops.length ≤ s.schedule.length) :
    s.Complete (List.range ops.length) := by
  refine (h.consistent.forall_placed_iff List.nodup_range fun i hi ↦ h.mem_range hi).mpr ?_
  intro i hi hnone
  have hperm := (List.subperm_of_subset h.consistent.nodup fun a ha ↦
    h.mem_range (h.consistent.mem_map_snd.mp ha)).perm_of_length_le
    (by rwa [List.length_range, List.length_map])
  exact h.consistent.mem_map_snd.mp (hperm.mem_iff.mpr hi) hnone

end Tracks

/-- Nothing is placed, and the operations without a parent are ready. -/
theorem tracks_start {claimed : ℕ → Prop} {ready : List ℕ}
    (hready : ∀ i, i ∈ ready ↔ i ∈ top ops ∧ ¬ claimed i) :
    Tracks ops k 0 claimed .empty ready := by
  refine ⟨Placement.consistent_empty, fun i x hx ↦ absurd hx.symm (Option.some_ne_none x),
    fun i hi ↦ absurd rfl hi, fun i ↦ ?_⟩
  rw [hready, mem_top, and_assoc, and_congr_right_iff]
  refine fun _ ↦ and_comm.trans (and_congr_right fun _ ↦ forall_congr' fun a ↦ ?_)
  refine ⟨fun h ha ↦ absurd ha h, fun h ha ↦ ?_⟩
  obtain ⟨m, hm, -⟩ := h ha
  exact Option.some_ne_none m hm.symm

end ScaffCC.Sched
