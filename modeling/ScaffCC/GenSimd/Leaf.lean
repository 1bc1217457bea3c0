import Mathlib.Data.List.Sort
import ScaffCC.Fallible.Fold
import ScaffCC.GenSimd.Region
import ScaffCC.Scheduling.Placement

/-!
# Scheduling a leaf function

The pass goes through the operations of a function twice. The first time it goes backwards, with no
bound on the regions, and an operation gets the time at which it would then be placed as its
priority. The second time the operations come in the order of falling priorities. Each is put into
the table at the earliest timestep from the last uses of its operands on. The first measurement is
not placed before any operation that came before it, and no operation that comes later is placed
before it.

The order of operations with the same priority is that of the sorting algorithm, so the sort is a
parameter.
-/

open Scheduling Fallible

namespace ScaffCC.GenSimd

/-- The last-use times of the variables of a function. -/
abbrev FuncQbits := Clocks Ident ℕ

/-- An operation by its position in the function, with its priority. -/
abbrev InstPri := ℕ × ℕ

/-- A sort of operations by priority, smallest first. -/
structure PrioritySort where
  sort : List InstPri → List InstPri
  perm : ∀ l, (sort l).Perm l
  sorted : ∀ l, (sort l).Pairwise fun x y ↦ x.2 ≤ y.2

def PrioritySort.stable : PrioritySort where
  sort l := l.insertionSort fun x y ↦ x.2 ≤ y.2
  perm l := l.perm_insertionSort _
  sorted l := l.pairwise_insertionSort fun x y ↦ x.2 ≤ y.2

/-- The maximum of the last uses of the operands. An element that had none gets an entry. -/
def max_ts_of_all_args : FuncQbits → ℕ → List Operand → Except Failure (FuncQbits × ℕ)
  | funcQbits, m, [] => .ok (funcQbits, m)
  | funcQbits, m, q :: qs =>
    if funcQbits.names.contains q.name then
      max_ts_of_all_args (funcQbits.touch q.access) (max m (funcQbits.lastUse q.access)) qs
    else .error .noFuncQbits

/-- All operands are free from `t` on. -/
def update_last_timestep (funcQbits : FuncQbits) (t : ℕ) (qs : List Operand) : FuncQbits :=
  qs.foldl (fun funcQbits q ↦ funcQbits.record t q.access) funcQbits

/-! ## Priorities -/

/-- The priority of an operation. -/
def calc_critical_time_unbounded (funcQbits : FuncQbits) (g : GateCall Operand) :
    Except Failure (FuncQbits × ℕ) := do
  let (funcQbits, m) ← max_ts_of_all_args funcQbits 0 g.operands
  return (update_last_timestep funcQbits (m + 1) g.operands, m + 1)

/-- The priorities of the operations from a position on, the last operation first. -/
def priorityVector (funcQbits : FuncQbits) :
    ℕ → List (GateCall Operand) → Except Failure (FuncQbits × List InstPri)
  | _, [] => .ok (funcQbits, [])
  | k, g :: gs => do
    let (funcQbits, insts) ← priorityVector funcQbits (k + 1) gs
    let (funcQbits, p) ← calc_critical_time_unbounded funcQbits g
    return (funcQbits, insts ++ [(k, p)])

/-! ## Placing -/

/-- The state while the operations are placed. The places are those of the table. -/
structure LeafState where
  funcQbits : FuncQbits
  table : Table
  isFirstMeas : Bool
  placed : Placement ℕ ℕ

/-- The measured qubit is free after the timestep of the measurement, and all others from there
on. -/
def meas_timestep (funcQbits : FuncQbits) (ts : ℕ) (q : Operand) : Except Failure FuncQbits :=
  let funcQbits := funcQbits.reset ts
  if funcQbits.names.contains q.name then
    match q.index with
    | none => .error .arrayMeasured
    | some i =>
      if ((funcQbits.clock q.name).elem i).isSome then
        -- the latest time of the array is `ts` here, so that it becomes `ts + 1`
        .ok (funcQbits.record (ts + 1) q.access)
      else .error .noEntry
  else .error .noFuncQbits

variable (C : Constraints)

/-- The operation at position `k` is placed. -/
def calc_critical_time (s : LeafState) (k : ℕ) (g : GateCall Operand) : Except Failure LeafState :=
  if s.isFirstMeas && isMeas g then do
    let (x, table) ← get_ts_to_schedule_leaf C s.funcQbits.latest (fname g) s.table
    match g.operands with
    | [] => throw .noFuncQbits
    | q :: _ => do
      let funcQbits ← meas_timestep s.funcQbits x.1 q
      return ⟨funcQbits, table, false, s.placed.place k x⟩
  else do
    let (funcQbits, m) ← max_ts_of_all_args s.funcQbits 0 g.operands
    let (x, table) ← get_ts_to_schedule_leaf C m (fname g) s.table
    return ⟨update_last_timestep funcQbits (x.1 + 1) g.operands, table, s.isFirstMeas,
      s.placed.place k x⟩

/-- Operations are placed one after the other. -/
def placeAll (body : List (GateCall Operand)) : LeafState → List InstPri → Except Failure LeafState
  | s, [] => .ok s
  | s, (k, _) :: insts =>
    match body[k]? with
    | none => .error .noInstruction
    | some g => do
      let s ← calc_critical_time C s k g
      placeAll body s insts

/-- The last-use times before anything is used. -/
def LeafFunction.funcQbits (F : LeafFunction) : FuncQbits := ⟨F.tracked, fun _ ↦ .zero⟩

/-- The schedule of a leaf function. -/
def schedule (S : PrioritySort) (F : LeafFunction) : Except Failure LeafState := do
  let (funcQbits, insts) ← priorityVector F.funcQbits 0 F.body
  placeAll C F.body ⟨funcQbits.reset 0, .empty, true, .empty⟩ (S.sort insts).reverse

/-! ## The last uses of operands -/

variable {T T' : FuncQbits} {m m' : ℕ} {qs : List Operand} {g : GateCall Operand}

theorem update_last_timestep_eq {t : ℕ} :
    update_last_timestep ((qs.map Operand.access).foldl Clocks.touch T) t qs =
      T.use t (qs.map Operand.access) := by
  simp only [Clocks.use, update_last_timestep, List.foldl_map]

theorem exists_max_ts (h : ∀ q ∈ qs, q.name ∈ T.names) :
    ∃ m', max_ts_of_all_args T m qs = .ok ((qs.map Operand.access).foldl Clocks.touch T, m') := by
  induction qs generalizing T m with
  | nil => exact ⟨m, rfl⟩
  | cons q qs ih =>
    obtain ⟨hq, hqs⟩ := List.forall_mem_cons.mp h
    rw [max_ts_of_all_args, if_pos (List.contains_iff_mem.mpr hq), List.map_cons, List.foldl_cons]
    exact ih hqs

/-- The maximum is not before the last use of an operand, and not after all of them. -/
theorem max_ts_of_all_args_eq_ok (h : max_ts_of_all_args T m qs = .ok (T', m')) :
    (∀ q ∈ qs, q.name ∈ T.names) ∧ T' = (qs.map Operand.access).foldl Clocks.touch T ∧
      m ≤ m' ∧ (∀ q ∈ qs, T.lastUse q.access ≤ m') ∧
      ∀ u, m ≤ u → (∀ q ∈ qs, T.lastUse q.access ≤ u) → m' ≤ u := by
  induction qs generalizing T m with
  | nil =>
    cases h
    exact ⟨fun q hq ↦ absurd hq List.not_mem_nil, rfl, le_rfl,
      fun q hq ↦ absurd hq List.not_mem_nil, fun u hu _ ↦ hu⟩
  | cons q qs ih =>
    rw [max_ts_of_all_args] at h
    split_ifs at h with hq
    obtain ⟨hqs, hT', hm, hlast, hleast⟩ := ih h
    refine ⟨List.forall_mem_cons.mpr ⟨List.contains_iff_mem.mp hq, hqs⟩, hT',
      (le_max_left ..).trans hm,
      List.forall_mem_cons.mpr ⟨(le_max_right ..).trans hm, fun q' hq' ↦ ?_⟩, fun u hu hle ↦ ?_⟩
    · rw [← Clocks.lastUse_touch (a := q.access)]
      exact hlast q' hq'
    · obtain ⟨hle, hles⟩ := List.forall_mem_cons.mp hle
      refine hleast u (max_le hu hle) fun q' hq' ↦ ?_
      rw [Clocks.lastUse_touch]
      exact hles q' hq'

/-! ## Priorities fall along dependencies -/

/-- What the backward pass has found, for the operations from position `k` on. -/
structure Prioritized (T : FuncQbits) (k : ℕ) (gs : List (GateCall Operand))
    (insts : List InstPri) : Prop where
  capped : T.Capped
  keys : insts.map Prod.fst = (List.range' k gs.length).reverse
  covers : ∀ i g p, gs[i]? = some g → (k + i, p) ∈ insts → ∀ a ∈ accesses g, T.Covers p a
  falls : ∀ i j g h p q, i < j → gs[i]? = some g → gs[j]? = some h → (k + i, p) ∈ insts →
    (k + j, q) ∈ insts → (∃ a ∈ accesses g, ∃ b ∈ accesses h, Overlap a b) → q < p

theorem calc_critical_time_unbounded_eq_ok {p : ℕ}
    (h : calc_critical_time_unbounded T g = .ok (T', p)) :
    (∀ q ∈ g.operands, q.name ∈ T.names) ∧ T' = T.use p (accesses g) ∧
      ∀ a ∈ accesses g, T.lastUse a < p := by
  obtain ⟨⟨T₁, m⟩, hmax, hp⟩ := bind_eq_ok.mp h
  obtain ⟨htracked, rfl, -, hlast, -⟩ := max_ts_of_all_args_eq_ok hmax
  cases hp
  refine ⟨htracked, update_last_timestep_eq, fun a ha ↦ ?_⟩
  obtain ⟨q, hq, rfl⟩ := List.mem_map.mp ha
  exact Nat.lt_succ_of_le (hlast q hq)

theorem exists_calc_critical_time_unbounded (h : ∀ q ∈ g.operands, q.name ∈ T.names) :
    ∃ p, calc_critical_time_unbounded T g = .ok (T.use p (accesses g), p) := by
  obtain ⟨m, hm⟩ := exists_max_ts (m := 0) h
  refine ⟨m + 1, bind_eq_ok.mpr ⟨_, hm, ?_⟩⟩
  rw [accesses, ← update_last_timestep_eq]
  rfl

variable {k : ℕ} {gs : List (GateCall Operand)} {insts : List InstPri}

/-- The backward pass does not get through unless all operands have last uses. -/
theorem tracked_of_priorityVector (h : priorityVector T k gs = .ok (T', insts)) :
    T'.names = T.names ∧ ∀ g ∈ gs, ∀ q ∈ g.operands, q.name ∈ T.names := by
  induction gs generalizing k T' insts with
  | nil =>
    cases h
    exact ⟨rfl, fun g hg ↦ absurd hg List.not_mem_nil⟩
  | cons g gs ih =>
    obtain ⟨⟨T₁, insts₁⟩, hrest, h⟩ := bind_eq_ok.mp h
    obtain ⟨⟨T₂, p⟩, hg, h⟩ := bind_eq_ok.mp h
    cases h
    obtain ⟨hnames, hgs⟩ := ih hrest
    obtain ⟨htracked, rfl, -⟩ := calc_critical_time_unbounded_eq_ok hg
    rw [hnames] at htracked
    exact ⟨by rw [Clocks.names_use, hnames], List.forall_mem_cons.mpr ⟨htracked, hgs⟩⟩

theorem exists_priorityVector (h : ∀ g ∈ gs, ∀ q ∈ g.operands, q.name ∈ T.names) :
    ∃ T' insts, priorityVector T k gs = .ok (T', insts) := by
  induction gs generalizing k with
  | nil => exact ⟨T, [], rfl⟩
  | cons g gs ih =>
    obtain ⟨hg, hgs⟩ := List.forall_mem_cons.mp h
    obtain ⟨T₁, insts₁, hrest⟩ := ih (k := k + 1) hgs
    rw [← (tracked_of_priorityVector hrest).1] at hg
    obtain ⟨p, hp⟩ := exists_calc_critical_time_unbounded hg
    exact ⟨_, _, bind_eq_ok.mpr ⟨_, hrest, bind_eq_ok.mpr ⟨_, hp, rfl⟩⟩⟩

/-- **Priorities fall along dependencies.** -/
theorem prioritized (hT : T.Capped) (h : priorityVector T k gs = .ok (T', insts)) :
    Prioritized T' k gs insts := by
  induction gs generalizing k T' insts with
  | nil =>
    cases h
    exact ⟨hT, rfl, fun i g p hg ↦ by simp at hg, fun i j g h p q _ hg ↦ by simp at hg⟩
  | cons g gs ih =>
    obtain ⟨⟨T₁, insts₁⟩, hrest, h⟩ := bind_eq_ok.mp h
    obtain ⟨⟨T₂, p⟩, hg, h⟩ := bind_eq_ok.mp h
    cases h
    have hP := ih hrest
    obtain ⟨-, rfl, hlt⟩ := calc_critical_time_unbounded_eq_ok hg
    have hle : ∀ a ∈ accesses g, T₁.lastUse a ≤ p := fun a ha ↦ (hlt a ha).le
    -- the entries from `k + 1` on are the old ones, and the one at `k` is new
    have hkeys : ∀ {i r}, (k + 1 + i, r) ∈ insts₁ ++ [(k, p)] → (k + 1 + i, r) ∈ insts₁ := by
      intro i r hmem
      rcases List.mem_append.mp hmem with hmem | hmem
      · exact hmem
      · rw [List.mem_singleton, Prod.mk.injEq] at hmem
        omega
    have hself : ∀ {r}, (k, r) ∈ insts₁ ++ [(k, p)] → r = p := by
      intro r hmem
      rcases List.mem_append.mp hmem with hmem | hmem
      · have hk := List.mem_map_of_mem (f := Prod.fst) hmem
        rw [hP.keys, List.mem_reverse, List.mem_range'_1] at hk
        omega
      · rw [List.mem_singleton, Prod.mk.injEq] at hmem
        exact hmem.2
    refine ⟨hP.capped.use, ?_, fun i g' r hg' hr a ha ↦ ?_, fun i j g' h r q hij hg' hh hr hq ↦ ?_⟩
    · rw [List.map_append, hP.keys, List.length_cons, List.range'_succ, List.reverse_cons,
        List.map_singleton]
    · cases i with
      | zero =>
        rw [List.getElem?_cons_zero, Option.some.injEq] at hg'
        subst hg'
        rw [hself hr]
        exact Clocks.covers_use_self hP.capped hle ha
      | succ i =>
        rw [List.getElem?_cons_succ] at hg'
        rw [show k + (i + 1) = k + 1 + i by omega] at hr
        exact (hP.covers i g' r hg' (hkeys hr) a ha).use hP.capped hle
    · obtain ⟨j, rfl⟩ := Nat.exists_eq_add_one.mpr (Nat.zero_lt_of_lt hij)
      rw [List.getElem?_cons_succ] at hh
      rw [show k + (j + 1) = k + 1 + j by omega] at hq
      cases i with
      | zero =>
        rw [List.getElem?_cons_zero, Option.some.injEq] at hg'
        subst hg'
        rintro ⟨a, ha, b, hb, hab⟩
        rw [hself hr]
        have hcov := hP.covers j h q hh (hkeys hq) b hb
        exact (hcov.le_lastUse hP.capped (overlap_symm hab)).trans_lt (hlt a ha)
      | succ i =>
        rw [List.getElem?_cons_succ] at hg'
        rw [show k + (i + 1) = k + 1 + i by omega] at hr
        exact hP.falls i j g' h r q (Nat.lt_of_succ_lt_succ hij) hg' hh (hkeys hr) (hkeys hq)

end ScaffCC.GenSimd
