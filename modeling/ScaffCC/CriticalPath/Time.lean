import ScaffCC.GenSimd.Gate
import ScaffCC.Scheduling.Chain

/-!
# Critical paths

The pass `GetCriticalPath` finds the length of the critical path of each function, callees before
callers. It goes through the calls of the function and keeps, for each array of qubits, a map from
indices to times. The key `-1` stands for the whole array and `-2` for the latest time in the map,
and an index gets an entry when it is first looked up. A gate gets the time after the latest entry
of its operands. A call of another function gets the times of the table of that function, moved by
the time at which its operands are free.

In a leaf function the gates of the first half are then scheduled once more, as late as possible, to
find how long the operands of a later call have to wait.

Searches in maps are of two kinds: some results are checked by an assertion before they are used and
some are used at once. Assertions can be compiled out.
-/

open Scheduling

namespace ScaffCC.CriticalPath

open GenSimd (fname isMeas)

/-- A quantum operand of a call: a qubit, or an array of qubits. -/
abbrev Operand := GenSimd.Operand

/-- How the pass can fail: at an assertion, or by using a map entry that is not there. -/
inductive Failure
  | assertion
  | missingEntry
  deriving DecidableEq, Repr

/-! ## Maps of times -/

/-- The times of the qubits of a function: of each array the entry for the key `-1`, the one for
`-2`, and those for indices. -/
abbrev FuncQbits := Clocks Ident ℕ

def find_map (T : FuncQbits) (name : Ident) : Option (ArrayClock ℕ) :=
  if T.names.contains name then some (T.clock name) else none

/-- The entry for an index, or that for the key `-1`. -/
def entry (c : ArrayClock ℕ) : Option ℕ → Option ℕ
  | none => some c.whole
  | some i => c.elem i

/-- The entry for an index, or that for the key `-1`, is overwritten. -/
def set_entry (c : ArrayClock ℕ) (t : ℕ) : Option ℕ → ArrayClock ℕ
  | none => ⟨t, c.top, c.elem⟩
  | some i => ⟨c.whole, c.top, Function.update c.elem i (some t)⟩

/-- The entry for the key `-2` is overwritten. -/
def set_top (c : ArrayClock ℕ) (t : ℕ) : ArrayClock ℕ := ⟨c.whole, t, c.elem⟩

/-- The map of an array is replaced. -/
def set_map (T : FuncQbits) (name : Ident) (c : ArrayClock ℕ) : FuncQbits :=
  ⟨T.names, Function.update T.clock name c⟩

/-- The result of a search is used at once. -/
def unchecked {α : Type} : Option α → Except Failure α
  | some a => .ok a
  | none => .error .missingEntry

/-- An assertion checks the result of a search before it is used. -/
def asserted {α : Type} (asserts : Bool) : Option α → Except Failure α
  | some a => .ok a
  | none => .error (if asserts then .assertion else .missingEntry)

def assert (asserts : Bool) (p : Bool) : Except Failure Unit :=
  if asserts && !p then .error .assertion else .ok ()

/-! ## Functions -/

/-- A call in the body of a function, of a gate or of another function. -/
inductive Inst
  | gate (g : GateCall Operand)
  | call (qFunc : Ident) (operands : List Operand)
  deriving DecidableEq, Repr

/-- The arguments the pass looks at: only those that are qubits. -/
def Inst.args : Inst → List Operand
  | gate g => g.operands.filter (·.ty = .qbit)
  | call _ operands => operands.filter (·.ty = .qbit)

/-- Whether a call is a measurement. -/
def Inst.isMeasurement : Inst → Bool
  | gate g => isMeas g
  | call _ _ => false

/-- A function with its parameters, of which those without a type are classical, and the arrays it
declares. -/
structure Func where
  args : List (Ident × Option QTy)
  arrays : List (Ident × QTy)
  body : List Inst

/-- The qubit parameters and arrays, which get a map each. -/
def Func.tracked (F : Func) : List Ident :=
  (F.args.filter (·.2 = some .qbit)).map Prod.fst ++ (F.arrays.filter (·.2 = .qbit)).map Prod.fst

/-- The maps before anything is used. -/
def Func.funcQbits (F : Func) : FuncQbits := ⟨F.tracked, fun _ ↦ .zero⟩

/-- What is known of a function when its callers are looked at: the length of its critical path, and
for the position of each qubit parameter the map of its times, and the one of the times at which it
is needed. -/
structure Callee where
  crit_path_f : ℕ
  tableFuncQbits : ℕ → Option (ArrayClock ℕ)
  tableFuncQbitsStart : ℕ → Option (ArrayClock ℕ)

/-- The functions looked at so far. -/
abbrev Tables := Ident → Option Callee

/-! ## One call -/

/-- The state while the calls of a function are looked at. There is an entry of `tsGates` for a time
at which there is a gate. -/
structure State where
  funcQbits : FuncQbits
  tsGates : ℕ → List (GateCall Operand)
  isFirstMeas : Bool
  isLeaf : Bool
  highestDelay : ℕ

/-- The gate is remembered with its time, unless a function was called before. -/
def State.addToTSGates (s : State) (g : GateCall Operand) (ts : ℕ) : State :=
  if s.isLeaf then { s with tsGates := Function.update s.tsGates ts (s.tsGates ts ++ [g]) } else s

variable (asserts : Bool)

/-- The latest of the entries of the operands. An index without an entry gets that for the key
`-1`. -/
def compute_max_ts_of_all_args : FuncQbits → ℕ → List Operand → Except Failure (FuncQbits × ℕ)
  | T, m, [] => .ok (T, m)
  | T, m, q :: qs => do
    let _ ← asserted asserts (find_map T q.name)
    compute_max_ts_of_all_args (T.touch q.access) (max m (T.lastUse q.access)) qs

/-- All operands have the time `t`. -/
def update_timesteps (T : FuncQbits) (t : ℕ) (qs : List Operand) : FuncQbits :=
  qs.foldl (fun T q ↦ T.record t q.access) T

/-- The first measurement comes after everything before it. The entry of its operand is used without
a check. -/
def first_measurement (s : State) (g : GateCall Operand) (q : Operand) : Except Failure State := do
  let maxFQ := s.funcQbits.latest
  let T := s.funcQbits.reset maxFQ
  let c ← unchecked (find_map T q.name)
  let _ ← unchecked (entry c q.index)
  let c := set_top (set_entry c (maxFQ + 1) q.index) (maxFQ + 1)
  let T := set_map T q.name c
  return { s.addToTSGates g (maxFQ + 1) with funcQbits := T, isFirstMeas := false }

/-- When an operand of a call is needed, if the call is moved to the time `tmax`. -/
def startsAt (callee : Callee) (tmax : ℕ) (i : ℕ) (q : Operand) : Except Failure ℕ :=
  match callee.tableFuncQbitsStart i with
  | none => do
    assert asserts false
    return 0
  | some c =>
    match q.index with
    | none => return tmax + c.top
    | some _ => do
      let start ← asserted asserts (c.elem 0)
      return tmax + start

/-- The differences of 64-bit times wrap around. -/
def slack (starts ends : ℕ) : ℕ := (starts + 2 ^ 64 - ends) % 2 ^ 64

/-- How far a call can be moved back because its operands are not needed at once. The operands have
entries here: `compute_max_ts_of_all_args` made them. -/
def compute_least_slack (callee : Callee) (T : FuncQbits) (tmax : ℕ) (qs : List Operand) :
    Except Failure ℕ := do
  let starts ← qs.zipIdx.mapM fun x ↦ startsAt asserts callee tmax x.2 x.1
  let leastslack := (List.zipWith slack starts (qs.map fun q ↦ T.lastUse q.access)).min?.getD 0
  return if leastslack > tmax then 1 else leastslack

/-- The times of a whole array are those of the parameter, moved to where the call is. -/
def move_array (c callee : ArrayClock ℕ) (tmax least_slack : ℕ) : ArrayClock ℕ where
  whole := tmax + callee.whole + 1 - least_slack
  top := tmax + callee.top + 1 - least_slack
  elem i := ((callee.elem i).map fun t ↦ tmax + t + 1 - least_slack).or (c.elem i)

/-- The time of an element is that of the entry for the index `0` of the parameter, moved to where
the call is. -/
def move_qbit (c : ArrayClock ℕ) (i t tmax least_slack : ℕ) : ArrayClock ℕ where
  whole := c.whole
  top := if c.top < tmax + t then tmax + t + 1 - least_slack else c.top
  elem := Function.update c.elem i (some (tmax + t + 1 - least_slack))

/-- The operand of a call gets the times the called function has for the parameter. -/
def update_from_table (callee : Callee) (tmax least_slack : ℕ) (T : FuncQbits) (x : Operand × ℕ) :
    Except Failure FuncQbits := do
  let c ← asserted asserts (find_map T x.1.name)
  match callee.tableFuncQbits x.2 with
  | none => return T
  | some table =>
    match x.1.index with
    | none => return set_map T x.1.name (move_array c table tmax least_slack)
    | some i => do
      let t ← asserted asserts (table.elem 0)
      return set_map T x.1.name (move_qbit c i t tmax least_slack)

def call_function (tables : Tables) (s : State) (qFunc : Ident) (qs : List Operand) :
    Except Failure State := do
  let (T, tmax) ← compute_max_ts_of_all_args asserts s.funcQbits 0 qs
  let callee ← asserted asserts (tables qFunc)
  let least_slack ← compute_least_slack asserts callee T tmax qs
  let T ← qs.zipIdx.foldlM (update_from_table asserts callee tmax least_slack) T
  return { s with
    funcQbits := T
    isLeaf := false
    highestDelay := max s.highestDelay (tmax + callee.crit_path_f + 1 - least_slack) }

/-- A gate other than the first measurement. -/
def schedule_gate (s : State) (g : GateCall Operand) (qs : List Operand) :
    Except Failure State := do
  let (T, m) ← compute_max_ts_of_all_args asserts s.funcQbits 0 qs
  return { s.addToTSGates g (m + 1) with funcQbits := update_timesteps T (m + 1) qs }

/-- The next call of the body. Nothing is done unless it has qubit operands. -/
def calc_critical_time (tables : Tables) (s : State) (x : Inst) : Except Failure State :=
  match x.args with
  | [] => .ok s
  | q :: qs =>
    match x with
    | .gate g =>
      if s.isFirstMeas && isMeas g then first_measurement s g q
      else schedule_gate asserts s g (q :: qs)
    | .call qFunc _ => call_function asserts tables s qFunc (q :: qs)

/-! ## As late as possible -/

/-- The entry of an operand is used, by a gate that is not about a whole array. -/
def half_entry (H : FuncQbits) (q : Operand) : Except Failure ℕ := do
  let c ← asserted asserts (find_map H q.name)
  assert asserts q.index.isSome
  asserted asserts (entry c q.index)

/-- The gates with the time `i` need their operands at that time. -/
def lower_entry (i : ℕ) (H : FuncQbits) (q : Operand) : Except Failure FuncQbits := do
  let t ← half_entry asserts H q
  return if i < t then set_map H q.name (set_entry (H.clock q.name) i q.index) else H

/-- The gates with a time. -/
def find_ts (tsGates : ℕ → List (GateCall Operand)) (i : ℕ) :
    Except Failure (List (GateCall Operand)) :=
  unchecked (if (tsGates i).isEmpty then none else some (tsGates i))

/-- When the gates of the second half need their operands. The maps have the entries of `funcQbits`,
all with the time `ct`. -/
def gen_half_funcQbits (funcQbits : FuncQbits) (tsGates : ℕ → List (GateCall Operand))
    (ct hct : ℕ) : Except Failure FuncQbits :=
  (List.range' (hct + 1) (ct - 1 - hct)).foldlM (fun H i ↦ do
    let gates ← find_ts tsGates i
    gates.foldlM (fun H g ↦ (Inst.gate g).args.foldlM (lower_entry asserts i) H) H)
    (funcQbits.reset ct)

/-- The operand of a gate that is scheduled as late as possible. -/
def record_alap (t : ℕ) (H : FuncQbits) (q : Operand) : FuncQbits :=
  match q.index with
  | none => set_map H q.name ((H.clock q.name).reset t)
  | some _ =>
    set_map H q.name
      (set_top (set_entry (H.clock q.name) t q.index) (min (H.clock q.name).top t))

/-- A gate is scheduled before all operations after it. -/
def schedule_alap_inst (ct : ℕ) (H : FuncQbits) (g : GateCall Operand) :
    Except Failure FuncQbits := do
  let m ← (Inst.gate g).args.foldlM (fun m q ↦ do
    let t ← half_entry asserts H q
    return min m t) ct
  return (Inst.gate g).args.foldl (record_alap (m - 1)) H

/-- The gates of the first half are scheduled as late as possible, the last ones first. -/
def schedule_alap_insts (tsGates : ℕ → List (GateCall Operand)) (ct hct : ℕ) (H : FuncQbits) :
    Except Failure FuncQbits := do
  assert asserts (hct != 0)
  (List.range' 1 hct).reverse.foldlM (fun H i ↦ do
    let gates ← find_ts tsGates i
    gates.foldlM (schedule_alap_inst asserts ct) H) H

/-! ## A function -/

def State.critPath (s : State) : ℕ := max s.funcQbits.latest s.highestDelay

/-- The state before the first call. -/
def Func.start (F : Func) : State := ⟨F.funcQbits, fun _ ↦ [], true, true, 0⟩

/-- The calls of the body, one after the other. -/
def calc_critical_times (tables : Tables) (s : State) (body : List Inst) : Except Failure State :=
  body.foldlM (calc_critical_time asserts tables) s

/-- The times at which a leaf function needs its operands. -/
def process_leafALAP (s : State) : Except Failure FuncQbits :=
  let ct := s.critPath
  if ct > 3 then do
    let H ← gen_half_funcQbits asserts s.funcQbits s.tsGates ct (ct / 2)
    schedule_alap_insts asserts s.tsGates ct (ct / 2) H
  else .ok (s.funcQbits.reset 1)

/-- The maps of the parameters, by position. -/
def saveTable (F : Func) (T : FuncQbits) (i : ℕ) : Option (ArrayClock ℕ) :=
  (F.args[i]?).bind fun a ↦ if a.2 = some .qbit then some (T.clock a.1) else none

/-- A function is looked at, and its critical path is reported. -/
def CountCriticalFunctionResources (tables : Tables) (F : Func) : Except Failure Callee := do
  let s ← calc_critical_times asserts tables F.start F.body
  let H ← if s.isLeaf then process_leafALAP asserts s else .ok (s.funcQbits.reset 1)
  return ⟨s.critPath, saveTable F s.funcQbits, saveTable F H⟩

/-! ## Entries -/

/-- An index has an entry. -/
def HasElem (T : FuncQbits) (n : Ident) (i : ℕ) : Prop := ((T.clock n).elem i).isSome

/-- An operand has an entry: the key `-1` always has one. -/
def HasEntry (T : FuncQbits) (q : Operand) : Prop :=
  q.name ∈ T.names ∧ ∀ i, q.index = some i → HasElem T q.name i

section Entry

variable {T : FuncQbits} {q : Operand} {a : Access Ident ℕ} {as : List (Access Ident ℕ)}
  {c : ArrayClock ℕ} {n name : Ident} {i t : ℕ}

theorem clock_set_map_self : (set_map T name c).clock name = c := Function.update_self ..

theorem clock_set_map_of_ne (h : n ≠ name) : (set_map T name c).clock n = T.clock n :=
  Function.update_of_ne h ..

theorem hasElem_set_map_self : HasElem (set_map T name c) name i ↔ (c.elem i).isSome := by
  rw [HasElem, clock_set_map_self]

theorem hasElem_set_map_of_ne (h : n ≠ name) : HasElem (set_map T name c) n i ↔ HasElem T n i := by
  rw [HasElem, clock_set_map_of_ne h, HasElem]

@[simp] theorem hasElem_reset : HasElem (T.reset t) n i ↔ HasElem T n i := by
  show ((((T.clock n).elem i).map fun _ ↦ t).isSome : Prop) ↔ _
  rw [Option.isSome_map, HasElem]

theorem isSome_update {f : ℕ → Option ℕ} {j : ℕ} :
    (Function.update f j (some t) i).isSome ↔ (f i).isSome ∨ j = i := by
  by_cases hij : i = j
  · subst hij
    simp
  · rw [Function.update_of_ne hij]
    simp [Ne.symm hij]

theorem elem_set_top : (set_top c t).elem = c.elem := rfl

theorem elem_set_entry : (set_entry c t (some i)).elem = Function.update c.elem i (some t) := rfl

theorem isSome_set_entry {j : Option ℕ} :
    ((set_entry c t j).elem i).isSome ↔ (c.elem i).isSome ∨ j = some i := by
  cases j with
  | none => simp [set_entry]
  | some j =>
    rw [Option.some.injEq]
    exact isSome_update

theorem hasElem_touch : HasElem (T.touch a) n i ↔ HasElem T n i ∨ a = (n, some i) := by
  obtain ⟨m, j⟩ := a
  by_cases hn : n = m
  · subst hn
    rw [HasElem, Clocks.clock_touch_self (a := (n, j))]
    cases j with
    | none => simp [HasElem, ArrayClock.touch]
    | some j =>
      rw [ArrayClock.elem_touch, isSome_update]
      simp [HasElem]
  · rw [HasElem, Clocks.clock_touch_of_ne (a := (m, j)) hn, HasElem]
    simp [Ne.symm hn]

theorem hasElem_record : HasElem (T.record t a) n i ↔ HasElem T n i ∨ a = (n, some i) := by
  obtain ⟨m, j⟩ := a
  by_cases hn : n = m
  · subst hn
    rw [HasElem, Clocks.clock_record_self (a := (n, j))]
    cases j with
    | none =>
      rw [ArrayClock.record, ArrayClock.elem_reset, Option.isSome_map]
      simp [HasElem]
    | some j =>
      rw [ArrayClock.elem_record, isSome_update]
      simp [HasElem]
  · rw [HasElem, Clocks.clock_record_of_ne (a := (m, j)) hn, HasElem]
    simp [Ne.symm hn]

theorem hasElem_foldl_touch :
    HasElem (as.foldl Clocks.touch T) n i ↔ HasElem T n i ∨ (n, some i) ∈ as := by
  induction as generalizing T with
  | nil => simp
  | cons a as ih => rw [List.foldl_cons, ih, hasElem_touch, List.mem_cons, or_assoc, eq_comm]

theorem hasElem_foldl_record :
    HasElem (as.foldl (Clocks.record t) T) n i ↔ HasElem T n i ∨ (n, some i) ∈ as := by
  induction as generalizing T with
  | nil => simp
  | cons a as ih => rw [List.foldl_cons, ih, hasElem_record, List.mem_cons, or_assoc, eq_comm]

theorem hasElem_use : HasElem (T.use t as) n i ↔ HasElem T n i ∨ (n, some i) ∈ as := by
  rw [Clocks.use, hasElem_foldl_record, hasElem_foldl_touch, or_assoc, or_self]

theorem HasEntry.set_map (h : HasEntry T q)
    (hc : ∀ i, HasElem T name i → (c.elem i).isSome) : HasEntry (set_map T name c) q := by
  refine ⟨h.1, fun i hi ↦ ?_⟩
  by_cases hname : q.name = name
  · rw [hname, hasElem_set_map_self]
    exact hc i (hname ▸ h.2 i hi)
  · rw [hasElem_set_map_of_ne hname]
    exact h.2 i hi

theorem HasEntry.reset (h : HasEntry T q) : HasEntry (T.reset t) q :=
  ⟨h.1, fun i hi ↦ hasElem_reset.mpr (h.2 i hi)⟩

theorem HasEntry.use (h : HasEntry T q) : HasEntry (T.use t as) q :=
  ⟨by rw [Clocks.names_use]; exact h.1, fun i hi ↦ hasElem_use.mpr (.inl (h.2 i hi))⟩

theorem hasEntry_use_self (h : q.name ∈ T.names) (hq : q.access ∈ as) :
    HasEntry (T.use t as) q := by
  refine ⟨by rw [Clocks.names_use]; exact h, fun i hi ↦ hasElem_use.mpr (.inr ?_)⟩
  rwa [GenSimd.Operand.access, hi] at hq

theorem HasEntry.exists_entry (h : HasEntry T q) :
    ∃ t, entry (T.clock q.name) q.index = some t := by
  cases hi : q.index with
  | none => exact ⟨_, rfl⟩
  | some i => exact Option.isSome_iff_exists.mp (h.2 i hi)

end Entry

/-! ## What a step does -/

/-- The qubits a gate uses. -/
def uses (g : GateCall Operand) : List (Access Ident ℕ) :=
  (Inst.gate g).args.map GenSimd.Operand.access

section Step

variable {asserts : Bool} {tables : Tables} {T : FuncQbits} {s : State} {g : GateCall Operand}
  {q : Operand} {qs : List Operand}

theorem find_map_eq {name : Ident} (h : name ∈ T.names) : find_map T name = some (T.clock name) :=
  if_pos (List.contains_iff_mem.mpr h)

theorem compute_max_eq (h : ∀ q ∈ qs, q.name ∈ T.names) (m : ℕ) :
    compute_max_ts_of_all_args asserts T m qs =
      .ok ((qs.map GenSimd.Operand.access).foldl Clocks.touch T,
      (qs.map GenSimd.Operand.access).foldl (fun m a ↦ max m (T.lastUse a)) m) := by
  induction qs generalizing T m with
  | nil => rfl
  | cons q qs ih =>
    obtain ⟨hq, hqs⟩ := List.forall_mem_cons.mp h
    have hrest := ih (T := T.touch q.access) hqs (max m (T.lastUse q.access))
    simp only [Clocks.lastUse_touch] at hrest
    rw [compute_max_ts_of_all_args, find_map_eq hq, List.map_cons, List.foldl_cons, List.foldl_cons]
    exact hrest

theorem update_timesteps_eq {t : ℕ} :
    update_timesteps ((qs.map GenSimd.Operand.access).foldl Clocks.touch T) t qs =
      T.use t (qs.map GenSimd.Operand.access) := by
  simp only [Clocks.use, update_timesteps, List.foldl_map]

/-- A gate gets the first time after the last uses of its qubits. -/
theorem schedule_gate_eq (h : ∀ q ∈ (Inst.gate g).args, q.name ∈ s.funcQbits.names) :
    schedule_gate asserts s g (Inst.gate g).args =
      .ok { s.addToTSGates g (s.funcQbits.lastUses (uses g) + 1) with
        funcQbits := asap uses s.funcQbits g } := by
  rw [schedule_gate, compute_max_eq h]
  show Except.ok _ = Except.ok _
  rw [update_timesteps_eq]
  rfl

/-- The times after the first measurement. -/
def measured (T : FuncQbits) (q : Operand) : FuncQbits :=
  set_map (T.reset T.latest) q.name
    (set_top (set_entry ((T.reset T.latest).clock q.name) (T.latest + 1) q.index) (T.latest + 1))

theorem hasEntry_measured {q' : Operand} (h : HasEntry T q') : HasEntry (measured T q) q' :=
  h.reset.set_map fun _ hi ↦ isSome_set_entry.mpr (.inl hi)

theorem first_measurement_eq (hname : q.name ∈ s.funcQbits.names) :
    (HasEntry s.funcQbits q → first_measurement s g q =
      .ok { s.addToTSGates g (s.funcQbits.latest + 1) with
        funcQbits := measured s.funcQbits q, isFirstMeas := false }) ∧
      (¬ HasEntry s.funcQbits q → first_measurement s g q = .error .missingEntry) := by
  have hfind := find_map_eq (T := s.funcQbits.reset s.funcQbits.latest) hname
  constructor
  · intro h
    obtain ⟨t, ht⟩ := (h.reset (t := s.funcQbits.latest)).exists_entry
    simp only [first_measurement, hfind, unchecked]
    show (unchecked (entry _ q.index) >>= _) = _
    rw [ht]
    rfl
  · intro h
    have hnone : entry ((s.funcQbits.reset s.funcQbits.latest).clock q.name) q.index = none := by
      by_contra hne
      obtain ⟨t, ht⟩ := Option.ne_none_iff_exists'.mp hne
      refine h ⟨hname, fun i hi ↦ ?_⟩
      rw [hi] at ht
      exact hasElem_reset.mp (Option.isSome_iff_exists.mpr ⟨t, ht⟩)
    simp only [first_measurement, hfind, unchecked]
    show (unchecked (entry _ q.index) >>= _) = _
    rw [hnone]
    rfl

theorem calc_critical_time_gate (h : (Inst.gate g).args = q :: qs) :
    calc_critical_time asserts tables s (.gate g) =
      if s.isFirstMeas && isMeas g then first_measurement s g q
      else schedule_gate asserts s g (Inst.gate g).args := by
  rw [calc_critical_time, h]

end Step

end ScaffCC.CriticalPath
