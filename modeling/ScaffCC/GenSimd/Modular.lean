import ScaffCC.CriticalPath.Lookup
import ScaffCC.GenSimd.TDepth

/-!
# Modular scheduling

The pass `GenSIMDScheduleCG` schedules one function after the other, callees before callers. A leaf
function is scheduled gate by gate. In any other function the calls are scheduled as they are, each
with what was saved for the called function: regions, timesteps, moves, timesteps with moves, and
timesteps with `T` gates. A schedule that another program found is read from a file.

What is known of the schedule of a function is kept in two members of the pass, one for the batches
of calls that are full and one for the current one. They are set back before each function, the
moves and the timesteps with moves excepted.
-/

open Scheduling Fallible

namespace ScaffCC.GenSimd.Cg

open CriticalPath (Inst Func FuncQbits compute_max_ts_of_all_args update_timesteps find_map set_map
  set_entry set_top entry asserted assert unchecked)

/-- How the pass can fail. -/
abbrev Failure := CriticalPath.Failure

/-! ## What is kept -/

/-- A sum of 64-bit numbers. -/
def add64 (a b : ℕ) : ℕ := (a + b) % 2 ^ 64

/-- What is known of a schedule. -/
structure ModularInfo where
  width : ℕ
  length : ℕ
  moves : ℕ
  mts : ℕ
  tgates : ℕ
  tgates_ub : ℕ
  tgates_par : ℕ
  tgates_par_ub : ℕ
  deriving DecidableEq, Repr

/-- Nothing at all. -/
def ModularInfo.zero : ModularInfo := ⟨0, 0, 0, 0, 0, 0, 0, 0⟩

/-- The batches of calls that are full, and the current one. -/
structure Sched where
  totalSched : ModularInfo
  currSched : ModularInfo
  deriving DecidableEq, Repr

/-- Before the first function. -/
def Sched.zero : Sched := ⟨.zero, .zero⟩

/-- The fields that are set back before a function. -/
def ModularInfo.reset (m : ModularInfo) : ModularInfo :=
  { m with width := 0, length := 0, tgates := 0, tgates_ub := 0, tgates_par := 0,
           tgates_par_ub := 0 }

def init_critical_path_algo (b : Sched) : Sched := ⟨b.totalSched.reset, b.currSched.reset⟩

def blackbox_info (b : Sched) : ModularInfo where
  width := max b.totalSched.width b.currSched.width
  length := add64 b.totalSched.length b.currSched.length
  moves := add64 b.totalSched.moves b.currSched.moves
  mts := add64 b.totalSched.mts b.currSched.mts
  tgates := add64 b.totalSched.tgates b.currSched.tgates
  tgates_ub := add64 b.totalSched.tgates_ub b.currSched.tgates_ub
  tgates_par := max b.totalSched.tgates_par b.currSched.tgates_par
  tgates_par_ub := max b.totalSched.tgates_par_ub b.currSched.tgates_par_ub

/-- The options of the pass. The weight of a move is an `unsigned`. -/
structure Options extends Constraints where
  MOVE_WEIGHT : ℕ

/-! ## Batches of calls -/

/-- A gate takes one region. It needs two moves, or four if it is a `CNOT`. -/
def intrinsicInfo (C : Options) (g : GateCall CriticalPath.Operand) : ModularInfo :=
  let moves := match g with
    | .CNOT _ _ => 4
    | _ => 2
  if runsT g then ⟨1, 5, moves, 1, 1, 1, 1, 1⟩
  else ⟨1, (1 + C.MOVE_WEIGHT) % 2 ^ 32, moves, 1, 0, 0, 0, 0⟩

/-- What is known of what is called, if the function was scheduled before. -/
def moduleInfo (C : Options) (funcInfo : Ident → Option ModularInfo) : Inst → Option ModularInfo
  | .gate g => some (intrinsicInfo C g)
  | .call qFunc _ => funcInfo qFunc

/-- The current batch is full, and a call starts the next one. -/
def Sched.serialize (m : ModularInfo) (b : Sched) : Sched where
  totalSched :=
    { width := max b.totalSched.width b.currSched.width
      length := add64 b.totalSched.length b.currSched.length
      moves := add64 b.totalSched.moves b.currSched.moves
      mts := add64 b.totalSched.mts b.currSched.mts
      tgates := add64 b.totalSched.tgates b.currSched.tgates
      tgates_ub := add64 b.totalSched.tgates_ub b.currSched.tgates_ub
      tgates_par := max b.totalSched.tgates_par b.currSched.tgates_par
      tgates_par_ub := max b.totalSched.tgates_par_ub b.currSched.tgates_par_ub }
  currSched := m

/-- A call joins the current batch at a timestep. -/
def Sched.parallelize (m : ModularInfo) (first_step : ℕ) (b : Sched) : Sched :=
  let width := add64 b.currSched.width m.width
  let length := max (add64 (first_step - b.totalSched.length) m.length) b.currSched.length
  { totalSched := b.totalSched
    currSched :=
      { width := width
        length := length
        moves := add64 b.currSched.moves m.moves
        mts := max m.mts b.currSched.mts
        tgates := max m.tgates b.currSched.tgates
        tgates_ub := min (add64 m.tgates_ub b.currSched.tgates_ub) length
        tgates_par := max m.tgates_par b.currSched.tgates_par
        tgates_par_ub := min (add64 m.tgates_par_ub b.currSched.tgates_par_ub) width } }

/-- A call gets its timestep, from `ts` on. The result is the last timestep in use. -/
def get_ts_to_schedule (K ts : ℕ) (m : ModularInfo) (b : Sched) : ℕ × Sched :=
  let total := b.totalSched.length
  let b :=
    if ts < add64 total b.currSched.length ∧ add64 m.width b.currSched.width ≤ K then
      b.parallelize m (max ts total)
    else b.serialize m
  (add64 (add64 b.totalSched.length b.currSched.length) (2 ^ 64 - 1), b)

/-! ## Gates of a leaf function -/

/-- The size of the tables of a timestep. -/
def MAX_RES_CONSTRAINT : ℕ := 128

/-- What is known of the schedule when a gate of type `t` is put into the table at the place `x`. -/
def ModularInfo.put (d : ℕ) (t : GateType) (steps : List ArrParGates) (x : ℕ × ℕ)
    (m : ModularInfo) : ModularInfo :=
  let n := TGates.put d t ⟨steps, m.width, m.length⟩ x
    ⟨m.tgates, m.tgates_ub, m.tgates_par, m.tgates_par_ub⟩
  { m with tgates := n.tgates, tgates_ub := n.tgates_ub, tgates_par := n.tgates_par,
           tgates_par_ub := n.tgates_par_ub }

/-- A gate gets its timestep, from `ts` on. Only as many regions are looked at as there are. -/
def get_ts_to_schedule_leaf (asserts : Bool) (C : Options) (ts : ℕ) (name : Ident)
    (steps : List ArrParGates) (b : Sched) : Except Failure (ℕ × List ArrParGates × Sched) := do
  let t ← asserted asserts (funcIndex name)
  let d := C.DATA_CONSTRAINT
  match search d t ts (steps.map fun step ↦ step.take C.RES_CONSTRAINT) with
  | some (i, j) =>
    let m := b.currSched.put d t steps (i, j)
    let free := (Table.mk steps m.width m.length).typeAt (i, j) = none
    let width := if free ∧ m.width ≤ j then j + 1 else m.width
    return (i, steps.modify i fun step ↦ step.modify j (Region.put d t),
      { b with currSched := { m with width } })
  | none =>
    -- the entries of a new timestep are written without a check
    let _ ← unchecked (if C.RES_CONSTRAINT ≤ MAX_RES_CONSTRAINT then some () else none)
    let m := b.currSched.put d t steps (steps.length, 0)
    let width := if m.width = 0 then 1 else m.width
    return (steps.length, steps ++ [newStep C.RES_CONSTRAINT t],
      { b with currSched := { m with width, length := m.length + 1 } })

/-! ## A function -/

/-- The state while the calls of a function are placed. -/
structure State where
  funcQbits : FuncQbits
  isFirstMeas : Bool
  currArrParGates : List ArrParGates
  sched : Sched

/-- Only gates are called. -/
def hasPrimitivesOnly (F : Func) : Bool := F.body.all fun x ↦
  match x with
  | .gate _ => true
  | .call _ _ => x.args.isEmpty

variable (asserts : Bool) (C : Options) (funcInfo : Ident → Option ModularInfo)

/-- The search for the timestep of a call. -/
def place (leaf : Bool) (ts : ℕ) (x : Inst) (s : State) : Except Failure (ℕ × State) :=
  match leaf, x with
  | true, .gate g => do
    let (ts, steps, b) ← get_ts_to_schedule_leaf asserts C ts (fname g) s.currArrParGates s.sched
    return (ts, { s with currArrParGates := steps, sched := b })
  | true, .call _ _ => .error .assertion
  | false, x => do
    let m ← asserted asserts (moduleInfo C funcInfo x)
    let (ts, b) := get_ts_to_schedule C.RES_CONSTRAINT ts m s.sched
    return (ts, { s with sched := b })

/-- The first measurement comes after everything before it. -/
def first_measurement (leaf : Bool) (s : State) (x : Inst) (q : CriticalPath.Operand) :
    Except Failure State := do
  let (max_ts_sched, s) ← place asserts C funcInfo leaf s.funcQbits.latest x s
  let T := s.funcQbits.reset max_ts_sched
  let c ← asserted asserts (find_map T q.name)
  assert asserts q.index.isSome
  let _ ← unchecked (entry c q.index)
  let c := set_top (set_entry c (add64 max_ts_sched 1) q.index) (add64 max_ts_sched 1)
  return { s with funcQbits := set_map T q.name c, isFirstMeas := false }

/-- A call is placed. -/
def calc_critical_time (leaf : Bool) (s : State) (x : Inst) : Except Failure State :=
  match x.args with
  | [] => .ok s
  | q :: qs =>
    if s.isFirstMeas && x.isMeasurement then first_measurement asserts C funcInfo leaf s x q
    else do
      let (T, m) ← compute_max_ts_of_all_args asserts s.funcQbits 0 (q :: qs)
      let (ts_sched, s) ← place asserts C funcInfo leaf m x { s with funcQbits := T }
      return { s with funcQbits := update_timesteps s.funcQbits (add64 ts_sched 1) (q :: qs) }

/-- The priorities of the calls from a position on, the last call first. -/
def priorityVector (T : FuncQbits) : ℕ → List Inst → Except Failure (FuncQbits × List InstPri)
  | _, [] => .ok (T, [])
  | k, x :: xs => do
    let (T, insts) ← priorityVector T (k + 1) xs
    if x.args = [] then return (T, insts)
    else do
      let (T, m) ← compute_max_ts_of_all_args asserts T 0 x.args
      return (update_timesteps T (m + 1) x.args, insts ++ [(k, m + 1)])

/-- The calls are placed in the order of falling priorities. -/
def schedule (S : PrioritySort) (F : Func) (b : Sched) : Except Failure State := do
  let (T, insts) ← priorityVector asserts F.funcQbits 0 F.body
  (S.sort insts).reverse.foldlM (fun s inst ↦ do
    let x ← asserted asserts F.body[inst.1]?
    calc_critical_time asserts C funcInfo (hasPrimitivesOnly F) s x) ⟨T.reset 0, true, [], b⟩

/-! ## The pass -/

/-- What the pass keeps from one function to the next. -/
structure PassState where
  funcInfo : Ident → Option ModularInfo
  sched : Sched

/-- Before the first function. -/
def PassState.start : PassState := ⟨fun _ ↦ none, .zero⟩

variable (S : PrioritySort) (fileContents : Ident → Option ModularInfo)

/-- A function is scheduled, unless its schedule is in the file. -/
def CountCriticalFunctionResources (s : PassState) (F : Ident × Func) : Except Failure PassState :=
  let b := init_critical_path_algo s.sched
  match fileContents F.1 with
  | some m => do
    let _ ← priorityVector asserts F.2.funcQbits 0 F.2.body
    return ⟨Function.update s.funcInfo F.1 (some m), b⟩
  | none => do
    let r ← schedule asserts C s.funcInfo S F.2 b
    return ⟨Function.update s.funcInfo F.1 (some (blackbox_info r.sched)), r.sched⟩

/-- One function after the other. -/
def runOnModule (Fs : List (Ident × Func)) : Except Failure PassState :=
  Fs.foldlM (CountCriticalFunctionResources asserts C S fileContents) .start

end ScaffCC.GenSimd.Cg
