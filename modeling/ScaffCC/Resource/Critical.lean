import Mathlib.Data.Fin.VecNotation
import ScaffCC.Fallible.Fold
import ScaffCC.IR.Gate
import ScaffCC.Scheduling.Profile

/-!
# Critical timesteps of functions

The pass `CriticalResourceCount` gives each function a profile, callees first: how many gates of
each kind run in each timestep. The calls of a function are gathered as long as they have no operand
in common. Then their profiles are added up, timestep by timestep, and the sum is appended to the
profile of the function. The number of timesteps and the greatest number of each kind that runs at
once are kept beside the profile. Nothing is appended for `main`.

All counters are 64-bit words. Two sizes are kept in 32 bits. A call counts only if it passes a
qubit or a classical bit.
-/

open Scheduling Fallible

namespace ScaffCC.CriticalResourceCount

/-! ## What is kept -/

/-- The number of kinds of gates. -/
abbrev NUM_QGATES : ℕ := 19

/-- The most arguments of a call there is room for. -/
def MAX_GATE_ARGS : ℕ := 15

def _X : Fin NUM_QGATES := 4

/-- The last kind stands for all gates. -/
def _All : Fin NUM_QGATES := 18

/-- The kinds of gates, by number. -/
def gate_name : Fin NUM_QGATES → Ident :=
  !["CNOT".toList, "H".toList, "S".toList, "T".toList, "X".toList, "Y".toList, "Z".toList,
    "MeasX".toList, "MeasZ".toList, "PrepX".toList, "PrepZ".toList, "Tdag".toList, "Sdag".toList,
    "Rx".toList, "Ry".toList, "Rz".toList, "Toffoli".toList, "Fredkin".toList, "All".toList]

/-- The gates of a timestep. -/
abbrev TSParGateInfo := Fin NUM_QGATES → UInt64

/-- The profile of a function. -/
structure TSInfo where
  timesteps : UInt64
  gates : List TSParGateInfo

/-- The greatest numbers of a profile. -/
structure MaxTSInfo where
  timesteps : UInt64
  parallel_gates : TSParGateInfo

/-- An argument of a call: an array, and an index in it. The index is -1 for the whole array. -/
structure QArgInfo where
  name : Ident
  index : ℤ
  deriving DecidableEq, Repr

/-- A call. It has an operand for each qubit and classical bit passed, which is none if it could
not be traced to an array. -/
structure Call where
  qFunc : Ident
  operands : List (Option QArgInfo)
  deriving DecidableEq, Repr

structure Func where
  name : Ident
  body : List Call
  deriving DecidableEq, Repr

/-- The members of the pass. -/
structure State where
  currTimeStep : List QArgInfo
  currParallelFunc : List Ident
  maxParallelFactor : MaxTSInfo
  funcParallelFactor : Ident → Option TSInfo
  funcMaxParallelFactor : Ident → Option MaxTSInfo

/-- What a run of the pass can end in besides a result. -/
inductive Failure
  /-- The iterator past the end of a map is read. -/
  | missingEntry
  /-- The first of no functions is read. -/
  | emptyFront
  /-- An argument is written past the end of the array. -/
  | tooManyArgs
  deriving DecidableEq, Repr

/-- The entry of a map, which is read without a check. -/
def find {α : Type} (m : Ident → Option α) (n : Ident) : Except Failure α :=
  match m n with
  | some a => .ok a
  | none => .error .missingEntry

/-! ## The steps of a function -/

/-- The name of the root, for which nothing is saved. -/
def main : Ident := "main".toList

def init_critical_path_algo (F : Ident) (s : State) : State where
  currTimeStep := []
  currParallelFunc := []
  maxParallelFactor := ⟨0, fun _ ↦ 0⟩
  funcParallelFactor := Function.update s.funcParallelFactor F (some ⟨0, []⟩)
  funcMaxParallelFactor := Function.update s.funcMaxParallelFactor F (some ⟨0, fun _ ↦ 0⟩)

def reset_current_ts_info (s : State) : State :=
  { s with currTimeStep := [], currParallelFunc := [] }

/-- The profile of one more function added to a sum. Both sizes are of the type `unsigned int`. -/
def TSInfo.add (sum_info t : TSInfo) : TSInfo :=
  let vsize := sum_info.gates.length % 2 ^ 32
  let fnsize := t.gates.length % 2 ^ 32
  { timesteps := if t.timesteps > sum_info.timesteps then t.timesteps else sum_info.timesteps
    gates :=
      if vsize < fnsize then
        Profile.merge sum_info.gates (t.gates.take vsize) ++ (t.gates.take fnsize).drop vsize
      else Profile.merge sum_info.gates (t.gates.take fnsize) }

/-- The sum of the profiles of functions. -/
def sumInfo (m : Ident → Option TSInfo) (fs : List Ident) : Except Failure TSInfo :=
  fs.foldlM (fun sum_info n ↦ do return sum_info.add (← find m n)) ⟨0, []⟩

/-- The greater number of each kind. -/
def raise (m e : TSParGateInfo) : TSParGateInfo := fun i ↦ if e i > m i then e i else m i

/-- Timesteps are appended to the profile of a function. -/
def State.append (F : Ident) (gates : List TSParGateInfo) (s : State) : Except Failure State :=
  if F = main then return s
  else do
    let t ← find s.funcParallelFactor F
    return { s with
      funcParallelFactor :=
        Function.update s.funcParallelFactor F (some { t with gates := t.gates ++ gates }) }

/-- The functions of the current step are added up, and the sum is appended. -/
def update_max_critical_info (F : Ident) (s : State) : Except Failure State :=
  match s.currParallelFunc with
  | [] => .error .emptyFront
  -- one function in front: its own factors are taken
  | [fStr] => do
    let t ← find s.funcParallelFactor fStr
    let s ← s.append F t.gates
    let m ← find s.funcMaxParallelFactor fStr
    return { s with
      maxParallelFactor :=
        ⟨s.maxParallelFactor.timesteps + t.timesteps,
          raise s.maxParallelFactor.parallel_gates m.parallel_gates⟩ }
  -- several in front run side by side, so their gates are added up
  | fs => do
    let sum_info ← sumInfo s.funcParallelFactor fs
    let s ← s.append F sum_info.gates
    return { s with
      maxParallelFactor :=
        ⟨s.maxParallelFactor.timesteps + sum_info.timesteps,
          sum_info.gates.foldl raise s.maxParallelFactor.parallel_gates⟩ }

/-- The same array, and an index is the same, or one of the two is the whole array. -/
def QArgInfo.meets (a b : QArgInfo) : Bool :=
  a.name == b.name && (a.index == -1 || b.index == -1 || a.index == b.index)

/-- The arguments that could be traced. -/
def Call.args (c : Call) : List QArgInfo := c.operands.filterMap id

/-- A call is put into the current step, or into the next one if it depends on the current one. -/
def calc_critical_time (F : Ident) (s : State) (qg : Call) : Except Failure State := do
  let is_dependency := s.currTimeStep.any fun a ↦ qg.args.any a.meets
  let s ← if is_dependency then
      (do return reset_current_ts_info (← update_max_critical_info F s)) else .ok s
  let _ ← find s.funcParallelFactor qg.qFunc
  return { s with currTimeStep := s.currTimeStep ++ qg.args,
                  currParallelFunc := s.currParallelFunc ++ [qg.qFunc] }

/-- A call that counts passes a qubit or a classical bit. The call that stores a classical bit does
not count. -/
def Call.counts (c : Call) : Bool := c.qFunc != "store_cbit".toList && !c.operands.isEmpty

def analyzeCallInst (F : Ident) (s : State) (c : Call) : Except Failure State :=
  if c.counts then
    if MAX_GATE_ARGS < c.args.length then .error .tooManyArgs
    else calc_critical_time F s c
  else .ok s

/-! ## The pass -/

def copy_max_parallel_factor (F : Ident) (s : State) : Except Failure State := do
  let _ ← find s.funcMaxParallelFactor F
  return { s with
    funcMaxParallelFactor :=
      Function.update s.funcMaxParallelFactor F (some s.maxParallelFactor) }

/-- The number of timesteps of a function is stored. -/
def State.setTimesteps (F : Ident) (s : State) : Except Failure State := do
  let t ← find s.funcParallelFactor F
  return { s with
    funcParallelFactor := Function.update s.funcParallelFactor F
      (some { t with timesteps := s.maxParallelFactor.timesteps }) }

def CountCriticalFunctionResources (s : State) (F : Func) : Except Failure State := do
  let s ← F.body.foldlM (analyzeCallInst F.name) (init_critical_path_algo F.name s)
  let s ← update_max_critical_info F.name s
  let s ← copy_max_parallel_factor F.name s
  let s ← s.setTimesteps F.name
  return reset_current_ts_info s

/-- The name of the intrinsic of a kind of gate. -/
def intrinsic (i : Fin NUM_QGATES) : Ident := "llvm.".toList ++ gate_name i

def gateInfo (i : Fin NUM_QGATES) : TSParGateInfo := fun k ↦ if k = i ∨ k = _All then 1 else 0

/-- Each kind of gate gets the profile of a function with one timestep. -/
def init_gates_as_functions (s : State) : State :=
  (List.finRange NUM_QGATES).foldl (fun s i ↦
    { s with
      funcParallelFactor :=
        Function.update s.funcParallelFactor (intrinsic i) (some ⟨1, [gateInfo i]⟩)
      funcMaxParallelFactor :=
        Function.update s.funcMaxParallelFactor (intrinsic i) (some ⟨1, gateInfo i⟩) }) s

/-- Before anything is known. -/
def State.start : State := ⟨[], [], ⟨0, fun _ ↦ 0⟩, fun _ ↦ none, fun _ ↦ none⟩

/-- The functions that are reached from `main` in the order in which they are visited. -/
def runOnModule (order : List Func) : Except Failure State :=
  order.foldlM CountCriticalFunctionResources (init_gates_as_functions .start)

/-! ## Modules -/

/-- The functions of a module without recursion that are reached from `main`, in an order in which
callees come before callers. What is called with a qubit is a gate or one of the functions, and each
function has such a call. -/
structure Program where
  order : List Func
  nodup : (order.map Func.name).Nodup
  not_gate : ∀ F ∈ order, ∀ i, F.name ≠ intrinsic i
  callees : ∀ A F B, order = A ++ F :: B → ∀ c ∈ F.body,
    c.qFunc ∈ order.map Func.name → c.qFunc ∈ A.map Func.name
  root_last : ∀ A F B, order = A ++ F :: B → F.name = main → B = []
  closed : ∀ F ∈ order, ∀ c ∈ F.body, c.counts = true →
    c.qFunc ∈ order.map Func.name ∨ ∃ i, c.qFunc = intrinsic i
  quantum : ∀ F ∈ order, ∃ c ∈ F.body, c.counts = true

/-- The gates of a body in which each call of a function is replaced by the gates of its body. -/
inductive Flattens (order : List Func) : List Call → List (Fin NUM_QGATES) → Prop
  | nil : Flattens order [] []
  | gate {c : Call} {cs : List Call} {i : Fin NUM_QGATES} {gs : List (Fin NUM_QGATES)} :
      c.qFunc = intrinsic i → Flattens order cs gs → Flattens order (c :: cs) (i :: gs)
  | call {c : Call} {cs : List Call} {F : Func} {ds gs : List (Fin NUM_QGATES)} :
      F ∈ order → F.name = c.qFunc → Flattens order F.body ds → Flattens order cs gs →
      Flattens order (c :: cs) (ds ++ gs)
  | other {c : Call} {cs : List Call} {gs : List (Fin NUM_QGATES)} :
      (∀ i, c.qFunc ≠ intrinsic i) → c.qFunc ∉ order.map Func.name → Flattens order cs gs →
      Flattens order (c :: cs) gs

/-- The number of gates of a kind. -/
def gateCount (gs : List (Fin NUM_QGATES)) (k : Fin NUM_QGATES) : ℕ :=
  gs.countP fun i ↦ k = i ∨ k = _All

end ScaffCC.CriticalResourceCount
