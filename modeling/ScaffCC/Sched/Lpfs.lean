import ScaffCC.Sched.FindLp
import ScaffCC.Sched.Ready

/-!
# Longest-path-first scheduling

`lpfs` first finds a longest path for each of the regions `1` to `$simd_l`. At each timestep such a
region executes the next operation of its path, if that is ready, and the regions above take ready
operations that are on no path. With `$opp_simd` a region also takes ready operations of the type
that it executes.

Whether the next operation of a path is ready is judged by whether its parents have a timestep, and
a parent that was just put into another region has one.

`none` stands for a run that does not come to its end: the loop that fills a region goes on for ever
when it has something to choose from and does not place it.
-/

open Scheduling

namespace ScaffCC.Sched

/-- The options of the script. The width of a region is positive. -/
structure LpfsParams where
  SIMD_K : ℕ
  SIMD_L : ℕ
  SIMD_D : ℕ
  refill : Bool
  opp : Bool
  order : HashOrder
  d_pos : 0 < SIMD_D

/-- The options that are set at the start of the script. -/
def LpfsParams.default : LpfsParams := ⟨4, 2, 1024, false, false, .added, by decide⟩

/-- The number of regions for paths. It is below the number of regions, if there are any. -/
def LpfsParams.simd_l (P : LpfsParams) : ℕ := if P.SIMD_K ≤ P.SIMD_L then P.SIMD_K / 2 else P.SIMD_L

def LpfsParams.pathRegions (P : LpfsParams) : List ℕ := List.range' 1 P.simd_l

def LpfsParams.freeRegions (P : LpfsParams) : List ℕ :=
  List.range' (P.simd_l + 1) (P.SIMD_K - P.simd_l)

/-- The state of `lpfs`: the schedule, what is left of the path of each region, the fields of the
operations, the hash `$ready`, the counters and the qubits, and the moves of each timestep. -/
structure LpfsState where
  sched : Schedule
  simds : ℕ → List ℕ
  paths : PathState
  pathsearch : Bool
  ready : List ℕ
  op_cnt : ℕ
  ts : ℕ
  locations : Locations
  moves : List (List Mov)

variable (ops : List Op) (P : LpfsParams)

/-! ## One region -/

namespace LpfsState

/-- A path for the region. There is no search for paths any more when none was found. -/
def search (top : List ℕ) (simd : ℕ) (s : LpfsState) : LpfsState :=
  let (path, paths) := find_lp ops top s.paths
  { s with simds := Function.update s.simds simd path, paths, pathsearch := path ≠ [] }

/-- `sched_op`, which marks the operation as followed. -/
def sched_op (op : Option ℕ) (simd : ℕ) (s : LpfsState) : Option LpfsState :=
  (Sched.sched_op ops s.sched op s.ts simd).map fun sched ↦
    { s with
      sched
      paths := { s.paths with followed := fun j ↦ s.paths.followed j || some j = op } }

/-- The operations taken out of the hash are placed and counted. -/
def takeAll (is : List ℕ) (simd : ℕ) (s : LpfsState) : LpfsState :=
  let s := { s with ready := s.ready.filter (· ∉ is) }
  is.foldl (fun s i ↦
    let s := (s.sched_op ops (some i) simd).getD s
    { s with op_cnt := s.op_cnt + 1 }) s

end LpfsState

/-- Ready operations of the type, as many as a region is wide. -/
def lpfs_extract_optype (optype : OpType) (simd : ℕ) (s : LpfsState) : List ℕ :=
  ((P.order.keys s.ts simd s.ready).filter fun i ↦ (opAt ops i).op = optype).take P.SIMD_D

/-- A region for a path. With `$refill` a search is made that is given no operations to start from,
as `ref values $ready` is no list. -/
def pathRegion (s : LpfsState) (simd : ℕ) : LpfsState :=
  let s := if s.pathsearch ∧ P.refill ∧ s.simds simd = [] then s.search ops [] simd else s
  match s.simds simd with
  | [] => s
  | i :: rest =>
    match s.sched_op ops (some i) simd with
    | none => s
    | some s =>
      let s := { s with simds := Function.update s.simds simd rest, op_cnt := s.op_cnt + 1 }
      if P.opp then
        s.takeAll ops (lpfs_extract_optype ops P (opAt ops i).op simd s) simd
      else s

def freeRegion (s : LpfsState) (simd : ℕ) : Option LpfsState :=
  match s.ready.min? with
  | none => some s
  | some i =>
    let is := if P.opp then lpfs_extract_optype ops P (opAt ops i).op simd s else [i]
    if is = [] ∨ (¬ P.opp ∧ ¬ op_ready ops s.sched i) then none
    else some (s.takeAll ops is simd)

/-! ## The run -/

/-- The ready children of the operations of the timestep are added, unless they are followed. -/
def lpfs_update_ready (s : LpfsState) : List ℕ :=
  ((((regionsAt s.sched s.ts).filter (· ≠ 0)).flatMap fun simd ↦
    (s.sched.opsAt (s.ts, simd)).flatMap (get_ready_children ops s.sched)).filter
      fun c ↦ ¬ s.paths.followed c) ∪ s.ready

def LpfsState.endTimestep (s : LpfsState) : LpfsState :=
  let m := update_moves P.SIMD_K (timestep ops s.sched s.ts) s.locations
  { s with
    ready := lpfs_update_ready ops s
    ts := s.ts + 1
    locations := m.2
    moves := s.moves ++ [m.1] }

def lpfsTimestep (s : LpfsState) : Option LpfsState :=
  (P.freeRegions.foldlM (freeRegion ops P) (P.pathRegions.foldl (pathRegion ops P) s)).map
    (LpfsState.endTimestep ops P)

/-- The loop of `lpfs`, for at most `n` timesteps. It is left when the timestep is greater than the
number of operations. -/
def lpfsLoop : ℕ → LpfsState → Option LpfsState
  | 0, s => some s
  | n + 1, s =>
    if s.ready ≠ [] ∨ s.op_cnt < ops.length then (lpfsTimestep ops P s).bind (lpfsLoop n)
    else some s

/-- The first search for paths. -/
def findPaths (s : LpfsState) : LpfsState :=
  P.pathRegions.foldl (fun s simd ↦ if s.pathsearch then s.search ops (top ops) simd else s) s

/-- The state before anything is done. -/
def LpfsState.init : LpfsState := ⟨.empty, fun _ ↦ [], .init, true, [], 0, 0, .init, []⟩

def lpfs_init (s : LpfsState) : LpfsState :=
  { s with
    ready := (top ops).filter fun i ↦ ¬ s.paths.followed i
    paths := { s.paths with dist := fun _ ↦ 0 } }

/-- The state the loop starts from. -/
def lpfsStart : LpfsState := lpfs_init ops (findPaths ops P .init)

def lpfs : Option LpfsState := lpfsLoop ops P (ops.length + 1) (lpfsStart ops P)

/-- **Every operation is placed once**, and in a later timestep than all its parents. -/
def LpfsRight : Prop :=
  ∃ s, lpfs ops P = some s ∧ s.sched.Complete (List.range ops.length) ∧
    Timely (Parent ops) s.sched.time

/-! ## Overtaking -/

/-- The next operation of the region is ready, and one of its parents was put into another region at
this very timestep. -/
def Overtakes (s : LpfsState) (simd : ℕ) : Prop :=
  ∃ i ∈ (s.simds simd).head?, op_ready ops s.sched i ∧
    ∃ a ∈ in_edges ops i, s.sched.time a = some s.ts

/-- No region of the list overtakes at the timestep. -/
def PathsInOrder : List ℕ → LpfsState → Prop
  | [], _ => True
  | simd :: rest, s => ¬ Overtakes ops s simd ∧ PathsInOrder rest (pathRegion ops P s simd)

/-- **No region overtakes** in the next `n` timesteps. -/
def InOrder : ℕ → LpfsState → Prop
  | 0, _ => True
  | n + 1, s => s.ready ≠ [] ∨ s.op_cnt < ops.length →
    PathsInOrder ops P P.pathRegions s ∧ ∀ s' ∈ lpfsTimestep ops P s, InOrder n s'

end ScaffCC.Sched
