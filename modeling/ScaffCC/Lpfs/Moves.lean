import Mathlib.Data.List.Dedup
import ScaffCC.Lpfs.Slots
import ScaffCC.Scheduling.Replay
import ScaffCC.Text.Numeral

/-!
# Moves of an LPFS schedule

After the operations are placed, `update_moves` goes through the timesteps and writes down the moves
that bring the qubits to the regions of their operations: those from and to local memories in one
table and the others in another one. For each timestep the moves of the second table are printed
before those of the first, so not in the order in which they were written down. A place is a number:
`0` is the memory, the numbers from `1` on are the regions, and with local memories the tenfold of a
region is its local memory. The tables are indexed by the text of a qubit, its name followed by its
index.

The loop goes on as long as region `1` has an operation at the timestep. `none` stands for a run
that reads through the end of a table: no qubit is found that could be put out of a full local
memory, or a qubit that never took part in an operation is looked at.
-/

namespace ScaffCC.Lpfs

open Scheduling Text

/-- The options of the pass that matter for the moves. -/
structure MoveOptions where
  k : ℕ
  local_mem : Bool
  local_Q : ℤ
  local_W : ℤ

/-- The text of a qubit in the tables. -/
def qubitName (q : Qubit) : List Char := q.1 ++ showInt q.2

/-- What is known about a qubit. -/
structure QArgInfo where
  qubit : Qubit
  simd : ℕ
  loc : ℕ
  nextTS : ℤ
  last_inst : Option ℕ

structure Move extends Transport Qubit ℕ where
  ts : ℕ
  deriving DecidableEq

/-- What is kept from timestep to timestep, and the moves so far. -/
structure Tracking where
  qubitMap : List Char → QArgInfo
  active_qubits : List Qubit
  localMemSizeMap : ℕ → ℤ
  move_schedule : List Move
  local_move_schedule : List Move

/-- The moves in the order in which `print_schedule` prints them. -/
def Tracking.printed (σ : Tracking) (op_count : ℕ) : List Move :=
  (List.range op_count).flatMap fun ts ↦
    σ.move_schedule.filter (·.ts = ts) ++ σ.local_move_schedule.filter (·.ts = ts)

/-- The operands of all calls. -/
def qubits (body : List Call) : List Qubit := body.flatMap Call.args

/-- The keys of `qubitMap`, in order. -/
def names (body : List Call) : List (List Char) :=
  ((qubits body).map qubitName).dedup.mergeSort fun v w ↦ ¬ w < v

/-- `qubitMap` as it is filled while the dependency graph is built: the first operand with a text
stays. -/
def initMap (body : List Call) (name : List Char) : QArgInfo :=
  ⟨((qubits body).find? fun q ↦ qubitName q = name).getD ([], 0), 0, 0, -1, none⟩

/-- Before the first timestep. -/
def Tracking.init (body : List Call) : Tracking := ⟨initMap body, [], fun _ ↦ 0, [], []⟩

/-! ## The operands of a timestep -/

/-- The operands at a timestep, each with its region and its operation. -/
def usesAt (body : List Call) (k : ℕ) (s : State) (ts : ℕ) : List (Qubit × ℕ × ℕ) :=
  (List.range' 1 k).flatMap fun simd ↦ (s.opsAt ⟨ts, simd⟩).flatMap fun i ↦
    (callAt body i).args.map fun q ↦ (q, simd, i)

/-- The list `current` and the map, after one more operand. -/
def useArg (c : List (Qubit × ℕ) × (List Char → QArgInfo)) (u : Qubit × ℕ × ℕ) :
    List (Qubit × ℕ) × (List Char → QArgInfo) :=
  let arg := c.2 (qubitName u.1)
  if arg.qubit ∈ c.1.map Prod.fst then c
  else (c.1 ++ [(arg.qubit, u.2.1)],
    Function.update c.2 (qubitName u.1) { arg with simd := u.2.1, last_inst := some u.2.2 })

def simdActive (k : ℕ) (s : State) (ts src : ℕ) : Bool :=
  1 ≤ src ∧ src ≤ k ∧ occupied s ⟨ts, src⟩

/-! ## The loops over the qubits -/

/-- The tables and lists while the moves of a timestep are found. -/
structure Moving extends Tracking where
  current : List (Qubit × ℕ)
  next : List Qubit

namespace Moving

/-- The entry of a qubit is changed. -/
def modify (m : Moving) (name : List Char) (f : QArgInfo → QArgInfo) : Moving :=
  { m with qubitMap := Function.update m.qubitMap name (f (m.qubitMap name)) }

/-- A qubit is put into the list `next`. -/
def keep (m : Moving) (name : List Char) : Moving :=
  { m with next := m.next ++ [(m.qubitMap name).qubit] }

/-- One more move, of the qubit with the text, in one of the two tables. -/
def move (m : Moving) (ts : ℕ) (isLocal : Bool) (name : List Char) (src dest : ℕ) : Moving :=
  let newMove : Move := ⟨⟨(m.qubitMap name).qubit, src, dest⟩, ts⟩
  { m.modify name fun e ↦ { e with loc := dest } with
    move_schedule := if isLocal then m.move_schedule else m.move_schedule ++ [newMove]
    local_move_schedule :=
      if isLocal then m.local_move_schedule ++ [newMove] else m.local_move_schedule }

/-- The number of qubits in a local memory changes. -/
def resize (m : Moving) (loc : ℕ) (d : ℤ) : Moving :=
  { m with localMemSizeMap :=
      Function.update m.localMemSizeMap loc (m.localMemSizeMap loc + d) }

/-- The qubit in the local memory that is needed last. -/
def victim (body : List Call) (m : Moving) (loc : ℕ) : Option QArgInfo :=
  ((names body).foldl (fun (best : ℤ × Option QArgInfo) name ↦
    let e := m.qubitMap name
    if e.loc = loc ∧ best.1 ≤ e.nextTS then (e.nextTS, some e) else best) (0, none)).2

/-- A qubit is put out of a local memory. -/
def evict (body : List Call) (ts : ℕ) (m : Moving) (loc : ℕ) : Option Moving :=
  (m.victim body loc).map fun v ↦ (m.move ts false (qubitName v.qubit) loc 0).resize loc (-1)

end Moving

/-- The fields `ts` and `simd` of an operation, `-1` before it is placed. -/
def opTS (s : State) (i : ℕ) : ℤ := ((s.slot i).map fun x ↦ (x.ts : ℤ)).getD (-1)

def opSimd (s : State) (i : ℕ) : ℤ := ((s.slot i).map fun x ↦ (x.simd : ℤ)).getD (-1)

/-- The pair `lowNextTS`, `nextOpLoc` for a qubit that was last used by operation `i`. -/
def nextUseOf (body : List Call) (s : State) (i : ℕ) (q : Qubit) : ℤ × ℤ :=
  (outEdges body i).foldl
    (fun low j ↦ if q ∈ (callAt body j).args then (opTS s j, opSimd s j) else low) (2147483647, -1)

/-- The next use of a qubit is soon and in the region of the last one, at an earlier timestep. -/
def wantsLocal (body : List Call) (s : State) (O : MoveOptions) (ts i : ℕ) (q : Qubit) : Bool :=
  (nextUseOf body s i q).1 ≤ ts + O.local_W ∧ opTS s i ≠ ts ∧
    (nextUseOf body s i q).2 = opSimd s i

namespace Moving

variable (body : List Call) (s : State) (O : MoveOptions) (ts : ℕ)

/-- The branch for a qubit that is not used in an active region, with local memories. -/
def leaveRegion (m : Moving) (name : List Char) (src : ℕ) : Option Moving :=
  let thisQbit := m.qubitMap name
  thisQbit.last_inst.bind fun i ↦
    let m := m.modify name fun e ↦ { e with nextTS := (nextUseOf body s i thisQbit.qubit).1 }
    if wantsLocal body s O ts i thisQbit.qubit ∧ src % 10 ≠ 0 then
      (if src ≠ 0 ∧ O.local_Q ≤ m.localMemSizeMap (src * 10) then m.evict body ts (src * 10)
        else some m).map fun m ↦
          ((m.move ts true name src (src * 10)).keep name).resize (src * 10) 1
    else if opTS s i ≠ ts then some (m.move ts false name src 0)
    else some m

/-- A round of the loop over `active_qubits`. -/
def examine (m : Moving) (q : Qubit) : Option Moving :=
  let name := qubitName q
  let src := (m.qubitMap name).loc
  -- a qubit that is in a region and used now goes to the region of its use
  let hit := m.current.find? fun c ↦ name = qubitName c.1 ∧ src % 10 ≠ 0
  let dest := (hit.map Prod.snd).getD 0
  let active := simdActive O.k s ts src
  let m := match hit with
    | some c =>
      { (m.modify name fun e ↦ { e with simd := dest }).keep name with
        current := m.current.erase c }
    | none => m
  if active = false ∧ dest = 0 then some (m.keep name)
  else if O.local_mem = false then
    if (dest ≠ 0 ∧ dest ≠ src) ∨ (dest = 0 ∧ active) then some (m.move ts false name src dest)
    else some m
  else
    let m := if dest ≠ 0 ∧ dest ≠ src then m.move ts false name src dest else m
    if dest = 0 ∧ active then m.leaveRegion body s O ts name src else some m

/-- A round of the loop over the rest of `current`. -/
def fetch (m : Moving) (c : Qubit × ℕ) : Moving :=
  let name := qubitName c.1
  let curQbit := m.qubitMap name
  let m := m.keep name
  if curQbit.loc = 0 ∨ O.local_mem = false then m.move ts false name 0 curQbit.simd
  else (m.move ts true name curQbit.loc curQbit.simd).resize curQbit.loc (-1)

end Moving

/-- The tables and lists when the operands of the timestep have been collected. -/
def Moving.start (body : List Call) (s : State) (O : MoveOptions) (σ : Tracking) (ts : ℕ) :
    Moving :=
  let c := (usesAt body O.k s ts).foldl useArg ([], σ.qubitMap)
  ⟨{ σ with qubitMap := c.2 }, c.1, []⟩

def update_moves (body : List Call) (s : State) (O : MoveOptions) (σ : Tracking) (ts : ℕ) :
    Option Tracking :=
  (σ.active_qubits.foldlM (Moving.examine body s O ts) (.start body s O σ ts)).map fun m ↦
      let m := m.current.foldl (Moving.fetch O ts) m
      { m.toTracking with active_qubits := m.next }

/-- The state after the first `n` timesteps. -/
def track (body : List Call) (s : State) (O : MoveOptions) (n : ℕ) : Option Tracking :=
  (List.range n).foldlM (update_moves body s O) (.init body)

/-- The number of timesteps the moves are found for. -/
def ots (s : State) : ℕ := tempTS s 1 (s.schedule.length + 1) 0

/-! ## Right moves -/

/-- The moves are found, and as they are printed, for the timesteps up to any number that is large
enough, every move starts where the qubit is, after the moves of the timesteps up to its own an
operation has all its operands in its region, and every operand has an entry of its own, with the
place where it is. -/
def MovesRight (body : List Call) (s : State) (O : MoveOptions) : Prop :=
  ∃ σ, track body s O (ots s) = some σ ∧ ∀ op_count, ots s ≤ op_count →
    SourcesRight (fun _ ↦ 0) ((σ.printed op_count).map Move.toTransport) ∧
    (∀ x i, (x, i) ∈ s.schedule → ∀ q ∈ (callAt body i).args,
      replay (fun _ ↦ 0) ((σ.printed (x.ts + 1)).map Move.toTransport) q = x.simd) ∧
    ∀ q ∈ qubits body, (σ.qubitMap (qubitName q)).qubit = q ∧
      (σ.qubitMap (qubitName q)).loc =
        replay (fun _ ↦ 0) ((σ.printed op_count).map Move.toTransport) q

/-- What `sched_op` sees to: the entries of the schedule are in the slots of the operations. -/
def State.Entered (s : State) : Prop := ∀ x i, (x, i) ∈ s.schedule → s.slot i = some x

/-- Different operands have different texts. -/
def DistinctNames (body : List Call) : Prop :=
  Set.InjOn qubitName {q | q ∈ qubits body}

/-- The place of a qubit in the tables. -/
def Tracking.loc (σ : Tracking) (q : Qubit) : ℕ := (σ.qubitMap (qubitName q)).loc

/-- A round of the first loop does not put out a qubit of a full local memory that was put there at
the same timestep. -/
def Moving.spares (body : List Call) (s : State) (O : MoveOptions) (ts : ℕ) (m : Moving)
    (q : Qubit) : Bool :=
  let src := (m.qubitMap (qubitName q)).loc
  (m.qubitMap (qubitName q)).last_inst.all fun i ↦
    if simdActive O.k s ts src ∧ wantsLocal body s O ts i q ∧
        O.local_Q ≤ m.localMemSizeMap (src * 10)
    then (m.victim body (src * 10)).all fun v ↦
      m.local_move_schedule.all fun mov ↦ ¬ (mov.ts = ts ∧ mov.token = v.qubit)
    else true

/-- No round of the first loop does. -/
def Moving.sparesAll (body : List Call) (s : State) (O : MoveOptions) (ts : ℕ) :
    Moving → List Qubit → Bool
  | _, [] => true
  | m, q :: qs => m.spares body s O ts q &&
    (m.examine body s O ts q).all fun m ↦ sparesAll body s O ts m qs

/-- A schedule whose moves the tables can keep track of. Its operations are in the regions there are
and at timesteps up to which region `1` has operations, and no qubit is used in two regions at once.
Without local memories, no qubit that is used is in a region with the tenfold of a number while that
region has no operation. With local memories, no region has the number of one of them, there is
room in them if a qubit is to be put there, and no qubit is put out of one at the timestep at which
it was put there. -/
structure Trackable (body : List Call) (s : State) (O : MoveOptions) : Prop where
  distinct : DistinctNames body
  region : ∀ x i, (x, i) ∈ s.schedule → 1 ≤ x.simd ∧ x.simd ≤ O.k
  busy : ∀ x i, (x, i) ∈ s.schedule → ∀ t ≤ x.ts, occupied s ⟨t, 1⟩
  oneRegion : ∀ x i y j, (x, i) ∈ s.schedule → (y, j) ∈ s.schedule → x.ts = y.ts →
    ∀ q, q ∈ (callAt body i).args → q ∈ (callAt body j).args → x.simd = y.simd
  memory : O.local_mem = false → ∀ x i, (x, i) ∈ s.schedule →
    ∀ σ, track body s O x.ts = some σ → ∀ q ∈ (callAt body i).args,
      σ.loc q % 10 = 0 → σ.loc q = 0 ∨ simdActive O.k s x.ts (σ.loc q)
  localRegion : O.local_mem = true → ∀ x i, (x, i) ∈ s.schedule → x.simd % 10 ≠ 0
  room : O.local_mem = true → 1 ≤ O.local_Q ∨ ∀ n < ots s, ∀ σ, track body s O n = some σ →
    ∀ q ∈ σ.active_qubits, ∀ i, (σ.qubitMap (qubitName q)).last_inst = some i →
      ¬ wantsLocal body s O n i q
  apart : O.local_mem = true → ∀ n < ots s, ∀ σ, track body s O n = some σ →
    Moving.sparesAll body s O n (.start body s O σ n) σ.active_qubits

end ScaffCC.Lpfs
