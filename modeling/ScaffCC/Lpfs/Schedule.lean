import ScaffCC.Lpfs.LongestPath

/-!
# Longest-path-first scheduling

The function `lpfs` first places the operations of the longest paths, each path in the region of its
number, one after the other. The timestep counter goes on from path to path and is not compared with
the timesteps of anything else. Then it goes through the remaining operations by priority and places
each at the first timestep at which what it depends on is done, or as soon after as a region is
free.

`none` stands for a run that does not come to its end: `sched_op` reads the name of the called
function, which is null for a call without quantum operands, or a loop goes on for ever.
-/

namespace ScaffCC.Lpfs

/-- A place in the schedule. Regions are numbered from 1. -/
structure Slot where
  ts : ℕ
  simd : ℕ
  deriving DecidableEq, Repr

/-- The fields `ts` and `simd` of the operations, `none` standing for `simd == -1`; the entries of
`schedule` in the order in which they were inserted; and the counter `sched_ops`. -/
structure State where
  slot : ℕ → Option Slot
  schedule : List (Slot × ℕ)
  sched_ops : ℕ

namespace State

def init : State := ⟨fun _ ↦ none, [], 0⟩

/-- The operation `i` put in a slot. -/
def place (s : State) (i : ℕ) (x : Slot) : State :=
  { s with slot := Function.update s.slot i (some x), schedule := s.schedule ++ [(x, i)] }

/-- The state with one more operation counted. -/
def count (s : State) : State := { s with sched_ops := s.sched_ops + 1 }

end State

def sched_op (body : List Call) (i : ℕ) (x : Slot) (s : State) : Option State :=
  if s.slot i = none then
    if isGate body i then some (s.place i x) else none
  else some s

/-- The loop that assigns the longest paths, from the timestep `ts` on. -/
def placePaths (body : List Call) : List (ℕ × ℕ) → ℕ → State → Option State
  | [], _, s => some s
  | (i, path) :: rest, ts, s =>
    if s.slot i = none then
      (sched_op body i ⟨ts, path⟩ s).bind fun s ↦ placePaths body rest (ts + 1) s.count
    else placePaths body rest ts s.count

/-! ## The free list -/

def depsMet (body : List Call) (s : State) (i ts : ℕ) : Bool :=
  (inEdges body i).all fun a ↦
    match s.slot a with
    | some x => x.ts < ts
    | none => false

/-- The first timestep from `ts` on at which the dependencies are met, looking `n` steps ahead. -/
def firstMet (body : List Call) (s : State) (i : ℕ) : ℕ → ℕ → Option ℕ
  | 0, _ => none
  | n + 1, ts => if depsMet body s i ts then some ts else firstMet body s i n (ts + 1)

/-- `schedule[x.simd].count(x.ts)`, whether anything is in the slot. -/
def occupied (s : State) (x : Slot) : Bool := s.schedule.any (·.1 = x)

/-- The first operation put in the slot. -/
def curOp (s : State) (x : Slot) : Option ℕ := (s.schedule.find? (·.1 = x)).map Prod.snd

/-- The first region that does the same gate at the timestep. -/
def sameGate (body : List Call) (k : ℕ) (s : State) (i ts : ℕ) : Option ℕ :=
  (List.range' 1 k).find? fun r ↦
    match curOp s ⟨ts, r⟩ with
    | some j => (callAt body j).qFunc = (callAt body i).qFunc
    | none => false

/-- The first timestep from `ts` on at which the region is free, looking `n` steps ahead. -/
def tempTS (s : State) (r : ℕ) : ℕ → ℕ → ℕ
  | 0, ts => ts
  | n + 1, ts => if occupied s ⟨ts, r⟩ then tempTS s r n (ts + 1) else ts

/-- The slot `⟨lowTS, lowSD⟩` after the region `r`. -/
def lower (s : State) (ts : ℕ) (low : Option Slot) (r : ℕ) : Option Slot :=
  let t := tempTS s r (s.schedule.length + 1) ts
  match low with
  | some x => if t ≤ x.ts then some ⟨t, r⟩ else some x
  | none => some ⟨t, r⟩

/-- The values `lowTS` and `lowSD` are set to before the regions are gone through. They stay so if
there is no region. -/
def noRegion : Slot := ⟨2147483647, 0⟩

/-- The slot `⟨lowTS, lowSD⟩`, with the regions gone through from the last one to the first. -/
def lowSlot (k : ℕ) (s : State) (ts : ℕ) : Slot :=
  ((List.range' 1 k).reverse.foldl (lower s ts) none).getD noRegion

/-- The slot an operation gets when its dependencies are met at `ts`. -/
def chooseSlot (body : List Call) (k : ℕ) (opp : Bool) (s : State) (i ts : ℕ) : Slot :=
  if opp then
    match sameGate body k s i ts with
    | some r => ⟨ts, r⟩
    | none => lowSlot k s ts
  else ⟨ts, 1⟩

/-- The body of the loop over `priorityVector`. -/
def placeFree (body : List Call) (k : ℕ) (opp : Bool) (s : State) (i : ℕ) : Option State :=
  if s.slot i = none then
    (firstMet body s i (s.schedule.length + 1) 0).bind fun ts ↦
      (sched_op body i (chooseSlot body k opp s i ts) s).map State.count
  else some s

/-- The loop over `priorityVector`. -/
def pass (body : List Call) (k : ℕ) (opp : Bool) (order : List ℕ) (s : State) : Option State :=
  order.foldlM (placeFree body k opp) s

/-- The loop around it, for at most `n` rounds. -/
def freeList (body : List Call) (k : ℕ) (opp : Bool) (order : List ℕ) : ℕ → State → Option State
  | 0, s => if s.sched_ops < (operations body).length then none else some s
  | n + 1, s =>
    if s.sched_ops < (operations body).length then
      (pass body k opp order s).bind (freeList body k opp order n)
    else some s

/-- The parameters of a run: the regions, the paths, whether gates are put where the same gate is
done, the order of the operations by priority and the instruction last in memory. -/
structure Params where
  k : ℕ
  l : ℕ
  opp_simd : Bool
  order : List ℕ
  lastPtr : ℕ

def lpfs (body : List Call) (P : Params) : Option State :=
  (placePaths body (pathEntries body P.lastPtr P.l) 0 .init).bind
    (freeList body P.k P.opp_simd P.order (operations body).length)

end ScaffCC.Lpfs
