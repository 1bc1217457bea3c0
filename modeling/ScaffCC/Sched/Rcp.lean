import ScaffCC.Sched.Ready

/-!
# Ready-critical-path scheduling

At each timestep `rcp` fills the regions one after the other, the lowest first. (The comparison that
should put the region with the highest weight first reads `$weights->{a}`, the entry of a key that
is not there.) For a region it chooses the type of operation with the highest weight and takes ready
operations of this type out of the hash `$rcpq`, as long as the size of the operations seen times
their number stays below the width of a region. When the regions are filled, or nothing is ready any
more, the moves are found, and the ready children of what was placed are added to `$rcpq`.
-/

open Scheduling

namespace ScaffCC.Sched

/-- The regions, their width and the weights, which are above the value the search for the highest
weight starts from, and the order in which `$rcpq` is gone through. -/
structure RcpParams where
  simd_k : ℕ
  simd_d : ℕ
  w_op : ℤ
  w_slack : ℤ
  w_dist : ℤ
  order : HashOrder
  low : -2 ^ 63 < w_op ∧ -2 ^ 63 < w_op + w_dist

/-- The weights that are set at the start of the script. -/
def RcpParams.default (simd_k simd_d : ℕ) : RcpParams :=
  ⟨simd_k, simd_d, 1, 1, -1, .added, by decide⟩

/-! ## Weights -/

/-- The entry of a region in the hash of weights. -/
structure Weights where
  weight : OpType → ℤ
  max : ℤ
  op : Option OpType

namespace Weights

def init : Weights := ⟨fun _ ↦ 0, -2 ^ 63, none⟩

/-- The weight of an operation added to that of its type. -/
def add (w : Weights) (op : OpType) (x : ℤ) : Weights :=
  let weight := Function.update w.weight op (w.weight op + x)
  if weight op > w.max then ⟨weight, weight op, some op⟩ else { w with weight }

end Weights

variable (ops : List Op) (P : RcpParams)

/-- The field `slack`, which is computed for other algorithms only. -/
def slack : ℤ := 0

/-- Whether all operands are in the region. -/
def dist (loc : Ident → ℕ) (i simd : ℕ) : ℤ :=
  if ∀ q ∈ (opAt ops i).args, loc q = simd then 1 else 0

def rcp_op_weight (loc : Ident → ℕ) (i simd : ℕ) : ℤ :=
  P.w_op + P.w_slack * slack + P.w_dist * dist ops loc i simd

def rcp_calc_weights (loc : Ident → ℕ) (simd : ℕ) (rcpq : List ℕ) : Weights :=
  rcpq.foldl (fun w i ↦ w.add (opAt ops i).op (rcp_op_weight ops P loc i simd)) .init

/-! ## Timesteps -/

/-- The loop of `rcpq_extract_optype`: `$size` and `@ret` so far, and the keys still to come. -/
def rcpq_extract_optype (optype : Option OpType) : ℕ → List ℕ → List ℕ → List ℕ
  | _, ret, [] => ret
  | size, ret, i :: rest =>
    if size * (1 + ret.length) < P.simd_d then
      if some (opAt ops i).op = optype then
        rcpq_extract_optype optype (size ||| (opAt ops i).args.length) (ret ++ [i]) rest
      else rcpq_extract_optype optype size ret rest
    else ret

/-- The state of `rcp`: the schedule, the hash `$rcpq`, the counters and the qubits, and the moves
of each timestep. -/
structure RcpState where
  sched : Schedule
  rcpq : List ℕ
  op_cnt : ℕ
  ts : ℕ
  locations : Locations
  moves : List (List Mov)

/-- `rcp_sched_next_simd`, for the lowest region that is left, and the counting after it. -/
def rcp_sched_next_simd (simd : ℕ) (s : RcpState) : RcpState :=
  let keys := P.order.keys s.ts simd s.rcpq
  let optype := (rcp_calc_weights ops P s.locations.loc simd keys).op
  let ret := rcpq_extract_optype ops P optype 0 [] keys
  let sched := sched_ops ops s.sched ret s.ts simd
  { s with
    sched
    rcpq := s.rcpq.filter (· ∉ ret)
    op_cnt := s.op_cnt + (sched.opsAt (s.ts, simd)).length }

/-- The regions filled, as long as something is ready. -/
def fillRegions : List ℕ → RcpState → RcpState
  | [], s => s
  | simd :: rest, s =>
    if s.rcpq = [] then s else fillRegions rest (rcp_sched_next_simd ops P simd s)

/-- The ready children of the operations of the timestep are added. -/
def rcpq_update (s : RcpState) : List ℕ :=
  ((List.range' 1 P.simd_k).flatMap fun simd ↦
    (s.sched.opsAt (s.ts, simd)).flatMap (get_ready_children ops s.sched)) ∪ s.rcpq

def endTimestep (s : RcpState) : RcpState :=
  let m := update_moves P.simd_k (timestep ops s.sched s.ts) s.locations
  { s with
    rcpq := rcpq_update ops P s
    ts := s.ts + 1
    locations := m.2
    moves := s.moves ++ [m.1] }

/-- The loop of `rcp`, for at most `n` timesteps. It is left when the timestep is greater than the
number of operations. -/
def rcpLoop : ℕ → RcpState → RcpState
  | 0, s => s
  | n + 1, s =>
    if s.rcpq ≠ [] ∧ s.op_cnt < ops.length then
      rcpLoop n (endTimestep ops P (fillRegions ops P (List.range' 1 P.simd_k) s))
    else s

def rcp_init : RcpState := ⟨.empty, top ops, 0, 0, .init, []⟩

def rcp : RcpState := rcpLoop ops P (ops.length + 1) (rcp_init ops)

/-! ## What a schedule has to be -/

/-- The operands in a region at a timestep. -/
def operandsAt (s : Schedule) (x : ℕ × ℕ) : List Ident :=
  (s.opsAt x).flatMap fun i ↦ (opAt ops i).args

/-- **Every operation is placed once and after its parents**, in one of the regions, next to
operations of its type only, with no more qubits than the region is wide. -/
structure RcpRight (s : Schedule) : Prop where
  complete : s.Complete (List.range ops.length)
  timely : Timely (Parent ops) s.time
  regions : ∀ ts, (regionsAt s ts).length ≤ P.simd_k
  types : ∀ x, ∀ i ∈ s.opsAt x, ∀ j ∈ s.opsAt x, (opAt ops i).op = (opAt ops j).op
  width : ∀ x, (operandsAt ops s x).length ≤ P.simd_d

/-- Operations of one type have equally many operands. -/
def SameArity : Prop :=
  ∀ op ∈ ops, ∀ op' ∈ ops, op.op = op'.op → op.args.length = op'.args.length

instance : Decidable (SameArity ops) :=
  inferInstanceAs (Decidable (∀ op ∈ ops, ∀ op' ∈ ops, _))

end ScaffCC.Sched
