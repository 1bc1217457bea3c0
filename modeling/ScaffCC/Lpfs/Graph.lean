import Mathlib.Data.List.GetD
import ScaffCC.IR.Gate

/-!
# Operations of a leaf function and their dependencies

`GenLPFSSchedule` lists the calls of a leaf function in program order. For each operand of a call it
looks for the next call that has the same operand and puts an edge between the two. A second pass
over the calls, from the last one to the first, gives each its priority, the length of the longest
chain of calls that wait for it.
-/

namespace ScaffCC.Lpfs

/-- A quantum operand: the name of the array and the index. -/
abbrev Qubit := Ident × ℕ

instance : LawfulBEq Qubit := inferInstance

/-- A call in a leaf function: a gate intrinsic on qubits, or a call without a quantum operand such
as `store_cbit`, which is listed as well but has no `qFunc`. -/
inductive Call
  | gate (qFunc : Ident) (args : List Qubit)
  | other
  deriving DecidableEq, Repr

namespace Call

def qFunc : Call → Option Ident
  | gate f _ => some f
  | other => none

def args : Call → List Qubit
  | gate _ qs => qs
  | other => []

end Call

/-- A gate on elements of an array `q`. -/
def gateOn (f : String) (qs : List ℕ) : Call := .gate f.toList (qs.map fun i ↦ ("q".toList, i))

def callAt (body : List Call) (i : ℕ) : Call := body.getD i .other

/-- Whether the call at the position is an operation, that is, one with quantum operands. -/
def isGate (body : List Call) (i : ℕ) : Bool := (callAt body i).qFunc.isSome

/-- The operations, in program order. They are the entries of `priorityVector` before it is
sorted. -/
def operations (body : List Call) : List ℕ := (List.range body.length).filter (isGate body)

/-! ## Edges -/

/-- The next call after `i` with the operand. -/
def nextUse (body : List Call) (q : Qubit) (i : ℕ) : Option ℕ :=
  (List.range' (i + 1) (body.length - (i + 1))).find? fun j ↦ q ∈ (callAt body j).args

/-- The calls that call `i` gets an edge to, one for each pair of equal operands. -/
def outEdges (body : List Call) (i : ℕ) : List ℕ :=
  (callAt body i).args.flatMap fun q ↦
    match nextUse body q i with
    | some j => List.replicate ((callAt body j).args.count q) j
    | none => []

/-- The calls that call `j` gets an edge from, in the order in which the edges are found. -/
def inEdges (body : List Call) (j : ℕ) : List ℕ :=
  (List.range body.length).flatMap fun i ↦ ((outEdges body i).filter (· = j)).map fun _ ↦ i

/-- Call `b` uses a qubit last used by the earlier call `a`. -/
def LastUse (body : List Call) (a b : ℕ) : Prop :=
  (a < b ∧ b < body.length) ∧ ∃ q, q ∈ (callAt body a).args ∧ q ∈ (callAt body b).args ∧
    ∀ c, a < c → c < b → q ∉ (callAt body c).args

theorem nextUse_eq_some {body : List Call} {q : Qubit} {i j : ℕ} :
    nextUse body q i = some j ↔ (i < j ∧ j < body.length) ∧ q ∈ (callAt body j).args ∧
      ∀ c, i < c → c < j → q ∉ (callAt body c).args := by
  rw [nextUse, List.find?_range'_eq_some]
  simp only [decide_eq_true_eq, List.mem_range'_1, Bool.not_eq_true', decide_eq_false_iff_not]
  constructor
  · rintro ⟨hq, hj, hbefore⟩
    exact ⟨by omega, hq, fun c hic hcj ↦ hbefore c hic hcj⟩
  · rintro ⟨hj, hq, hbefore⟩
    exact ⟨hq, by omega, fun c hic hcj ↦ hbefore c hic hcj⟩

theorem mem_outEdges {body : List Call} {i j : ℕ} :
    j ∈ outEdges body i ↔ ∃ q ∈ (callAt body i).args, nextUse body q i = some j := by
  rw [outEdges, List.mem_flatMap]
  refine exists_congr fun q ↦ and_congr_right fun _ ↦ ?_
  cases h : nextUse body q i with
  | none => simp
  | some k =>
    have hk := (nextUse_eq_some.mp h).2.1
    simp only [List.mem_replicate, Option.some.injEq, eq_comm, and_iff_right_iff_imp]
    rintro -
    exact (List.count_pos_iff.mpr hk).ne'

/-- **The edges.** There is an edge from `a` to `b` when `b` uses a qubit last used by `a`. -/
theorem mem_inEdges {body : List Call} {a b : ℕ} : a ∈ inEdges body b ↔ LastUse body a b := by
  simp only [inEdges, List.mem_flatMap, List.mem_range, List.mem_map, List.mem_filter,
    decide_eq_true_eq, mem_outEdges, nextUse_eq_some]
  constructor
  · rintro ⟨i, -, j, ⟨⟨q, hq, hj, hqj, hbefore⟩, rfl⟩, rfl⟩
    exact ⟨hj, q, hq, hqj, hbefore⟩
  · rintro ⟨hab, q, hqa, hqb, hbefore⟩
    exact ⟨a, by omega, b, ⟨⟨q, hqa, hab, hqb, hbefore⟩, rfl⟩, rfl⟩

/-- For each qubit, the priority of the first call of the list that uses it: the value in
`funcQbits` after the calls were gone through from the last to the first. -/
def funcQbits : List Call → Qubit → ℕ
  | [], _ => 0
  | c :: rest, q =>
    if q ∈ c.args then (c.args.map (funcQbits rest)).foldr max 0 + 1 else funcQbits rest q

/-- The value `calc_critical_time_unbounded` returns for a call in front of the calls `rest`. -/
def criticalTime (c : Call) (rest : List Call) : ℕ :=
  (c.args.map (funcQbits rest)).foldr max 0 + 1

/-- The priority of a call. -/
def thisTS (body : List Call) (i : ℕ) : ℕ := criticalTime (callAt body i) (body.drop (i + 1))

theorem callAt_eq {body : List Call} {i : ℕ} (h : i < body.length) : callAt body i = body[i] :=
  List.getD_eq_getElem _ _ h

/-- An order in which the loop over `priorityVector`, from its end, may come to the operations. The
sort does not say which of two equal priorities comes first. -/
structure IsPriorityOrder (body : List Call) (order : List ℕ) : Prop where
  perm : order.Perm (operations body)
  sorted : order.Pairwise fun i j ↦ thisTS body j ≤ thisTS body i

end ScaffCC.Lpfs
