import ScaffCC.Lpfs.Graph

/-!
# The longest paths

`find_lp` looks for the longest chain of calls not yet on a path and follows it from its last call
upwards. `take_path` marks a call as followed, but it is called for a call only when the search goes
on from there, so the first call of the chain is not marked and the next search may find it again.

The operations are kept in a map ordered by the addresses of the instructions, and the loop that
gives them their first distance leaves out the last one of the map, whose distance stays what it
was. Which instruction that is depends on the addresses; it is a parameter here.
-/

namespace ScaffCC.Lpfs

/-- The fields `dist` and `followed` of the operations. -/
structure PathState where
  dist : ℕ → ℤ
  followed : ℕ → Bool

namespace PathState

/-- The values the constructor `op()` sets. -/
def init : PathState := ⟨fun _ ↦ -1, fun _ ↦ false⟩

/-- The first loop of `find_lp`. -/
def setDist (lastPtr : ℕ) (s : PathState) : PathState :=
  { s with dist := fun i ↦ if i ≠ lastPtr ∧ ¬ s.followed i then 1 else s.dist i }

/-- One round of the second loop, for the call `i`. The second component is `longPath[0]`. -/
def visit (body : List Call) (i : ℕ) (s : PathState) (top : ℕ) : PathState × ℕ :=
  if s.followed i then ({ s with dist := Function.update s.dist i 0 }, top)
  else
    let dist := (outEdges body i).foldl
      (fun dist c ↦ Function.update dist c (max (dist c) (s.dist i + 1))) s.dist
    ({ s with dist }, if s.dist i ≥ dist top then i else top)

/-- The second loop of `find_lp`, over the calls but the last. -/
def visitAll (body : List Call) (s : PathState) : PathState × ℕ :=
  (List.range (body.length - 1)).foldl (fun acc i ↦ visit body i acc.1 acc.2) (s, 0)

def takePath (i : ℕ) (s : PathState) : PathState :=
  ⟨Function.update s.dist i 0, Function.update s.followed i true⟩

/-- The parent the path is continued with. -/
def nextUp (body : List Call) (i : ℕ) (currDist : ℤ) (s : PathState) : Option ℕ :=
  (inEdges body i).find? fun a ↦ s.dist a = currDist ∧ ¬ s.followed a

/-- The last loop of `find_lp`, from a path that ends with the call `i`, for at most `n` rounds. -/
def climb (body : List Call) : ℕ → PathState → ℕ → List ℕ × PathState
  | 0, s, i => ([i], s)
  | n + 1, s, i =>
    if s.dist i > 1 then
      match nextUp body i (s.dist i - 1) (s.takePath i) with
      | some a =>
        let (path, s') := climb body n (s.takePath i) a
        (i :: path, s')
      | none => ([i], s.takePath i)
    else ([i], s)

/-- `find_lp`: the longest path, its last call first. -/
def findLp (body : List Call) (lastPtr : ℕ) (s : PathState) : List ℕ × PathState :=
  let (s, top) := visitAll body (s.setDist lastPtr)
  climb body (s.dist top).toNat s top

/-- The paths `longestPathList[1]` to `longestPathList[l]`. -/
def findPaths (body : List Call) (lastPtr : ℕ) : ℕ → PathState → List (List ℕ)
  | 0, _ => []
  | l + 1, s =>
    let (path, s) := findLp body lastPtr s
    path :: findPaths body lastPtr l s

end PathState

/-- The entries of the paths in the order in which they are scheduled, each with the number of its
path. A path is gone through from its end, that is, from the first of its calls. -/
def pathEntries (body : List Call) (lastPtr l : ℕ) : List (ℕ × ℕ) :=
  ((PathState.findPaths body lastPtr l .init).zipIdx 1).flatMap fun p ↦
    p.1.reverse.map fun i ↦ (i, p.2)

end ScaffCC.Lpfs
