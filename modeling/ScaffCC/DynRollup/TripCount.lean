import Mathlib.Algebra.Ring.Nat
import ScaffCC.Transition.Counting

/-!
# Trip counts of rolled loops

The pass `DynRollupLoops` rolls a loop up into one round between two markers, and the first marker
is told how often the body runs. The number is taken from the analysis of the loop if that knows
it. Otherwise instructions are put in front of the body that compute it from the two bounds: which
ones depends on the comparison in the latch, on the step, and on which bounds are constants.

A loop is in the form that the pass looks at: the comparison guards the first round, and the latch
makes it again with the next value of the induction variable. The variable is compared in its own
type or in a narrower one.

What is modelled are the functions that work out the count and put it in front of the body. The
function around them, `runOnModule`, does not get so far: it declares the markers with a null
pointer at the end of their parameter types, which is taken for one more type and read.
-/

open Counting

namespace ScaffCC.DynRollup

/-! ## Comparisons -/

inductive Predicate
  | eq
  | ne
  | ugt
  | uge
  | ult
  | ule
  | sgt
  | sge
  | slt
  | sle
  deriving DecidableEq, Repr

namespace Predicate

/-- The predicate reads its operands as signed numbers. -/
def isSigned : Predicate → Bool
  | sgt | sge | slt | sle => true
  | _ => false

/-- The relation that the predicate tests. -/
def rel : Predicate → Rel
  | eq => .eq
  | ne => .ne
  | ugt | sgt => .gt
  | uge | sge => .ge
  | ult | slt => .lt
  | ule | sle => .le

def getUnsignedPredicate : Predicate → Predicate
  | sgt => ugt
  | sge => uge
  | slt => ult
  | sle => ule
  | p => p

variable {w : ℕ}

def icmp : Predicate → BitVec w → BitVec w → Bool
  | eq, x, y => x == y
  | ne, x, y => x != y
  | ugt, x, y => y.ult x
  | uge, x, y => y.ule x
  | ult, x, y => x.ult y
  | ule, x, y => x.ule y
  | sgt, x, y => y.slt x
  | sge, x, y => y.sle x
  | slt, x, y => x.slt y
  | sle, x, y => x.sle y

@[simp] theorem rel_getUnsignedPredicate (p : Predicate) : p.getUnsignedPredicate.rel = p.rel := by
  cases p <;> rfl

end Predicate

/-! ## Loops -/

/-- The two instructions of a step. -/
inductive Opcode
  | add
  | sub
  deriving DecidableEq, Repr

/-- A loop with one induction variable, whose step is one. A bound that is not a constant is found
at run time. -/
structure Loop where
  /-- The type of the induction variable. -/
  inWidth : ℕ
  /-- The type of the comparison. -/
  cmpWidth : ℕ
  /-- The type of the final bound before it is truncated for the comparison. -/
  outWidth : ℕ
  /-- The initial bound. -/
  initial : Option (BitVec inWidth)
  /-- The instruction of the step. -/
  instOp : Opcode
  /-- The constant operand of the step. -/
  step : BitVec inWidth
  /-- The comparison. -/
  predicate : Predicate
  /-- The loop is left if the comparison holds, not if it fails. -/
  exitOnTrue : Bool
  /-- The final bound. -/
  final : Option (BitVec cmpWidth)
  cmpWidth_pos : 0 < cmpWidth
  cmpWidth_le_inWidth : cmpWidth ≤ inWidth
  cmpWidth_le_outWidth : cmpWidth ≤ outWidth
  step_eq : step = 1 ∨ step = -1

namespace Loop

variable (L : Loop)

/-- The first value of the induction variable. -/
def start (inVal : BitVec L.inWidth) : BitVec L.inWidth := L.initial.getD inVal

/-- What the induction variable is compared with. -/
def bound (outVal : BitVec L.outWidth) : BitVec L.cmpWidth :=
  L.final.getD (outVal.setWidth L.cmpWidth)

/-- The next value of the induction variable. -/
def advance (i : BitVec L.inWidth) : BitVec L.inWidth :=
  match L.instOp with
  | .add => i + L.step
  | .sub => i - L.step

/-- The body runs with this value. -/
def goesOn (outVal : BitVec L.outWidth) (i : BitVec L.inWidth) : Bool :=
  L.exitOnTrue ^^ L.predicate.icmp (i.setWidth L.cmpWidth) (L.bound outVal)

/-- The loop ends after its body has run so often. -/
def Runs (inVal : BitVec L.inWidth) (outVal : BitVec L.outWidth) (n : ℕ) : Prop :=
  IsLeast {n | L.goesOn outVal (L.advance^[n] (L.start inVal)) = false} n

end Loop

/-! ## The conditions of a loop -/

/-- An `int` from the value of a constant, which has to fit into 64 bits. -/
def getZExtValue {w : ℕ} (c : BitVec w) : Option (BitVec 32) :=
  if c.toNat < 2 ^ 64 then some (c.setWidth 32) else none

def INT_MAX : BitVec 32 := 0x7FFFFFFF

/-- `incBy`: the opposite of the step, as far as the assertion about it admits. -/
def incBy (instOp : Opcode) (val : BitVec 32) : Option (BitVec 32) :=
  let incBy : BitVec 32 :=
    match instOp with
    | .add =>
      if val = 1 then -1 else if val = -1 then 1
      else if 0 < val.toInt then -1 * val else if val.toInt < 0 then val else 0
    | .sub =>
      if val = 1 then 1 else if val = -1 then -1
      else if 0 < val.toInt then val else if val.toInt < 0 then -1 * val else 0
  if incBy = 1 ∨ incBy = -1 then some incBy else none

/-- What `getIncAndCmpConditions` takes from the comparison. -/
structure CmpConditions where
  /-- The constant that stands for the final bound. -/
  endAt : Option (BitVec 32)
  /-- One is added to a final bound found at run time. -/
  addOne : Bool
  /-- One is subtracted from it. -/
  subOne : Bool
  /-- The final bound is the greater one. -/
  biggerEnd : Bool
  deriving DecidableEq

/-- The conditions of a comparison with a constant, or with a value found at run time. -/
def cmpConditions (predicate : Predicate) (incBy : BitVec 32) (val : Option (BitVec 32)) :
    CmpConditions :=
  match predicate with
  | .eq => ⟨val, false, false, false⟩
  | .ne => ⟨val.map (· + incBy), false, false, true⟩
  | .ugt | .sgt => ⟨val, false, false, false⟩
  | .uge | .sge => ⟨val.map (· + incBy), false, val.isNone, false⟩
  | .ult | .slt => ⟨val, false, false, true⟩
  | .ule | .sle => ⟨val.map (· + incBy), val.isNone, false, true⟩

/-- `BO`: a final bound found at run time with one added or subtracted. -/
def CmpConditions.bound {w : ℕ} (c : CmpConditions) (outVal : BitVec w) : BitVec w :=
  if c.addOne then outVal + 1 else if c.subOne then outVal - 1 else outVal

/-- The value of the instructions for the difference of the bounds, with its type. -/
def tripCountVal {b₁ b₂ : ℕ} (c : CmpConditions) (initAt : Option (BitVec 32)) (inVal : BitVec b₁)
    (outVal : BitVec b₂) : Option ((w : ℕ) × BitVec w) :=
  match initAt, c.endAt with
  | some initAt, none =>
    if c.biggerEnd then
      if initAt ≠ 0 then some ⟨b₂, c.bound outVal - initAt.signExtend b₂⟩
      -- With `addOne` the value stored is not the one that has been incremented.
      else some ⟨b₂, if c.addOne then outVal else c.bound outVal⟩
    else some ⟨b₂, initAt.signExtend b₂ - c.bound outVal⟩
  | none, some endAt =>
    if c.biggerEnd then some ⟨b₁, endAt.signExtend b₁ - inVal⟩
    else some ⟨b₁, inVal - endAt.signExtend b₁⟩
  | none, none =>
    if b₂ < b₁ then
      if c.biggerEnd then some ⟨b₂, c.bound outVal - inVal.setWidth b₂⟩
      else some ⟨b₂, inVal.setWidth b₂ - c.bound outVal⟩
    else
      if c.biggerEnd then some ⟨b₁, (c.bound outVal).setWidth b₁ - inVal⟩
      else some ⟨b₁, inVal - (c.bound outVal).setWidth b₁⟩
  | some _, some _ => none

/-- What a bound contributes as a constant. There is nothing to go on with if it cannot be read. -/
def readBound {w : ℕ} : Option (BitVec w) → Option (Option (BitVec 32))
  | some c => (getZExtValue c).map some
  | none => some none

/-- The final bound. The value `INT_MAX` of a constant is taken for a bound found at run time, for
which no operand is set. -/
def readFinal {w : ℕ} (final : Option (BitVec w)) : Option (Option (BitVec 32)) :=
  match readBound final with
  | some (some val) => if val = INT_MAX then none else some (some val)
  | r => r

def getIncAndCmpConditions (L : Loop) (inVal : BitVec L.inWidth) (outVal : BitVec L.outWidth) :
    Option ((w : ℕ) × BitVec w) := do
  let initAt ← readBound L.initial
  let val ← getZExtValue L.step
  let incBy ← incBy L.instOp val
  let endVal ← readFinal L.final
  tripCountVal (cmpConditions L.predicate.getUnsignedPredicate incBy endVal) initAt inVal outVal

/-! ## The marker -/

/-- The argument of the marker that `addDummyStart` puts in front of the body. -/
def addDummyStart (bbTripCount : Option (BitVec 32))
    (bbTripCountVal : Option ((w : ℕ) × BitVec w)) :
    Option (BitVec 32) :=
  match bbTripCount with
  | some tripCount => some tripCount
  | none =>
    match bbTripCountVal with
    | some ⟨w, tripCountVal⟩ =>
      if w = 32 ∨ w = 64 then some (tripCountVal.setWidth 32) else none
    | none => none

/-- A loop that is rolled up, with the answer of `getSmallConstantTripCount`: the number of rounds
if that is a constant, and zero otherwise. -/
structure AnalyzedLoop extends Loop where
  /-- The answer. -/
  tripCount : BitVec 32
  tripCount_ne_one : tripCount ≠ 1
  eq_tripCount : tripCount ≠ 0 → ∀ inVal outVal n, n ≠ 0 → toLoop.Runs inVal outVal n →
    n = tripCount.toNat

/-- What `addDummyStart` tells the marker of a loop, after `getIncAndCmpConditions`. -/
def marker (L : AnalyzedLoop) (inVal : BitVec L.inWidth) (outVal : BitVec L.outWidth) :
    Option (BitVec 32) :=
  addDummyStart (if 1 < L.tripCount.toInt then some L.tripCount else none)
    (if L.tripCount = 0 then getIncAndCmpConditions L.toLoop inVal outVal else none)

/-- Whenever the body runs and the loop ends, the marker is told how often the body runs. The marker
stands in the body, so an empty range does not get to it. -/
def CountRight (L : AnalyzedLoop) : Prop :=
  ∀ inVal outVal n, n ≠ 0 → L.Runs inVal outVal n →
    (marker L inVal outVal).map BitVec.toNat = some n

end ScaffCC.DynRollup
