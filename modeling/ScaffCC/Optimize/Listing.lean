import ScaffCC.FlatQasm.Print
import ScaffCC.OpenQasm.Print
import ScaffCC.Optimize.OpGate

/-!
# The listing of the optimizer

The pass `Optimize` turns the calls of `main` into `OpGate`s with `optimal_initial`, rewrites them,
and prints them. Here nothing is rewritten. Qubits are printed under flattened names: the name of
the register and one index for all dimensions. An operand is the element of a register that a chain
of `getelementptr` instructions with constant indices points to: the frontend emits one for each
subscript, and instructions are merged when the code is optimized. Of a chain the pass keeps the
indices of the last instruction only.

The names of the flattened elements are listed in `bitMap`, and an operand is known by the position
of its name in this list. An operand that is not found keeps the position `0`, which is not printed.
-/

namespace ScaffCC.Optimize

open OpenQasm (Word RegName find)
open FlatQasm (printOperands splitEnds IsOperand)
open Text

/-! ## Bodies -/

/-- A register of `main`, with its element type unless it is classical, and its dimensions. -/
structure Register where
  name : RegName
  ty : Option QTy
  dims : List ℕ

/-- An element of a register. -/
structure Qubit where
  reg : RegName
  ty : QTy
  index : List ℕ

/-- The element is one of the register. -/
structure Qubit.In (q : Qubit) (r : Register) : Prop where
  name : r.name = q.reg
  ty : r.ty = some q.ty
  index : List.Forall₂ (· < ·) q.index r.dims

/-! ## Operands -/

/-- The position an instruction moves to: its first index moves along the array that the position is
in, and the others go into the element. Only the index 0 moves along a whole register. -/
def gep : List ℕ → List ℕ → Option (List ℕ)
  | _, [] => none
  | [], i :: is => if i = 0 then some is else none
  | j :: js, i :: is => some ((j :: js).modifyLast (· + i) ++ is)

/-- The element that is pointed to. A scalar is the element 0 of its register. -/
def element (geps : List (List ℕ)) : Option (List ℕ) :=
  (geps.foldlM gep []).map fun path ↦ if path = [] then [0] else path

/-- An operand of a call: a qubit, with the indices of the instructions that point to it. -/
structure Operand extends Qubit where
  geps : List (List ℕ)
  points : element geps = some index

/-- A `main` whose calls are gate intrinsics, with the registers it allocates in order. -/
structure MainBody where
  registers : List Register
  body : List (GateCall Operand)
  nodup : (registers.map Register.name).Nodup
  operands : ∀ g ∈ body, ∀ o ∈ g.operands, ∃ r ∈ registers, o.In r

def MainBody.gates (P : MainBody) : List (GateCall Qubit) :=
  P.body.map (GateCall.map Operand.toQubit)

/-- The indices of an instruction that are kept: the first only when there is no other. -/
def dimSize : List ℕ → List ℕ
  | [i] => [i]
  | is => is.drop 1

/-- The indices of an operand. Those of each instruction overwrite those of the one before, and at
first there is the 0 that is set for a loaded value. -/
def backtraceOperand (geps : List (List ℕ)) : List ℕ := geps.foldl (fun _ is ↦ dimSize is) [0]

/-! ## Names of qubits -/

/-- The part of a text before a fragment. -/
def before (fragment : Word) : Word → Word
  | [] => []
  | c :: cs => if fragment.isPrefixOf (c :: cs) then [] else c :: before fragment cs

/-- A name without its last dots, or without what the frontend adds to it. -/
def printVarName (s : Word) : Word :=
  if "..".toList.isSuffixOf s then s.dropLast.dropLast
  else if ".".toList.isSuffixOf s then s.dropLast
  else before ".addr".toList s

/-- The text of an unsigned number that is passed as an `int`. -/
def to_string (n : ℕ) : Word := showInt (Int.bmod n (2 ^ 32))

/-- The name of a flattened element. -/
def bitName (name : RegName) (i : ℕ) : Word := printVarName name.val ++ '_' :: to_string i

/-- The number of names for a register, in unsigned arithmetic. The product so far is multiplied by
itself at each dimension. -/
def Register.dMul (r : Register) : ℕ := r.dims.foldl (fun dMul d ↦ dMul * (dMul * d) % 2 ^ 32) 1

/-- The names of the flattened elements. A blank stands at the position 0. -/
def bitMap (rs : List Register) : List Word :=
  " ".toList :: rs.flatMap fun r ↦ (List.range r.dMul).map (bitName r.name)

/-- The flattened index: each index times the size of the next dimension, and the last index. -/
def flatIndex (dims index : List ℕ) : ℕ :=
  ((List.range (index.length - 1)).map fun n ↦ index.getD n 0 * dims.getD (n + 1) 0).sum +
    index.getD (index.length - 1) 0

/-- The flattened index of an operand, in unsigned arithmetic. -/
def Operand.qInd (rs : List Register) (o : Operand) : ℕ :=
  ((rs.filter (·.name.val = o.reg.val)).map fun r ↦
    flatIndex r.dims (backtraceOperand o.geps)).sum % 2 ^ 32

def Operand.qName (rs : List Register) (o : Operand) : Word := bitName o.reg (o.qInd rs)

/-- The position of a name, or 0 if it is not found. -/
def lookup (B : List Word) (qName : Word) : ℕ :=
  match (B.drop 1).idxOf? qName with
  | some i => i + 1
  | none => 0

/-! ## Building the gate list -/

/-- An argument of a call. The value of an integer is in `valOrIndex`, and that of a double in
`val`. -/
structure qGateArg where
  argPtr : Option Operand
  isParam : Bool
  isDouble : Bool
  valOrIndex : ℤ
  val : ℚ

/-- A quantum operand. -/
def qGateArg.qubit (o : Operand) : qGateArg := ⟨some o, false, false, 0, 0⟩

def qGateArg.int (v : ℤ) : qGateArg := ⟨none, true, false, v, 0⟩

def qGateArg.double (θ : ℚ) : qGateArg := ⟨none, false, true, -1, θ⟩

def qArgs : GateCall Operand → List qGateArg
  | .gate1 _ q | .meas _ q => [.qubit q]
  | .rot _ q θ => [.qubit q, .double θ]
  | .prep _ q v => [.qubit q, .int v]
  | .CNOT c t => [.qubit c, .qubit t]
  | .Toffoli a b t | .Fredkin a b t => [.qubit a, .qubit b, .qubit t]

/-- The kind of a gate: the first fragment that is found in the name of the intrinsic. -/
def gateTy (fName : Ident) : GateTy :=
  -- a part of the name is searched for, so the order of the tests matters
  if find "H.".toList fName then .H
  else if find "CNOT".toList fName then .CNOT
  else if find "Tof".toList fName then .Tof
  else if find "MeasX".toList fName then .MeasX
  else if find "MeasZ".toList fName then .MeasZ
  else if find "PrepX".toList fName then .PrepX
  else if find "PrepZ".toList fName then .PrepZ
  else if find "Sdag".toList fName then .Sdag
  else if find "S.".toList fName then .S
  else if find "T.".toList fName then .T
  else if find "Tdag".toList fName then .Tdag
  else if find "Rz".toList fName then .Rz
  else if find "X.".toList fName then .X
  else if find "Z.".toList fName then .Z
  else .erased

/-- An operand that is found goes to the field for its place among the operands. -/
def OpGate.setOperand (nxtGate : OpGate) (ToC i : ℕ) : OpGate :=
  match nxtGate.gateTy with
  | .CNOT =>
    if ToC = 0 then {nxtGate with control1 := i}
    else if ToC = 1 then {nxtGate with target := i} else nxtGate
  | .Tof =>
    if ToC = 0 then {nxtGate with control1 := i}
    else if ToC = 1 then {nxtGate with control2 := i}
    else if ToC = 2 then {nxtGate with target := i} else nxtGate
  | _ => if ToC = 0 then {nxtGate with target := i} else nxtGate

/-- An argument is added to the gate. A parameter has the value in `val`. -/
def addArg (rs : List Register) (s : OpGate × ℕ) (arg : qGateArg) : OpGate × ℕ :=
  match arg.argPtr with
  | none => if arg.isParam || arg.isDouble then ({s.1 with hasParam := true, param := arg.val}, s.2)
    else s
  | some o => (s.1.setOperand s.2 (lookup (bitMap rs) (o.qName rs)), s.2 + 1)

def nxtGate (rs : List Register) (g : GateCall Operand) : OpGate :=
  ((qArgs g).foldl (addArg rs) (⟨gateTy (g.name fun o ↦ o.ty), 0, 0, 0, false, 0⟩, 0)).1

/-- The gate list. -/
def optimal_initial (P : MainBody) : List OpGate := P.body.map (nxtGate P.registers)

/-! ## Printing -/

/-- The name a gate is printed with. -/
def GateTy.text : GateTy → Word
  | .erased => []
  | .H => "H".toList
  | .CNOT => "CNOT".toList
  | .Tof => "Tof".toList
  | .MeasX => "MeasX".toList
  | .MeasZ => "MeasZ".toList
  | .PrepX => "PrepX".toList
  | .PrepZ => "PrepZ".toList
  | .Sdag => "Sdag".toList
  | .S => "S".toList
  | .T => "T".toList
  | .Tdag => "Tdag".toList
  | .Rz => "Rz".toList
  | .X => "X".toList
  | .Z => "Z".toList

/-- The line for a gate, if it is not erased. -/
def printGate (B : List Word) (g : OpGate) : List Char :=
  if g.gateTy = .erased then []
  else
    g.gateTy.text ++ ' ' ::
      ((if g.control2 > 0 then B.getD g.control2 [] ++ [','] else []) ++
        (if g.control1 > 0 then B.getD g.control1 [] ++ [','] else []) ++
        (if g.target > 0 then B.getD g.target [] else []) ++
        (if g.hasParam then ',' :: showExp g.param else []) ++ ['\n'])

/-- The text: the names of all qubits, and the gates. -/
def listing (P : MainBody) : List Char :=
  ((bitMap P.registers).drop 1).flatMap (fun w ↦ "qubit ".toList ++ w ++ ['\n']) ++
    (optimal_initial P).flatMap (printGate (bitMap P.registers))

/-! ## Reading -/

/-- The gate with the name and the operands. The second control is printed before the first. -/
def gateOf (name : Word) : List Word → Option (GateCall Word)
  | [a] =>
    if name = "H".toList then some (.gate1 .H a)
    else if name = "X".toList then some (.gate1 .X a)
    else if name = "Z".toList then some (.gate1 .Z a)
    else if name = "S".toList then some (.gate1 .S a)
    else if name = "Sdag".toList then some (.gate1 .Sdag a)
    else if name = "T".toList then some (.gate1 .T a)
    else if name = "Tdag".toList then some (.gate1 .Tdag a)
    else if name = "MeasX".toList then some (.meas .x a)
    else if name = "MeasZ".toList then some (.meas .z a)
    else none
  | [a, b] =>
    let v := readDecimal b
    if name = "CNOT".toList then some (.CNOT a b)
    else if name = "Rz".toList then some (.rot .z a v)
    else if v.den ≠ 1 then none
    else if name = "PrepX".toList then some (.prep .x a v.num)
    else if name = "PrepZ".toList then some (.prep .z a v.num)
    else none
  | [a, b, c] => if name = "Tof".toList then some (.Toffoli b a c) else none
  | _ => none

/-- The gate of a line. No operand may be empty. -/
def readGate (name : Word) (ws : List Word) : Option (GateCall Word) :=
  if ws.contains [] then none else gateOf name ws

/-- The gates of a line: none for the name of a qubit. -/
def readLine (l : List Char) : Option (List (GateCall Word)) :=
  let name := l.takeWhile (· ≠ ' ')
  if name = "qubit".toList then some []
  else (splitEnds ',' [] ((l.dropWhile (· ≠ ' ')).drop 1 ++ [','])).bind fun ws ↦
    (readGate name ws).map ([·])

/-- **The gates of a text**, if every line of it is a gate or the name of a qubit. -/
def readListing (cs : List Char) : Option (List (GateCall Word)) :=
  (splitEnds '\n' [] cs).bind fun ls ↦ (ls.mapM readLine).map List.flatten

/-- **The text denotes the gates**: they are those of the text when the words are read as qubits,
each word as another one. -/
def Denotes (cs : List Char) (gates : List (GateCall Qubit)) : Prop :=
  ∃ gs, readListing cs = some gs ∧ ∃ ρ : Word → Qubit,
    Set.InjOn ρ {w | ∃ g ∈ gs, w ∈ g.operands} ∧ gs.map (GateCall.map ρ) = gates

end ScaffCC.Optimize
