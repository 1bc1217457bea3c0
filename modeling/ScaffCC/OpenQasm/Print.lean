import ScaffCC.IR.Gate
import ScaffCC.OpenQasm.Syntax
import ScaffCC.Text.Numeral

/-!
# Printing OpenQASM

The pass prints the flattened `main`: its registers, and then its basic blocks, each a list of calls
of gate intrinsics and possibly a condition for what comes after it. Which statement a call becomes
is found out from the name of the intrinsic, by a chain of searches for fragments of it.

With the option `UnrollToff` the Toffoli gate inside a Fredkin gate is printed as gates on one and
two operands, one on a line.
-/

namespace ScaffCC.OpenQasm

open Text

/-! ## Registers -/

/-- The name of a register: an identifier, in which LLVM may have put dots. -/
structure RegName where
  val : Word
  ne_nil : val ≠ []
  ident : ∀ c ∈ val, c.isAlphanum ∨ c = '_' ∨ c = '.'

def replaceDots (w : Word) : Word :=
  w.map fun c ↦ if c = '.' then '_' else c

/-- A quantum operand or a classical destination, as traced back to its register. -/
structure DataRepresentation where
  name : RegName
  ty : QTy
  isPtr : Bool
  index : List ℤ

namespace DataRepresentation

/-- A quantum operand. The indices are in the reverse order, and a register without one is a
register of one bit. -/
def qbitVarString (d : DataRepresentation) : Word :=
  replaceDots (d.name.val ++
    if d.isPtr then []
    else (d.index.tail.reverse.flatMap fun i ↦ 'x' :: showInt i) ++
      '[' :: (showInt (d.index.headD 0) ++ [']']))

/-- A classical destination. -/
def cbitVarString (d : DataRepresentation) : Word :=
  replaceDots (d.name.val ++
    if d.isPtr then []
    else (d.index.dropLast.flatMap fun i ↦ 'x' :: showInt i) ++
      '[' :: (showInt (d.index.getLastD 0) ++ [']']))

/-- The register a condition looks at. -/
def cbitArrayString (d : DataRepresentation) : Word :=
  d.name.val ++
    if !d.isPtr && 1 < d.index.length then d.index.flatMap fun i ↦ 'x' :: showInt i else []

end DataRepresentation

/-- An argument of a call. -/
inductive QArg
  | reg (d : DataRepresentation)
  | intVal (z : ℤ)
  | doubleVal (q : ℚ)

namespace QArg

/-- The operand, as a measurement prints it. A constant has the empty name. -/
def measureString : QArg → Word
  | reg d => d.qbitVarString
  | intVal _ | doubleVal _ => "[0]".toList

/-- The operand, as the other gates print it: they clear `isPtr` first. -/
def varString : QArg → Word
  | reg d => { d with isPtr := false }.qbitVarString
  | intVal _ | doubleVal _ => "[0]".toList

/-- The text of a classical argument. -/
def valString : QArg → List Char
  | reg _ => []
  | intVal z => ' ' :: (showInt z ++ [' '])
  | doubleVal q => ' ' :: (showDouble q ++ [' '])

/-- The integer of a classical argument. -/
def intValue : QArg → ℤ
  | intVal z => z
  | reg _ | doubleVal _ => 0

end QArg

/-! ## Operands are words -/

theorem RegName.isWord (n : RegName) : IsWord n.val := by
  refine ⟨n.ne_nil, fun c hc ↦ ?_⟩
  rcases n.ident c hc with h | rfl | rfl
  exacts [separator_of_isAlphanum h, rfl, rfl]

theorem isWord_replaceDots {w : Word} (h : IsWord w) : IsWord (replaceDots w) := by
  refine ⟨fun hnil ↦ h.ne_nil (List.map_eq_nil_iff.mp hnil), fun c hc ↦ ?_⟩
  obtain ⟨c', hc', rfl⟩ := List.mem_map.mp hc
  split_ifs
  exacts [rfl, h.plain c' hc']

theorem plain_showInt {z : ℤ} {c : Char} (hc : c ∈ showInt z) : separator c = none := by
  rcases mem_showInt hc with h | rfl
  · exact separator_of_isAlphanum (Bool.or_eq_true_iff.mpr (.inr h))
  · rfl

theorem isWord_showInt (z : ℤ) : IsWord (showInt z) :=
  ⟨showInt_ne_nil z, fun _ ↦ plain_showInt⟩

theorem plain_showDouble {q : ℚ} {c : Char} (hc : c ∈ showDouble q) : separator c = none := by
  rcases mem_showDouble hc with h | rfl | rfl | rfl | rfl
  · exact separator_of_isAlphanum (Bool.or_eq_true_iff.mpr (.inr h))
  all_goals rfl

theorem isWord_showDouble (q : ℚ) : IsWord (showDouble q) :=
  ⟨showDouble_ne_nil q, fun _ ↦ plain_showDouble⟩

theorem plain_counts {is : List ℤ} {c : Char} (hc : c ∈ is.flatMap fun i ↦ 'x' :: showInt i) :
    separator c = none := by
  obtain ⟨i, -, hc⟩ := List.mem_flatMap.mp hc
  rcases List.mem_cons.mp hc with rfl | hc
  exacts [rfl, plain_showInt hc]

theorem plain_index {is : List ℤ} {i : ℤ} {c : Char}
    (hc : c ∈ (is.flatMap fun i ↦ 'x' :: showInt i) ++ '[' :: (showInt i ++ [']'])) :
    separator c = none := by
  rcases List.mem_append.mp hc with hc | hc
  · exact plain_counts hc
  · rcases List.mem_cons.mp hc with rfl | hc
    · rfl
    · rcases List.mem_append.mp hc with hc | hc
      · exact plain_showInt hc
      · obtain rfl := List.mem_singleton.mp hc
        rfl

namespace DataRepresentation

variable (d : DataRepresentation)

theorem isWord_qbitVarString : IsWord d.qbitVarString := by
  refine isWord_replaceDots (d.name.isWord.append_left fun c hc ↦ ?_)
  split_ifs at hc
  exacts [absurd hc List.not_mem_nil, plain_index hc]

theorem isWord_cbitVarString : IsWord d.cbitVarString := by
  refine isWord_replaceDots (d.name.isWord.append_left fun c hc ↦ ?_)
  split_ifs at hc
  exacts [absurd hc List.not_mem_nil, plain_index hc]

theorem isWord_cbitArrayString : IsWord d.cbitArrayString := by
  refine d.name.isWord.append_left fun c hc ↦ ?_
  split_ifs at hc
  exacts [plain_counts hc, absurd hc List.not_mem_nil]

end DataRepresentation

theorem QArg.isWord_measureString (a : QArg) : IsWord a.measureString := by
  cases a with
  | reg d => exact d.isWord_qbitVarString
  | intVal z => exact (by decide : IsWord "[0]".toList)
  | doubleVal q => exact (by decide : IsWord "[0]".toList)

theorem QArg.isWord_varString (a : QArg) : IsWord a.varString := by
  cases a with
  | reg d => exact DataRepresentation.isWord_qbitVarString _
  | intVal z => exact (by decide : IsWord "[0]".toList)
  | doubleVal q => exact (by decide : IsWord "[0]".toList)

/-! ## Calls -/

/-- A call, with the destination of its result if `store_cbit` was called on it. -/
structure FnCall where
  gate : GateCall DataRepresentation
  rtn : Option DataRepresentation

def FnCall.qArgs (call : FnCall) : List QArg :=
  call.gate.operands.map .reg ++
    match call.gate with
    | .prep _ _ v => [.intVal v]
    | .rot _ _ θ => [.doubleVal θ]
    | _ => []

def FnCall.arg (call : FnCall) (i : ℕ) : Word :=
  (call.qArgs[i]?).elim [] QArg.varString

/-- The last argument. -/
def FnCall.back (call : FnCall) : QArg :=
  call.qArgs.getLastD (.intVal 0)

/-- A search for a fragment of a name. -/
def find (fragment : Word) : Word → Bool
  | [] => fragment.isPrefixOf []
  | c :: cs => fragment.isPrefixOf (c :: cs) || find fragment cs

/-- A name without `llvm.`. -/
def stripLlvm (name : Ident) : Word :=
  if find "llvm.".toList name then name.drop 5 else name

/-- The name of the function called. -/
def FnCall.fToPrint (call : FnCall) : Word :=
  stripLlvm (call.gate.name DataRepresentation.ty)

/-- What a call is printed as. -/
inductive Form
  | meas (b : Basis)
  | prep (b : Basis)
  | fredkin
  | rot (name : Word)
  | gate (name : Word)
  deriving DecidableEq

/-- The OpenQASM name of a gate that needs no special work. -/
def gateName (f : Word) : Word :=
  let f :=
    if find "CNOT".toList f then "cx".toList
    else if find "Toffoli.".toList f then "ccx".toList
    else if find "H.".toList f then "h".toList
    else if find "S.".toList f then "s".toList
    else if find "T.".toList f then "t".toList
    else if find "Sdag".toList f then "sdg".toList
    else if find "Tdag".toList f then "tdg".toList
    else if find "X.".toList f then "x".toList
    else if find "Y.".toList f then "y".toList
    else if find "Z.".toList f then "z".toList
    else f
  f.map fun c ↦ if c = '.' || c = '-' then '_' else c

def rotName (f : Word) : Word :=
  if f.take 2 = "Rx".toList then "rx".toList
  else if f.take 2 = "Ry".toList then "ry".toList
  else if f.take 2 = "Rz".toList then "rz".toList
  else f

/-- The form of a call of the function. -/
def form (f : Word) : Form :=
  if find "MeasX".toList f then .meas .x
  else if find "MeasZ".toList f then .meas .z
  else if find "Prep".toList f then
    if find "PrepX".toList f then .prep .x else .prep .z
  else if find "Fredkin".toList f then .fredkin
  else
    let r := rotName f
    if find "rx".toList r || find "ry".toList r || find "rz".toList r then .rot r
    else .gate (gateName r)

/-- A statement with one operand. -/
def stmt1 (g : String) (q : Word) : List Char :=
  g.toList ++ (q ++ ";\n".toList)

/-- A line of the unrolled Toffoli gate with one operand. -/
def line1 (g : String) (q : Word) : List Char :=
  g.toList ++ (q ++ "\n".toList)

/-- A line of the unrolled Toffoli gate with two operands. -/
def line2 (g : String) (q r : Word) : List Char :=
  g.toList ++ (q ++ (",  ".toList ++ (r ++ "\n".toList)))

/-- The Toffoli gate inside a Fredkin gate, unrolled. -/
def unrolled (q₀ q₁ q₂ : Word) : List Char :=
  line1 "h " q₂ ++ (line2 "cx " q₁ q₂ ++ (line1 "tdg " q₂ ++ (line2 "cx " q₀ q₂ ++
    (line1 "t " q₂ ++ (line2 "cx " q₁ q₂ ++ (line1 "tdg " q₂ ++ (line2 "cx " q₀ q₂ ++
    (line1 "t " q₁ ++ (line1 "t " q₂ ++ (line1 "h " q₂ ++ (line2 "cx " q₀ q₁ ++
    (line1 "t " q₀ ++ line1 "tdg " q₁))))))))))))

def operandString : List Word → List Char
  | [] => []
  | [w] => w
  | w :: ws => w ++ (", ".toList ++ operandString ws)

/-- A statement that calls a gate. -/
def stmt (g : Word) (ws : List Word) : List Char :=
  g ++ (" ".toList ++ (operandString ws ++ ";\n".toList))

/-- The text of a call. A measurement whose result is not stored gets no destination. -/
def genCall (unrollToff : Bool) (call : FnCall) : List Char :=
  let q := call.arg
  match form call.fToPrint with
  | .meas b =>
    let front := (call.qArgs.head?).elim [] QArg.measureString
    (if b = .x then stmt1 "h " front else []) ++ ("measure ".toList ++ (front ++ (" -> ".toList ++
      match call.rtn with
      | some c => c.cbitVarString ++ ";\n".toList
      | none => [])))
  | .prep b =>
    stmt1 "reset " (q 0) ++ ((if call.back.intValue = 1 then stmt1 "x " (q 0) else []) ++
      if b = .x then stmt1 "h " (q 0) else [])
  | .fredkin =>
    stmt "cx".toList [q 2, q 1] ++
      ((if unrollToff then unrolled (q 0) (q 1) (q 2) else stmt "ccx".toList [q 0, q 1, q 2]) ++
        stmt "cx".toList [q 2, q 1])
  | .rot r => r ++ ("(".toList ++ (call.back.valString ++ (") ".toList ++ (q 0 ++ ";\n".toList))))
  | .gate g => stmt g (call.qArgs.map QArg.varString)

/-! ## Programs -/

/-- A basic block: its calls, and the register and the value of the condition of its branch. -/
structure Block where
  calls : List FnCall
  cond : Option (DataRepresentation × ℤ)

def genQASM_block (unrollToff : Bool) (b : Block) : List Char :=
  b.calls.flatMap (genCall unrollToff) ++
    match b.cond with
    | none => []
    | some (c, v) => "if(".toList ++ (c.cbitArrayString ++ (" ==".toList ++
        ((QArg.intVal v).valString ++ ") ".toList)))

/-- A register of `main`, with the sizes of its outer dimensions and of the last one. -/
structure Register where
  name : RegName
  quantum : Bool
  isPtr : Bool
  outer : List ℕ
  last : ℕ
  pos : 0 < last

def Register.dimSize (r : Register) : List ℕ :=
  r.outer ++ [r.last]

/-- A declaration of `size` bits. -/
def declaration (keyword : String) (name : Word) (count : List ℤ) (size : ℕ) : List Char :=
  keyword.toList ++ ((replaceDots name ++ ((count.flatMap fun i ↦ 'x' :: showInt i) ++
    '[' :: (showInt size ++ [']']))) ++ ";\n".toList)

/-- The count goes up at `j` as long as it is below the bound, and then `j` goes down. -/
def nextCount (bound : ℤ) (count : List ℤ) (j : ℤ) : List ℤ × ℤ :=
  let c := count.getD j.toNat 0
  if c < bound then (count.set j.toNat (c + 1), j) else (count, j - 1)

/-- The declarations for a quantum register, one for each value of the outer dimensions. -/
def genQregs (r : Register) : ℕ → List ℤ × ℤ → List Char
  | 0, _ => []
  | n + 1, (count, j) =>
    if 0 ≤ j then
      declaration "qreg " r.name.val (count.take r.outer.length) r.last ++
        genQregs r n (nextCount (r.dimSize.getD j.toNat 0 - 1) count j)
    else declaration "qreg " r.name.val [] r.last ++ genQregs r n (count, j)

/-- The declarations for a classical register. -/
def genCregs (r : Register) : ℕ → List ℤ × ℤ → List Char
  | 0, _ => []
  | n + 1, (count, j) =>
    declaration "creg " r.name.val (count.take r.outer.length) r.last ++
      genCregs r n (nextCount (r.dimSize.getD j.toNat 0) count j)

def genReg (r : Register) : List Char :=
  let num := r.dimSize.prod
  let count := List.replicate r.dimSize.length 0
  if r.quantum then genQregs r (num / r.last) (count, (r.dimSize.length : ℤ) - 2)
  else if r.isPtr then declaration "creg " r.name.val [] num
  else genCregs r (num / r.last) (count, (r.dimSize.length : ℤ) - 1)

/-- The flattened `main`. -/
structure Program where
  registers : List Register
  blocks : List Block

/-- The text of the program, with or without the option `UnrollToff`. -/
def runOnModule (unrollToff : Bool) (P : Program) : List Char :=
  "OPENQASM 2.0;\n".toList ++ ("include \"qelib1.inc\";\n".toList ++
    (P.registers.flatMap genReg ++ P.blocks.flatMap (genQASM_block unrollToff)))

end ScaffCC.OpenQasm
