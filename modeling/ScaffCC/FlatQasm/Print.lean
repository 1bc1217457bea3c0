import ScaffCC.IR.Gate
import ScaffCC.OpenQasm.Syntax
import ScaffCC.Text.Decimal

/-!
# Flat QASM

The hierarchical program is turned into a C program whose gates are functions that print a line
each, with the operands as they are given. An inverse phase is printed as three phases, a
preparation of the value one as a preparation and a bit flip, and an angle with six decimals.

A text is read line by line: a name, a space, and operands with commas between them.
-/

namespace ScaffCC.FlatQasm

open OpenQasm (Word)
open Text

/-! ## Printing -/

/-- Operands with commas between them. -/
def printOperands : List Word → List Char
  | [] => []
  | [w] => w
  | w :: ws => w ++ ',' :: printOperands ws

/-- A line: a name and operands. -/
def line (name : Word) (ws : List Word) : List Char :=
  name ++ ' ' :: (printOperands ws ++ ['\n'])

/-- The names the gates are printed with. -/
def gateNames (g : GateCall Word) : Word :=
  match g with
  | .Toffoli _ _ _ => "Tof".toList
  | g => g.baseName

/-- What the function for a gate prints. -/
def qg (g : GateCall Word) : List Char :=
  match g with
  | .gate1 .Sdag a => line "S".toList [a] ++ (line "S".toList [a] ++ line "S".toList [a])
  | .gate1 _ a | .meas _ a => line (gateNames g) [a]
  | .CNOT a b => line (gateNames g) [a, b]
  | .Toffoli a b c | .Fredkin a b c => line (gateNames g) [a, b, c]
  | .prep _ a i => line (gateNames g) [a] ++ if i = 1 then line "X".toList [a] else []
  | .rot _ a b => line (gateNames g) [a, showFixed b]

/-! ## Reading -/

/-- The parts of a text that are ended by a character, after what was read since the last one. The
text has to end with the character. -/
def splitEnds (sep : Char) (w : List Char) : List Char → Option (List (List Char))
  | [] => if w = [] then some [] else none
  | c :: cs => if c = sep then (splitEnds sep [] cs).map (w :: ·) else splitEnds sep (w ++ [c]) cs

/-- The gate of a line with the name and the operands. -/
def readGate (name : Word) (ws : List Word) : Option (GateCall Word) :=
  match ws with
  | [a] =>
    if name = "H".toList then some (.gate1 .H a)
    else if name = "X".toList then some (.gate1 .X a)
    else if name = "Y".toList then some (.gate1 .Y a)
    else if name = "Z".toList then some (.gate1 .Z a)
    else if name = "S".toList then some (.gate1 .S a)
    else if name = "T".toList then some (.gate1 .T a)
    else if name = "Tdag".toList then some (.gate1 .Tdag a)
    else if name = "PrepX".toList then some (.prep .x a 0)
    else if name = "PrepZ".toList then some (.prep .z a 0)
    else if name = "MeasX".toList then some (.meas .x a)
    else if name = "MeasZ".toList then some (.meas .z a)
    else none
  | [a, b] =>
    if name = "CNOT".toList then some (.CNOT a b)
    else if name = "Rx".toList then some (.rot .x a (readDecimal b))
    else if name = "Ry".toList then some (.rot .y a (readDecimal b))
    else if name = "Rz".toList then some (.rot .z a (readDecimal b))
    else none
  | [a, b, c] =>
    if name = "Tof".toList then some (.Toffoli a b c)
    else if name = "Fredkin".toList then some (.Fredkin a b c)
    else none
  | _ => none

def readLine (l : List Char) : Option (GateCall Word) :=
  (splitEnds ',' [] ((l.dropWhile (· ≠ ' ')).drop 1 ++ [','])).bind
    (readGate (l.takeWhile (· ≠ ' ')))

variable {sep : Char} {u w : List Char}

theorem splitEnds_append (hw : sep ∉ w) (u cs : List Char) :
    splitEnds sep u (w ++ sep :: cs) = (splitEnds sep [] cs).map ((u ++ w) :: ·) := by
  induction w generalizing u with
  | nil => rw [List.nil_append, splitEnds, if_pos rfl, List.append_nil]
  | cons c w ih =>
    rw [List.mem_cons, not_or] at hw
    rw [List.cons_append, splitEnds, if_neg (Ne.symm hw.1), ih hw.2, List.append_assoc,
      List.singleton_append]

theorem splitEnds_operands {ws : List Word} (hne : ws ≠ []) (hws : ∀ w ∈ ws, ',' ∉ w) :
    splitEnds ',' [] (printOperands ws ++ [',']) = some ws := by
  induction ws with
  | nil => exact absurd rfl hne
  | cons w ws ih =>
    obtain ⟨hw, hws⟩ := List.forall_mem_cons.mp hws
    cases ws with
    | nil => exact splitEnds_append hw [] []
    | cons w' ws =>
      rw [printOperands, List.append_assoc, List.cons_append, splitEnds_append hw, ih _ hws]
      · rfl
      · exact List.cons_ne_nil _ _
      · exact List.cons_ne_nil _ _

/-- An operand that may stand in a line. -/
def IsOperand (w : Word) : Prop := ',' ∉ w ∧ '\n' ∉ w

theorem notMem_newline {ws : List Word} (hws : ∀ w ∈ ws, IsOperand w) :
    '\n' ∉ printOperands ws := by
  induction ws with
  | nil => exact List.not_mem_nil
  | cons w ws ih =>
    obtain ⟨hw, hws⟩ := List.forall_mem_cons.mp hws
    cases ws with
    | nil => exact hw.2
    | cons w' ws =>
      rw [printOperands, List.mem_append, List.mem_cons, not_or, not_or]
      · exact ⟨hw.2, by decide, ih hws⟩
      · exact List.cons_ne_nil _ _

end ScaffCC.FlatQasm
