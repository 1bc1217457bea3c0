import ScaffCC.IR.Gate
import ScaffCC.OpenQasm.Syntax

/-!
# The meaning of an OpenQASM program

A program acts on the wires its operands name and on a memory of classical bits. From a memory it
has a list of outcomes, one for each sequence of measurement results, each with its operator and the
memory left behind. The gates are those of the header `qelib1.inc`. How a numeral is read as an
angle, and when a comparison of a register with a numeral holds, is left to the reader of the
program.
-/

namespace ScaffCC.OpenQasm

open Quantum

/-- The values of the classical bits. -/
abbrev Memory := Word → Bool

/-- How numerals and conditions are read. -/
structure Reading where
  angle : Word → ℚ
  holds : Memory → Word → Word → Bool

abbrev Outcomes := Memory → List (Op Word ℂ × Memory)

namespace Outcomes

/-- Nothing happens. -/
noncomputable def skip : Outcomes := fun m ↦ [(1, m)]

/-- One after the other. -/
noncomputable def andThen (f g : Outcomes) : Outcomes := fun m ↦
  (f m).flatMap fun r ↦ (g r.2).map fun r' ↦ (r'.1 * r.1, r'.2)

/-- A gate, which leaves the memory alone. -/
noncomputable def ofGate (g : GateCall Word) : Outcomes := fun m ↦
  g.outcomes.map fun A ↦ (A, m)

end Outcomes

/-- The gate a name of the header stands for. -/
def gateCall (R : Reading) (name : Word) (params operands : List Word) : Option (GateCall Word) :=
  match params, operands with
  | [], [q] =>
    if name = "h".toList then some (.gate1 .H q)
    else if name = "x".toList then some (.gate1 .X q)
    else if name = "y".toList then some (.gate1 .Y q)
    else if name = "z".toList then some (.gate1 .Z q)
    else if name = "s".toList then some (.gate1 .S q)
    else if name = "sdg".toList then some (.gate1 .Sdag q)
    else if name = "t".toList then some (.gate1 .T q)
    else if name = "tdg".toList then some (.gate1 .Tdag q)
    else none
  | [θ], [q] =>
    if name = "rx".toList then some (.rot .x q (R.angle θ))
    else if name = "ry".toList then some (.rot .y q (R.angle θ))
    else if name = "rz".toList then some (.rot .z q (R.angle θ))
    else none
  | [], [c, t] => if name = "cx".toList then some (.CNOT c t) else none
  | [], [c₁, c₂, t] => if name = "ccx".toList then some (.Toffoli c₁ c₂ t) else none
  | _, _ => none

/-- The outcomes of a quantum operation. -/
noncomputable def Qop.outcomes (R : Reading) : Qop → Option Outcomes
  | measure q c => some fun m ↦
      [(onWire q (ketBra false false), Function.update m c false),
        (onWire q (ketBra true true), Function.update m c true)]
  | reset q => some (.ofGate (.prep .z q 0))
  | gate name params operands => (gateCall R name params operands).map .ofGate

noncomputable def Statement.outcomes (R : Reading) : Statement → Option Outcomes
  | declare _ _ => some .skip
  | op o => o.outcomes R
  | ifEq c v o => (o.outcomes R).map fun f m ↦ if R.holds m c v then f m else [(1, m)]

/-- **The outcomes of a program**, if it calls only gates of the header. -/
noncomputable def denote (R : Reading) : List Statement → Option Outcomes
  | [] => some .skip
  | s :: ss => (s.outcomes R).bind fun f ↦ (denote R ss).map f.andThen

end ScaffCC.OpenQasm
