import ScaffCC.Quantum.Circuit
import ScaffCC.Quantum.Gate

/-!
# Gate intrinsics

The eighteen quantum gates the compiler knows are LLVM intrinsics, `llvm.CNOT`, `llvm.H` and so on,
each overloaded on the types of its quantum operands. A call of one carries its operands and, for
the rotations, a double angle, and for the preparations an integer. Doubles are rational numbers
here: every finite double is one.

The operands are taken from an arbitrary type, so that one syntax serves function bodies, where an
operand is an expression in the parameters, and flattened circuits, where it is a wire.
-/

namespace ScaffCC

open Quantum

/-- Names of functions and of intrinsics. -/
abbrev Ident := List Char

/-- The two types of quantum operand: `i8` for an ancilla bit and `i16` for a qubit. -/
inductive QTy
  | abit
  | qbit
  deriving DecidableEq, Repr

/-- The gates on one operand without a classical argument or a result. -/
inductive Gate1
  | H
  | X
  | Y
  | Z
  | S
  | Sdag
  | T
  | Tdag
  deriving DecidableEq, Repr

/-- The axis of a rotation `Rx`, `Ry` or `Rz`. -/
inductive Axis
  | x
  | y
  | z
  deriving DecidableEq, Repr

/-- The basis of a preparation or a measurement. -/
inductive Basis
  | x
  | z
  deriving DecidableEq, Repr

/-- A call of a gate intrinsic with operands of type `ι`. -/
inductive GateCall (ι : Type*)
  | gate1 (g : Gate1) (q : ι)
  | rot (a : Axis) (q : ι) (angle : ℚ)
  | prep (b : Basis) (q : ι) (value : ℤ)
  | meas (b : Basis) (q : ι)
  | CNOT (control target : ι)
  | Toffoli (control1 control2 target : ι)
  | Fredkin (control a b : ι)
  deriving DecidableEq, Repr

namespace GateCall

variable {ι κ : Type*}

/-- The call with every operand replaced. -/
def map (f : ι → κ) : GateCall ι → GateCall κ
  | gate1 g q => gate1 g (f q)
  | rot a q θ => rot a (f q) θ
  | prep b q v => prep b (f q) v
  | meas b q => meas b (f q)
  | CNOT c t => CNOT (f c) (f t)
  | Toffoli c₁ c₂ t => Toffoli (f c₁) (f c₂) (f t)
  | Fredkin c a b => Fredkin (f c) (f a) (f b)

/-- The quantum operands, in the order of the call. -/
def operands : GateCall ι → List ι
  | gate1 _ q | rot _ q _ | prep _ q _ | meas _ q => [q]
  | CNOT c t => [c, t]
  | Toffoli c₁ c₂ t => [c₁, c₂, t]
  | Fredkin c a b => [c, a, b]

@[simp] theorem operands_map (f : ι → κ) (g : GateCall ι) :
    (g.map f).operands = g.operands.map f := by
  cases g <;> rfl

theorem map_map {μ : Type*} (f : ι → κ) (f' : κ → μ) (g : GateCall ι) :
    (g.map f).map f' = g.map (f' ∘ f) := by
  cases g <;> rfl

theorem map_congr {f f' : ι → κ} {g : GateCall ι} (h : ∀ q ∈ g.operands, f q = f' q) :
    g.map f = g.map f' := by
  cases g <;> simp_all [map, operands]

/-! ## Names -/

/-- The name of the gate in the source, `llvm.` and the operand types left out. -/
def baseName : GateCall ι → Ident
  | gate1 .H _ => "H".toList
  | gate1 .X _ => "X".toList
  | gate1 .Y _ => "Y".toList
  | gate1 .Z _ => "Z".toList
  | gate1 .S _ => "S".toList
  | gate1 .Sdag _ => "Sdag".toList
  | gate1 .T _ => "T".toList
  | gate1 .Tdag _ => "Tdag".toList
  | rot .x _ _ => "Rx".toList
  | rot .y _ _ => "Ry".toList
  | rot .z _ _ => "Rz".toList
  | prep .x _ _ => "PrepX".toList
  | prep .z _ _ => "PrepZ".toList
  | meas .x _ => "MeasX".toList
  | meas .z _ => "MeasZ".toList
  | CNOT _ _ => "CNOT".toList
  | Toffoli _ _ _ => "Toffoli".toList
  | Fredkin _ _ _ => "Fredkin".toList

/-- The suffix an overloaded intrinsic gets for an operand of the type. -/
def tySuffix : QTy → Ident
  | .abit => ".i8".toList
  | .qbit => ".i16".toList

/-- The full name of the intrinsic called, given the types of the operands. -/
def name (ty : ι → QTy) (g : GateCall ι) : Ident :=
  "llvm.".toList ++ g.baseName ++ (g.operands.map (tySuffix ∘ ty)).flatten

/-! ## Meaning -/

end GateCall

noncomputable def Gate1.matrix : Gate1 → Matrix Bool Bool ℂ
  | .H => hadamard
  | .X => pauliX
  | .Y => pauliY
  | .Z => phase (-1)
  | .S => phase Complex.I
  | .Sdag => phase Complex.I⁻¹
  | .T => phase omega8
  | .Tdag => phase omega8⁻¹

/-- The matrix of a rotation by a double angle. -/
noncomputable def Axis.matrix (θ : ℚ) : Axis → Matrix Bool Bool ℂ
  | .x => rotX θ
  | .y => rotY θ
  | .z => rotZ θ

noncomputable def Basis.matrix : Basis → Matrix Bool Bool ℂ
  | .x => hadamard
  | .z => 1

namespace GateCall

variable {ι : Type*} [DecidableEq ι]

/-- The operators of the outcomes of a call. A measurement has an operator for each result, and a
preparation one for each value it may find and overwrite; every other call has one. -/
noncomputable def outcomes : GateCall ι → List (Op ι ℂ)
  | gate1 g q => [onWire q g.matrix]
  | rot a q θ => [onWire q (a.matrix θ)]
  | prep b q v => [onWire q (b.matrix * ketBra (v != 0) false),
      onWire q (b.matrix * ketBra (v != 0) true)]
  | meas b q => [onWire q (b.matrix * ketBra false false * b.matrix),
      onWire q (b.matrix * ketBra true true * b.matrix)]
  | CNOT c t => [flip ℂ t fun x ↦ x c]
  | Toffoli c₁ c₂ t => [flip ℂ t fun x ↦ x c₁ && x c₂]
  | Fredkin c a b => [exchange ℂ a b fun x ↦ x c]

end GateCall

/-- The operators of the outcomes of a circuit on the wires `ι`. -/
noncomputable def circuit {ι : Type*} [DecidableEq ι] (C : List (GateCall ι)) : List (Op ι ℂ) :=
  run GateCall.outcomes C

/-! ## Gates with one outcome -/

namespace GateCall

variable {ι : Type*}

/-- The calls other than preparations and measurements. -/
def IsUnitary : GateCall ι → Prop
  | prep _ _ _ | meas _ _ => False
  | _ => True

theorem isUnitary_map {κ : Type*} {f : ι → κ} {g : GateCall ι} :
    (g.map f).IsUnitary ↔ g.IsUnitary := by
  cases g <;> rfl

variable [DecidableEq ι]

/-- The operator of a call with one outcome. -/
noncomputable def operator : GateCall ι → Op ι ℂ
  | gate1 g q => onWire q g.matrix
  | rot a q θ => onWire q (a.matrix θ)
  | prep _ _ _ | meas _ _ => 1
  | CNOT c t => flip ℂ t fun x ↦ x c
  | Toffoli c₁ c₂ t => flip ℂ t fun x ↦ x c₁ && x c₂
  | Fredkin c a b => exchange ℂ a b fun x ↦ x c

theorem outcomes_of_isUnitary {g : GateCall ι} (h : g.IsUnitary) : g.outcomes = [g.operator] := by
  cases g <;> first | rfl | exact h.elim

theorem circuit_of_isUnitary {C : List (GateCall ι)} (h : ∀ g ∈ C, g.IsUnitary) :
    circuit C = [compose operator C] :=
  run_eq_compose fun g hg ↦ outcomes_of_isUnitary (h g hg)

end GateCall

end ScaffCC
