import ScaffCC.OpenQasm.Print

/-!
# The statement a call is printed as

The pass finds out from fragments of the name of an intrinsic which gate it is. The fragments tell
the eighteen gates apart, for all types of the operands.
-/

namespace ScaffCC.OpenQasm

/-- The OpenQASM name of a gate on one operand. -/
def nameOf : Gate1 → Word
  | .H => "h".toList
  | .X => "x".toList
  | .Y => "y".toList
  | .Z => "z".toList
  | .S => "s".toList
  | .Sdag => "sdg".toList
  | .T => "t".toList
  | .Tdag => "tdg".toList

/-- The OpenQASM name of a rotation. -/
def axisName : Axis → Word
  | .x => "rx".toList
  | .y => "ry".toList
  | .z => "rz".toList

/-- The form of a call of a gate. -/
def formOf {ι : Type*} : GateCall ι → Form
  | .gate1 g _ => .gate (nameOf g)
  | .rot a _ _ => .rot (axisName a)
  | .prep b _ _ => .prep b
  | .meas b _ => .meas b
  | .CNOT _ _ => .gate "cx".toList
  | .Toffoli _ _ _ => .gate "ccx".toList
  | .Fredkin _ _ _ => .fredkin

/-- The name of an intrinsic from the types of its operands. -/
def nameWith (base : Ident) (tys : List QTy) : Ident :=
  "llvm.".toList ++ base ++ (tys.map GateCall.tySuffix).flatten

theorem name_eq (g : GateCall DataRepresentation) :
    g.name DataRepresentation.ty = nameWith g.baseName (g.operands.map DataRepresentation.ty) := by
  have h : (g.operands.map DataRepresentation.ty).map GateCall.tySuffix
      = g.operands.map (GateCall.tySuffix ∘ DataRepresentation.ty) := List.map_map ..
  exact congrArg ("llvm.".toList ++ g.baseName ++ ·.flatten) h.symm

private theorem form_gate1 (g : Gate1) (ty : QTy) :
    form (stripLlvm (nameWith (GateCall.gate1 g ()).baseName [ty])) = .gate (nameOf g) := by
  cases g <;> cases ty <;> decide +kernel

private theorem form_rot (a : Axis) (ty : QTy) :
    form (stripLlvm (nameWith (GateCall.rot a () 0).baseName [ty])) = .rot (axisName a) := by
  cases a <;> cases ty <;> decide +kernel

private theorem form_prep (b : Basis) (ty : QTy) :
    form (stripLlvm (nameWith (GateCall.prep b () 0).baseName [ty])) = .prep b := by
  cases b <;> cases ty <;> decide +kernel

private theorem form_meas (b : Basis) (ty : QTy) :
    form (stripLlvm (nameWith (GateCall.meas b ()).baseName [ty])) = .meas b := by
  cases b <;> cases ty <;> decide +kernel

private theorem form_CNOT (t₁ t₂ : QTy) :
    form (stripLlvm (nameWith (GateCall.CNOT () ()).baseName [t₁, t₂])) = .gate "cx".toList := by
  cases t₁ <;> cases t₂ <;> decide +kernel

private theorem form_Toffoli (t₁ t₂ t₃ : QTy) :
    form (stripLlvm (nameWith (GateCall.Toffoli () () ()).baseName [t₁, t₂, t₃]))
      = .gate "ccx".toList := by
  cases t₁ <;> cases t₂ <;> cases t₃ <;> decide +kernel

private theorem form_Fredkin (t₁ t₂ t₃ : QTy) :
    form (stripLlvm (nameWith (GateCall.Fredkin () () ()).baseName [t₁, t₂, t₃])) = .fredkin := by
  cases t₁ <;> cases t₂ <;> cases t₃ <;> decide +kernel

/-- **The chain of searches finds the gate out.** -/
theorem form_fToPrint (call : FnCall) : form call.fToPrint = formOf call.gate := by
  rw [FnCall.fToPrint, name_eq]
  cases call.gate with
  | gate1 g q =>
    have hbase : (GateCall.gate1 g q).baseName = (GateCall.gate1 g ()).baseName := by
      cases g <;> rfl
    rw [hbase]
    exact form_gate1 g q.ty
  | rot a q θ =>
    have hbase : (GateCall.rot a q θ).baseName = (GateCall.rot a () 0).baseName := by
      cases a <;> rfl
    rw [hbase]
    exact form_rot a q.ty
  | prep b q v =>
    have hbase : (GateCall.prep b q v).baseName = (GateCall.prep b () 0).baseName := by
      cases b <;> rfl
    rw [hbase]
    exact form_prep b q.ty
  | meas b q =>
    have hbase : (GateCall.meas b q).baseName = (GateCall.meas b ()).baseName := by
      cases b <;> rfl
    rw [hbase]
    exact form_meas b q.ty
  | CNOT c t => exact form_CNOT c.ty t.ty
  | Toffoli c₁ c₂ t => exact form_Toffoli c₁.ty c₂.ty t.ty
  | Fredkin c a b => exact form_Fredkin c.ty a.ty b.ty

end ScaffCC.OpenQasm
