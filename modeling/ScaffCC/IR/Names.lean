import ScaffCC.IR.Gate

/-!
# Names of intrinsics

The passes tell gates apart by searching the name of the intrinsic that is called. The name depends
on the gate and on the types of its operands only, so that what a search finds can be checked for
all calls at once, on a list of their shapes.
-/

namespace ScaffCC.GateCall

variable {ι : Type*}

/-- The call with the types of its operands, and its parameters left out. -/
def shape (ty : ι → QTy) : GateCall ι → GateCall QTy
  | gate1 g q => gate1 g (ty q)
  | rot a q _ => rot a (ty q) 0
  | prep b q _ => prep b (ty q) 0
  | meas b q => meas b (ty q)
  | CNOT c t => CNOT (ty c) (ty t)
  | Toffoli c₁ c₂ t => Toffoli (ty c₁) (ty c₂) (ty t)
  | Fredkin c a b => Fredkin (ty c) (ty a) (ty b)

def shapes : List (GateCall QTy) :=
  [.abit, .qbit].flatMap fun t ↦
    [gate1 .H t, gate1 .X t, gate1 .Y t, gate1 .Z t, gate1 .S t, gate1 .Sdag t, gate1 .T t,
      gate1 .Tdag t, rot .x t 0, rot .y t 0, rot .z t 0, prep .x t 0, prep .z t 0, meas .x t,
      meas .z t] ++
    [.abit, .qbit].flatMap fun u ↦
      CNOT t u :: [.abit, .qbit].flatMap fun v ↦ [Toffoli t u v, Fredkin t u v]

theorem shape_mem (ty : ι → QTy) (g : GateCall ι) : g.shape ty ∈ shapes := by
  cases g with
  | gate1 g q => cases g <;> dsimp only [shape] <;> cases ty q <;> decide +kernel
  | rot a q => cases a <;> dsimp only [shape] <;> cases ty q <;> decide +kernel
  | prep b q => cases b <;> dsimp only [shape] <;> cases ty q <;> decide +kernel
  | meas b q => cases b <;> dsimp only [shape] <;> cases ty q <;> decide +kernel
  | CNOT c t =>
    dsimp only [shape]
    cases ty c <;> cases ty t <;> decide +kernel
  | Toffoli a b t | Fredkin a b t =>
    dsimp only [shape]
    cases ty a <;> cases ty b <;> cases ty t <;> decide +kernel

@[simp] theorem name_shape (ty : ι → QTy) (g : GateCall ι) : (g.shape ty).name id = g.name ty := by
  cases g with
  | gate1 g => cases g <;> rfl
  | rot a => cases a <;> rfl
  | prep b => cases b <;> rfl
  | meas b => cases b <;> rfl
  | CNOT | Toffoli | Fredkin => rfl

@[simp] theorem baseName_shape (ty : ι → QTy) (g : GateCall ι) :
    (g.shape ty).baseName = g.baseName := by
  cases g with
  | gate1 g => cases g <;> rfl
  | rot a => cases a <;> rfl
  | prep b => cases b <;> rfl
  | meas b => cases b <;> rfl
  | CNOT | Toffoli | Fredkin => rfl

end ScaffCC.GateCall
