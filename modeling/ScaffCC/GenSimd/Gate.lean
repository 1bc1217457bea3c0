import ScaffCC.IR.Gate
import ScaffCC.Scheduling.LastUse

/-!
# Gates of a leaf function

The pass schedules a leaf function, one that calls only gate intrinsics, at the level of single
gates. Every region of a timestep runs one type of gate. The type is found from the name of the
intrinsic, which carries the types of its operands: a chain of searches for fragments of names gives
a short name, and the short name is looked up in a table.

The chain has no test that succeeds on `Y` or on a rotation. The tests for rotations look at the
first two characters, where every name has `ll`. These names stay as they are, and are not in the
table.
-/

open Scheduling

namespace ScaffCC.GenSimd

/-! ## Types of gates -/

/-- The numbers given to the gates. -/
inductive GateType
  | CNOT
  | H
  | S
  | T
  | X
  | Y
  | Z
  | MeasX
  | MeasZ
  | PrepX
  | PrepZ
  | Tdag
  | Sdag
  | Rx
  | Ry
  | Rz
  | Toffoli
  | Fredkin
  | All
  deriving DecidableEq, Repr

/-- The numbers by name. -/
def gate_index : List (Ident × GateType) :=
  [("CNOT".toList, .CNOT), ("H".toList, .H), ("S".toList, .S), ("T".toList, .T),
    ("Toffoli".toList, .Toffoli), ("X".toList, .X), ("Y".toList, .Y), ("Z".toList, .Z),
    ("Sdag".toList, .Sdag), ("Tdag".toList, .Tdag), ("MeasX".toList, .MeasX),
    ("MeasZ".toList, .MeasZ), ("PrepX".toList, .PrepX), ("PrepZ".toList, .PrepZ),
    ("Fredkin".toList, .Fredkin), ("Rx".toList, .Rx), ("Ry".toList, .Ry), ("Rz".toList, .Rz),
    ("All".toList, .All)]

/-- Whether a text occurs in a name. -/
def found (text : String) (name : Ident) : Bool := name.tails.any fun rest ↦
  text.toList.isPrefixOf rest

def intrinsic_overloaded_name (name : Ident) : Ident :=
  if found "CNOT.i" name then "CNOT".toList
  else if found "NOT.i" name then "X".toList
  else if found "Toffoli.i" name then "Toffoli".toList
  else if found "MeasX." name then "MeasX".toList
  else if found "MeasZ." name then "MeasZ".toList
  else if found "H.i" name then "H".toList
  else if found "Fredkin.i" name then "Fredkin".toList
  else if found "PrepX." name then "PrepX".toList
  else if found "PrepZ." name then "PrepZ".toList
  else if name.take 2 = "Rx".toList then "Rx".toList
  else if name.take 2 = "Ry".toList then "Ry".toList
  else if name.take 2 = "Rz".toList then "Rz".toList
  else if found "S." name then "S".toList
  else if found "T." name then "T".toList
  else if found "Sdag." name then "Sdag".toList
  else if found "Tdag." name then "Tdag".toList
  else if found "X." name then "X".toList
  else if found "Z." name then "Z".toList
  else name

/-- The type of gate that an intrinsic is, if it is found. -/
def funcIndex (name : Ident) : Option GateType :=
  (gate_index.find? fun entry ↦ entry.1 = intrinsic_overloaded_name name).map Prod.snd

/-! ## Leaf functions -/

/-- An operand names an argument or an array, and has the index of an element unless it is a
pointer, which stands for the whole array. -/
structure Operand where
  name : Ident
  ty : QTy
  index : Option ℕ
  deriving DecidableEq, Repr

def Operand.access (q : Operand) : Access Ident ℕ := (q.name, q.index)

/-- What a gate uses. -/
def accesses (g : GateCall Operand) : List (Access Ident ℕ) := g.operands.map Operand.access

/-- The name of the intrinsic that is called. -/
def fname (g : GateCall Operand) : Ident := g.name Operand.ty

/-- Whether a gate is a measurement. -/
def isMeas (g : GateCall Operand) : Bool :=
  found "llvm.MeasX" (fname g) || found "llvm.MeasZ" (fname g)

/-- The body of a leaf function, with the quantum arguments and the arrays it declares. An intrinsic
measures one qubit, never an array. -/
structure LeafFunction where
  args : List (Ident × QTy)
  arrays : List (Ident × QTy)
  body : List (GateCall Operand)
  meas_elem : ∀ b q, GateCall.meas b q ∈ body → q.index ≠ none

/-- The names that have last-use times: those of the qubit arguments and of all arrays. There is no
entry for an ancilla argument. -/
def LeafFunction.tracked (F : LeafFunction) : List Ident :=
  ((F.args.filter (·.2 = .qbit)) ++ F.arrays).map Prod.fst

/-- The operation at a position depends on one at an earlier position when they use a qubit in
common. -/
def depends (body : List (GateCall Operand)) (k l : ℕ) : Prop :=
  k < l ∧ ∃ g h, body[k]? = some g ∧ body[l]? = some h ∧
    ∃ a ∈ accesses g, ∃ b ∈ accesses h, Overlap a b

/-! ## The names that are found -/

/-- The names of the gates whose type is not found. -/
def unlisted : List Ident := ["Y".toList, "Rx".toList, "Ry".toList, "Rz".toList]

/-- The type that a gate has in the table, if it is found. -/
def listedType (baseName : Ident) : Option GateType :=
  if unlisted.contains baseName then none else (gate_index.find? (·.1 = baseName)).map Prod.snd

/-- The intrinsics and the number of their operands. -/
private def intrinsics : List (Ident × ℕ) :=
  [("H".toList, 1), ("X".toList, 1), ("Y".toList, 1), ("Z".toList, 1), ("S".toList, 1),
    ("Sdag".toList, 1), ("T".toList, 1), ("Tdag".toList, 1), ("Rx".toList, 1), ("Ry".toList, 1),
    ("Rz".toList, 1), ("PrepX".toList, 1), ("PrepZ".toList, 1), ("MeasX".toList, 1),
    ("MeasZ".toList, 1), ("CNOT".toList, 2), ("Toffoli".toList, 3), ("Fredkin".toList, 3)]

/-- The texts that a number of operand types adds to a name. -/
private def suffixes : ℕ → List Ident
  | 0 => [[]]
  | n + 1 => (suffixes n).flatMap fun s ↦
      [GateCall.tySuffix .abit ++ s, GateCall.tySuffix .qbit ++ s]

/-- Where an intrinsic stands in the list. -/
private def position : GateCall Operand → ℕ
  | .gate1 .H _ => 0
  | .gate1 .X _ => 1
  | .gate1 .Y _ => 2
  | .gate1 .Z _ => 3
  | .gate1 .S _ => 4
  | .gate1 .Sdag _ => 5
  | .gate1 .T _ => 6
  | .gate1 .Tdag _ => 7
  | .rot .x _ _ => 8
  | .rot .y _ _ => 9
  | .rot .z _ _ => 10
  | .prep .x _ _ => 11
  | .prep .z _ _ => 12
  | .meas .x _ => 13
  | .meas .z _ => 14
  | .CNOT _ _ => 15
  | .Toffoli _ _ _ => 16
  | .Fredkin _ _ _ => 17

private theorem mem_intrinsics (g : GateCall Operand) :
    (g.baseName, g.operands.length) ∈ intrinsics := by
  refine List.mem_of_getElem? (i := position g) ?_
  cases g with
  | gate1 g => cases g <;> rfl
  | rot a => cases a <;> rfl
  | prep b => cases b <;> rfl
  | meas b => cases b <;> rfl
  | CNOT | Toffoli | Fredkin => rfl

private theorem mem_suffixes (qs : List Operand) :
    (qs.map (GateCall.tySuffix ∘ Operand.ty)).flatten ∈ suffixes qs.length := by
  induction qs with
  | nil => exact List.mem_singleton_self _
  | cons q qs ih =>
    rw [List.map_cons, List.flatten_cons, List.length_cons, suffixes, List.mem_flatMap]
    refine ⟨_, ih, ?_⟩
    rw [Function.comp_apply]
    cases q.ty <;> simp

/-- The type of a gate is the one its name has in the table, unless it is not found. -/
theorem funcIndex_fname (g : GateCall Operand) : funcIndex (fname g) = listedType g.baseName := by
  -- all names with all combinations of operand types, at once
  have hall : ∀ b ∈ intrinsics, ∀ s ∈ suffixes b.2,
      funcIndex ("llvm.".toList ++ b.1 ++ s) = listedType b.1 := by
    decide +kernel
  exact hall _ (mem_intrinsics g) _ (mem_suffixes g.operands)

theorem isSome_funcIndex (g : GateCall Operand) :
    (funcIndex (fname g)).isSome ↔ g.baseName ∉ unlisted := by
  have hall : ∀ b ∈ intrinsics, (listedType b.1).isSome ↔ b.1 ∉ unlisted := by decide +kernel
  rw [funcIndex_fname]
  exact hall _ (mem_intrinsics g)

theorem isMeas_eq (g : GateCall Operand) :
    isMeas g = ["MeasX".toList, "MeasZ".toList].contains g.baseName := by
  have hall : ∀ b ∈ intrinsics, ∀ s ∈ suffixes b.2,
      (found "llvm.MeasX" ("llvm.".toList ++ b.1 ++ s) ||
        found "llvm.MeasZ" ("llvm.".toList ++ b.1 ++ s)) =
          ["MeasX".toList, "MeasZ".toList].contains b.1 := by
    decide +kernel
  exact hall _ (mem_intrinsics g) _ (mem_suffixes g.operands)

theorem exists_of_isMeas {g : GateCall Operand} (h : isMeas g) : ∃ b q, g = .meas b q := by
  rw [isMeas_eq] at h
  cases g with
  | meas b q => exact ⟨b, q, rfl⟩
  | gate1 g => cases g <;> exact absurd h (by dsimp only [GateCall.baseName]; decide +kernel)
  | rot a => cases a <;> exact absurd h (by dsimp only [GateCall.baseName]; decide +kernel)
  | prep b => cases b <;> exact absurd h (by dsimp only [GateCall.baseName]; decide +kernel)
  | CNOT | Toffoli | Fredkin =>
    exact absurd h (by dsimp only [GateCall.baseName]; decide +kernel)

theorem baseName_eq_of_funcIndex {g h : GateCall Operand} {t : GateType}
    (hg : funcIndex (fname g) = some t) (hh : funcIndex (fname h) = some t) :
    g.baseName = h.baseName := by
  have hname : ∀ e ∈ gate_index, ∀ e' ∈ gate_index, e.2 = e'.2 → e.1 = e'.1 := by decide +kernel
  have hentry : ∀ {g : GateCall Operand}, funcIndex (fname g) = some t →
      ∃ e ∈ gate_index, e.2 = t ∧ e.1 = g.baseName := by
    intro g hg
    rw [funcIndex_fname, listedType] at hg
    split_ifs at hg
    obtain ⟨e, he, rfl⟩ := Option.map_eq_some_iff.mp hg
    exact ⟨e, List.mem_of_find?_eq_some he, rfl, of_decide_eq_true (List.find?_some he :)⟩
  obtain ⟨e, he, het, heg⟩ := hentry hg
  obtain ⟨e', he', het', heh⟩ := hentry hh
  rw [← heg, ← heh]
  exact hname e he e' he' (het.trans het'.symm)

end ScaffCC.GenSimd
