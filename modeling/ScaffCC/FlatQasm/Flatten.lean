import Mathlib.Data.List.MinMax
import ScaffCC.FlatQasm.Print
import ScaffCC.FlatQasm.ReadBack
import ScaffCC.IR.Names
import ScaffCC.OpenQasm.Refer
import ScaffCC.Text.Replace

/-!
# From hierarchical to flat QASM

A flat `main` is printed as hierarchical QASM, in which a register is declared and each call is a
line. A script makes a C program of it: the declaration of a register of one dimension becomes an
array of strings, and in the line of a gate the name of the gate is replaced by that of a function,
everywhere in the line. What the program prints is the flat QASM.

So there is none if the program does not compile: a register of several dimensions leaves a message
in the text, two registers may get one name, a register may hide a function, and the replacement may
hit the name of a register, so that an array is used that is not there.
-/

namespace ScaffCC

/-! ## Calls with operands that may be missing -/

namespace GateCall

variable {ι κ : Type*}

/-- The call with every operand replaced, if each has a replacement. -/
def mapM (f : ι → Option κ) : GateCall ι → Option (GateCall κ)
  | gate1 g q => (f q).map (gate1 g)
  | rot a q θ => (f q).map (rot a · θ)
  | prep b q v => (f q).map (prep b · v)
  | meas b q => (f q).map (meas b)
  | CNOT c t => (f c).bind fun c ↦ (f t).map (CNOT c)
  | Toffoli c₁ c₂ t => (f c₁).bind fun c₁ ↦ (f c₂).bind fun c₂ ↦ (f t).map (Toffoli c₁ c₂)
  | Fredkin c a b => (f c).bind fun c ↦ (f a).bind fun a ↦ (f b).map (Fredkin c a)

end GateCall

namespace FlatQasm

open OpenQasm (Word FnCall DataRepresentation QArg RegName Register Token lex find replaceDots
  Inside)
open Replace Text

/-! ## Hierarchical QASM -/

/-- A `main` that calls gates only, with the registers it allocates. -/
structure FlatMain where
  registers : List Register
  calls : List FnCall
  nodup : (registers.map Register.name).Nodup
  operands : ∀ call ∈ calls, ∀ d ∈ call.gate.operands, ∃ r ∈ registers,
    r.quantum = true ∧ r.name = d.name ∧ Inside d.indices.reverse r.dimSize

/-- The name a function is printed with. -/
def fToPrint (f : Word) : Word :=
  -- a part of the name is searched for, so the order of the tests matters
  let f :=
    if find "CNOT".toList f then "CNOT".toList
    else if find "Toffoli.".toList f then "Toffoli".toList
    else if find "MeasX".toList f then "MeasX".toList
    else if find "MeasZ".toList f then "MeasZ".toList
    else if find "H.i".toList f then "H".toList
    else if find "Fredkin".toList f then "Fredkin".toList
    else if find "PrepX".toList f then "PrepX".toList
    else if find "PrepZ".toList f then "PrepZ".toList
    else if f.take 2 = "Rx".toList then "Rx".toList
    else if f.take 2 = "Ry".toList then "Ry".toList
    else if f.take 2 = "Rz".toList then "Rz".toList
    else if find "S.".toList f then "S".toList
    else if find "T.".toList f then "T".toList
    else if find "Sdag".toList f then "Sdag".toList
    else if find "Tdag".toList f then "Tdag".toList
    else if find "X.".toList f then "X".toList
    else if find "Y.".toList f then "Y".toList
    else if find "Z.".toList f then "Z".toList
    else f
  f.map fun c ↦ if c = '.' || c = '-' then '_' else c

/-- The gates the script knows. -/
def qgates : List Word :=
  ["H", "X", "CNOT", "Y", "Z", "S", "T", "Tdag", "Sdag", "Rx", "Ry", "Rz", "PrepX", "PrepZ",
    "MeasX", "MeasZ", "Toffoli", "Fredkin"].map String.toList

/-- The name of the function for a gate. -/
def rstr (qstr : Word) : Word := "qg_".toList ++ qstr

theorem isWord_replaceDots (n : RegName) :
    ∀ c ∈ replaceDots n.val, c.isAlphanum ∨ c = '_' := by
  intro c hc
  obtain ⟨c', hc', rfl⟩ := List.mem_map.mp hc
  rcases n.ident c' hc' with h | rfl | rfl
  · rw [if_neg (by rintro rfl; exact absurd h (by decide))]
    exact .inl h
  · exact .inr rfl
  · exact .inr rfl

/-- The declaration that is matched for a register of one dimension. -/
def qbitDecl (r : Register) : QbitDecl where
  qbit_var := replaceDots r.name.val
  array_size := r.last
  inMainFunc := true
  word := isWord_replaceDots r.name
  ne_nil h := r.name.ne_nil (List.map_eq_nil_iff.mp h)
  pos := r.pos

def arguments : List Token → Option (List Word)
  | [.word w, .rparen, .semicolon] => some [w]
  | .word w :: .comma :: ts => (arguments ts).map (w :: ·)
  | _ => none

def readInt : List Char → ℤ
  | '-' :: ds => -Nat.ofDigitChars 10 ds 0
  | ds => Nat.ofDigitChars 10 ds 0

/-- The string that an element of an array has. -/
def element (decls : List QbitDecl) (a : Word) : Option Word :=
  let name := a.takeWhile (· ≠ '[')
  let index := ((a.dropWhile (· ≠ '[')).drop 1).dropLast
  if a = name ++ '[' :: (index ++ [']']) ∧ 0 ≤ readInt index then
    (decls.find? (·.qbit_var = name)).bind fun d ↦
      (d.qubits.map Qubit.varName)[(readInt index).toNat]?
  else none

/-- The gate whose function is called. An array with the name of the function hides it. -/
def gateOf (decls : List QbitDecl) (f : Word) (ws : List Word) : Option (GateCall Word) :=
  if decls.any (·.qbit_var = f) then none
  else
    match ws with
    | [a] => (element decls a).bind fun a ↦
      if f = "qg_H".toList then some (.gate1 .H a)
      else if f = "qg_X".toList then some (.gate1 .X a)
      else if f = "qg_Y".toList then some (.gate1 .Y a)
      else if f = "qg_Z".toList then some (.gate1 .Z a)
      else if f = "qg_S".toList then some (.gate1 .S a)
      else if f = "qg_T".toList then some (.gate1 .T a)
      else if f = "qg_Tdag".toList then some (.gate1 .Tdag a)
      else if f = "qg_Sdag".toList then some (.gate1 .Sdag a)
      else if f = "qg_MeasX".toList then some (.meas .x a)
      else if f = "qg_MeasZ".toList then some (.meas .z a)
      else none
    | [a, b] => (element decls a).bind fun a ↦
      if f = "qg_CNOT".toList then (element decls b).map (.CNOT a)
      else if f = "qg_PrepX".toList then some (.prep .x a (readInt b))
      else if f = "qg_PrepZ".toList then some (.prep .z a (readInt b))
      else if f = "qg_Rx".toList then some (.rot .x a (readDecimal b))
      else if f = "qg_Ry".toList then some (.rot .y a (readDecimal b))
      else if f = "qg_Rz".toList then some (.rot .z a (readDecimal b))
      else none
    | [a, b, c] => (element decls a).bind fun a ↦ (element decls b).bind fun b ↦
      (element decls c).bind fun c ↦
        if f = "qg_Toffoli".toList then some (.Toffoli a b c)
        else if f = "qg_Fredkin".toList then some (.Fredkin a b c)
        else none
    | _ => none

namespace FlatMain

variable (P : FlatMain)

/-- The arrays of the program. -/
def decls : List QbitDecl := P.registers.map qbitDecl

end FlatMain

/-! ## The names of the gates -/

theorem baseName_letters {ι : Type*} (g : GateCall ι) :
    g.baseName ∈ qgates ∧ (∀ c ∈ g.baseName, c.isAlpha) ∧ ∃ c ∈ g.baseName, c.isUpper := by
  have hall : ∀ s ∈ GateCall.shapes,
      s.baseName ∈ qgates ∧ s.baseName.all Char.isAlpha ∧ s.baseName.any Char.isUpper := by
    decide +kernel
  have h := hall _ (g.shape_mem fun _ ↦ .qbit)
  rwa [GateCall.baseName_shape, List.all_eq_true, List.any_eq_true] at h

theorem baseName_ne_nil {ι : Type*} (g : GateCall ι) : g.baseName ≠ [] := by
  obtain ⟨-, -, c, hc, -⟩ := baseName_letters g
  exact List.ne_nil_of_mem hc

/-- The name of a gate is replaced in a text. -/
def rename (qstr : Word) (w : List Char) : List Char := replace qstr (rstr qstr) w

section Rename

variable {ι : Type*} (g : GateCall ι)

end Rename

/-- A word of a line that is no sign of an assignment. -/
structure IsPlain (w : Word) : Prop where
  isWord : OpenQasm.IsWord w
  notMem : '=' ∉ w

theorem isPlain_of_forall {w : Word} (hne : w ≠ [])
    (hw : ∀ c ∈ w, c.isAlphanum ∨ c ∈ ['_', '[', ']', '-', '+', '.']) : IsPlain w := by
  have hall : ∀ c ∈ ['_', '[', ']', '-', '+', '.'], OpenQasm.separator c = none := by
    simp only [List.forall_mem_cons, List.not_mem_nil, false_imp_iff, implies_true, and_true]
    decide
  constructor
  · exact ⟨hne, fun c hc ↦ (hw c hc).elim OpenQasm.separator_of_isAlphanum (hall c)⟩
  · exact fun h ↦ absurd (hw _ h) (by decide)

theorem isAlphanum_of_mem_qg {c : Char} (hc : c ∈ "qg_".toList) : c.isAlphanum ∨ c = '_' := by
  have hqg : "qg_".toList = ['q', 'g', '_'] := rfl
  simp only [hqg, List.mem_cons, List.not_mem_nil, or_false] at hc
  rcases hc with rfl | rfl | rfl
  · exact .inl (by decide)
  · exact .inl (by decide)
  · exact .inr rfl

theorem isPlain_rstr {ι : Type*} (g : GateCall ι) : IsPlain (rstr g.baseName) := by
  refine isPlain_of_forall (List.append_ne_nil_of_left_ne_nil (by decide) _) fun c hc ↦ ?_
  rcases List.mem_append.mp hc with hc | hc
  · exact (isAlphanum_of_mem_qg hc).imp_right fun h ↦ List.mem_cons.mpr (.inl h)
  · exact .inl (Bool.or_eq_true_iff.mpr (.inl ((baseName_letters g).2.1 c hc)))

theorem IsPlain.rename {ι : Type*} (g : GateCall ι) {w : Word} (h : IsPlain w) :
    IsPlain (rename g.baseName w) := by
  have hmem : ∀ c ∈ FlatQasm.rename g.baseName w, c ∈ rstr g.baseName ∨ c ∈ w := fun c ↦ mem_replace
  refine ⟨⟨fun hnil ↦ ?_, fun c hc ↦ ?_⟩, fun hc ↦ ?_⟩
  · have hle : w.length ≤ (FlatQasm.rename g.baseName w).length :=
      le_length_replaceFrom (baseName_ne_nil g) (List.suffix_append _ _).length_le 0
    rw [hnil] at hle
    exact h.isWord.ne_nil (List.length_eq_zero_iff.mp (Nat.le_zero.mp hle))
  · exact (hmem c hc).elim ((isPlain_rstr g).isWord.plain c) (h.isWord.plain c)
  · exact (hmem _ hc).elim (isPlain_rstr g).notMem h.notMem

/-- The call as a C program reads it: the angle was printed with seven significant digits. -/
def literal {ι : Type*} : GateCall ι → GateCall ι
  | .rot axis q θ => .rot axis q (sevenDigits θ)
  | g => g

def flatName (d : DataRepresentation) : Word :=
  Qubit.varName ⟨replaceDots d.name.val, (d.indices.headD 0).toNat, true⟩

theorem FlatMain.operand {P : FlatMain} (hdims : ∀ r ∈ P.registers, r.outer = []) {call : FnCall}
    (hcall : call ∈ P.calls) {d : DataRepresentation} (hd : d ∈ call.gate.operands) :
    ∃ r ∈ P.registers, r.name = d.name ∧ ∃ i : ℕ, i < r.last ∧ d.indices = [(i : ℤ)] := by
  obtain ⟨r, hr, -, hname, hinside⟩ := P.operands call hcall d hd
  rw [Register.dimSize, hdims r hr] at hinside
  obtain ⟨i, _, ⟨hpos, hlt⟩, hnil, hind⟩ := List.forall₂_cons_right_iff.mp hinside
  cases hnil
  refine ⟨r, hr, hname, i.toNat, by omega, ?_⟩
  rw [← List.reverse_inj, hind, Int.toNat_of_nonneg hpos]
  rfl

variable {P : FlatMain} {call : FnCall} {d : DataRepresentation}

end FlatQasm

end ScaffCC
