import ScaffCC.FlatQasm.Flatten
import ScaffCC.OpenQasm.Unrolled

/-!
# Flat QASM and OpenQASM

The two texts printed for a flat program say the same except in a few cases. A preparation in the X
basis of the value one is printed as a preparation and a bit flip on one side, and as a reset, a bit
flip and a Hadamard gate on the other: the bit flip comes after the change of basis there, where it
does nothing, and before it here. The angles are printed with seven significant digits and then with
six decimals on one side, and with six significant digits on the other. OpenQASM has its own
troubles with measurements and with the unrolled Toffoli gate, and flat QASM with the names of
registers.

An X measurement is printed in OpenQASM as a Hadamard gate and a measurement, and nothing says what
the qubit is left in. So measurements are compared up to a change of basis of the measured qubit
after it.
-/

namespace ScaffCC.FlatQasm

open OpenQasm (Word FnCall DataRepresentation genCall Lexes Piece replaceDots tokensOf)
open Quantum Text

/-! ## Reading OpenQASM as gates -/

/-- Numerals are read as decimals. There are no conditions in a flat program. -/
def numerals : OpenQasm.Reading := ⟨readDecimal, fun _ _ _ ↦ false⟩

/-- The gate of a quantum operation. -/
def opGate : OpenQasm.Qop → Option (GateCall Word)
  | .measure q _ => some (.meas .z q)
  | .reset q => some (.prep .z q 0)
  | .gate name params operands => OpenQasm.gateCall numerals name params operands

def statementGate : OpenQasm.Statement → Option (GateCall Word)
  | .op o => opGate o
  | .declare _ _ | .ifEq _ _ _ => none

/-- **The gates of an OpenQASM text**, if every statement of it is one. -/
def readOpen (cs : List Char) : Option (List (GateCall Word)) :=
  (OpenQasm.read cs).bind fun ss ↦ ss.mapM statementGate

def openGates {ι : Type*} : GateCall ι → List (GateCall ι)
  | .prep basis a v => .prep .z a 0 :: ((if v = 1 then [.gate1 .X a] else []) ++
      if basis = .x then [.gate1 .H a] else [])
  | .meas basis a => (if basis = .x then [.gate1 .H a] else []) ++ [.meas .z a]
  | .Fredkin c a b => [.CNOT b a, .Toffoli c a b, .CNOT b a]
  | .rot axis a θ => [.rot axis a (sixDigits θ)]
  | g => [g]

def operandText (d : DataRepresentation) : Word := { d with isPtr := false }.qbitVarString

/-- The text of an operand of a call. A measurement does not clear `isPtr`. -/
def openText (call : FnCall) (d : DataRepresentation) : Word :=
  match call.gate with
  | .meas _ _ => d.qbitVarString
  | _ => operandText d

/-- The call can be read: its measurement has a destination, and no Toffoli gate is unrolled. -/
def Readable (unrollToff : Bool) (call : FnCall) : Prop :=
  match call.gate with
  | .meas _ _ => call.rtn ≠ none
  | .Fredkin _ _ _ => unrollToff = false
  | _ => True

/-- A piece of text that stands for a gate. -/
def Means (p : Piece) (g : GateCall Word) : Prop :=
  ∃ ts o, p = .stmt ts ∧ (Piece.stmt ts).IsPlain ∧ OpenQasm.readQop ts = some o ∧
    opGate o = some g

theorem readOpen_of_lexes {t : List Char} {ps : List Piece} {gs : List (GateCall Word)}
    (h : Lexes t ps) (hps : List.Forall₂ Means ps gs) (cs : List Char) :
    readOpen (t ++ cs) = (readOpen cs).map (gs ++ ·) := by
  have hread : ∀ rest, (OpenQasm.readFrom [] (tokensOf ps ++ rest)).bind
      (fun ss ↦ ss.mapM statementGate) =
      ((OpenQasm.readFrom [] rest).bind fun ss ↦ ss.mapM statementGate).map (gs ++ ·) := by
    intro rest
    clear h
    induction hps with
    | nil => exact (Option.map_id' ..).symm
    | @cons p g ps gs hp _ ih =>
      obtain ⟨_, o, rfl, ⟨k, t, ts', rfl, hif, hdecl, hs⟩, ho, hg⟩ := hp
      rw [OpenQasm.tokensOf_cons, Piece.tokens, List.append_assoc, List.append_assoc,
        List.singleton_append, OpenQasm.readFrom_stmt hs, List.nil_append,
        OpenQasm.readStatement_of_ne hif hdecl, ho, Option.map_some, Option.bind_some]
      have hcons : ∀ x : Option (List OpenQasm.Statement),
          (x.map (OpenQasm.Statement.op o :: ·)).bind (fun ss ↦ ss.mapM statementGate) =
            (x.bind fun ss ↦ ss.mapM statementGate).map (g :: ·) := by
        intro x
        cases x with
        | none => rfl
        | some ss =>
          rw [Option.map_some, Option.bind_some, Option.bind_some, List.mapM_cons, statementGate,
            hg]
          cases ss.mapM statementGate <;> rfl
      rw [hcons, ih, Option.map_map]
      rfl
  rw [readOpen, readOpen, OpenQasm.read, OpenQasm.read, h]
  exact hread _

theorem means_call {g : Word} (hg : g ∉ ["measure".toList, "reset".toList, "if".toList])
    (hdecl : g ∉ OpenQasm.declarations) {ws : List Word} (hne : ws ≠ []) {c : GateCall Word}
    (hc : OpenQasm.gateCall numerals g [] ws = some c) : Means (.call g ws) c := by
  simp only [List.mem_cons, List.not_mem_nil, or_false, not_or] at hg
  exact ⟨_, _, rfl, Piece.isPlain_call hg.2.2 hdecl hne,
    OpenQasm.readQop_call hg.1 hg.2.1 hne, hc⟩

theorem forall₂_ite {p : Piece} {g : GateCall Word} (c : Prop) [Decidable c] (h : Means p g) :
    List.Forall₂ Means (if c then [p] else []) (if c then [g] else []) := by
  split_ifs
  · exact .cons h .nil
  · exact .nil

theorem Readable.forall₂_means {unrollToff : Bool} {call : FnCall} (h : Readable unrollToff call) :
    List.Forall₂ Means (call.pieces unrollToff)
      (openGates (call.gate.map (openText call))) := by
  obtain ⟨g, rtn⟩ := call
  have hreset : ∀ w, Means (.call "reset".toList [w]) (.prep .z w 0) := fun w ↦
    ⟨_, _, rfl, Piece.isPlain_call (by decide) (by decide) (List.cons_ne_nil _ _), rfl, rfl⟩
  have hx : ∀ w, Means (.call "x".toList [w]) (.gate1 .X w) := fun w ↦
    means_call (by decide) (by decide) (List.cons_ne_nil _ _) rfl
  have hh : ∀ w, Means (.call "h".toList [w]) (.gate1 .H w) := fun w ↦
    means_call (by decide) (by decide) (List.cons_ne_nil _ _) rfl
  cases g with
  | gate1 k q =>
    refine .cons ?_ .nil
    cases k <;> exact means_call (by decide) (by decide) (List.cons_ne_nil _ _) rfl
  | rot axis q θ =>
    refine .cons ?_ .nil
    rw [← readDecimal_showDouble]
    cases axis <;> exact ⟨_, _, rfl, ⟨_, _, _, rfl, by decide, by decide, by simp⟩, rfl, rfl⟩
  | prep basis q v =>
    exact .cons (hreset _)
      (List.rel_append (forall₂_ite (v = 1) (hx _)) (forall₂_ite (basis = .x) (hh _)))
  | meas basis q =>
    obtain ⟨c, rfl⟩ := Option.ne_none_iff_exists'.mp h
    have hmeas : Means (.stmt [.word "measure".toList, .word q.qbitVarString, .word "->".toList,
        .word c.cbitVarString]) (.meas .z q.qbitVarString) :=
      ⟨_, _, rfl, ⟨_, _, _, rfl, by decide, by decide, by simp⟩, rfl, rfl⟩
    exact List.rel_append (forall₂_ite (basis = .x) (hh _)) (.cons hmeas .nil)
  | CNOT c t =>
    exact .cons (means_call (by decide) (by decide) (List.cons_ne_nil _ _) rfl) .nil
  | Toffoli c₁ c₂ t =>
    exact .cons (means_call (by decide) (by decide) (List.cons_ne_nil _ _) rfl) .nil
  | Fredkin c a b =>
    obtain rfl : unrollToff = false := h
    have hcx : Means (.call "cx".toList [operandText b, operandText a])
        (.CNOT (operandText b) (operandText a)) :=
      means_call (by decide) (by decide) (List.cons_ne_nil _ _) rfl
    exact .cons hcx
      (.cons (means_call (by decide) (by decide) (List.cons_ne_nil _ _) rfl) (.cons hcx .nil))

/-- **What is printed for a readable call is read back as the gates it stands for.** -/
theorem readOpen_genCall {unrollToff : Bool} {call : FnCall} (h : Readable unrollToff call)
    (cs : List Char) :
    readOpen (genCall unrollToff call ++ cs) =
      (readOpen cs).map (openGates (call.gate.map (openText call)) ++ ·) :=
  readOpen_of_lexes (OpenQasm.lexes_genCall unrollToff call) h.forall₂_means cs

section Agree

variable {κ : Type} [DecidableEq κ]

/-- The qubit that a gate measures. -/
def measured {ι : Type*} : GateCall ι → Option ι
  | .meas _ q => some q
  | _ => none

/-- The same outcomes, up to a change of basis of the measured qubit after its measurement. -/
def SameOutcomes (q : Option κ) (A B : List (Op κ ℂ)) : Prop :=
  match q with
  | none => A = B
  | some q => ∃ u v, u * v = 1 ∧ A = B.map (onWire q u * ·)

theorem SameOutcomes.refl (q : Option κ) (A : List (Op κ ℂ)) : SameOutcomes q A A := by
  cases q with
  | none => rfl
  | some q =>
    refine ⟨1, 1, one_mul 1, ?_⟩
    simp only [onWire_one, one_mul, List.map_id']

end Agree

/-- The qubit an operand points to: the register and the indices. -/
def qubit (d : DataRepresentation) : Word × List ℤ := (d.name.val, d.indices.reverse)

/-- The operands of the calls. -/
def FlatMain.used (P : FlatMain) : Set DataRepresentation :=
  {d | ∃ call ∈ P.calls, d ∈ call.gate.operands}

/-- The words of the two texts are read as qubits: the name of each qubit that is used as this
qubit. -/
structure Reads (P : FlatMain) (flat open' : Word → Word × List ℤ) : Prop where
  flat : ∀ d ∈ P.used, flat (flatName d) = qubit d
  open' : ∀ d ∈ P.used, open' (operandText d) = qubit d

/-- When the flat QASM of a program is there and names its qubits: the registers have one dimension,
no two have the same name, none hides a function that is called or has the name of a gate in which
it is used in its own, and the qubits that are used have different names. -/
structure Flattens (P : FlatMain) : Prop where
  dims : ∀ r ∈ P.registers, r.outer = []
  apart : (P.decls.map QbitDecl.qbit_var).Nodup
  shown : ∀ call ∈ P.calls, rstr call.gate.baseName ∉ P.decls.map QbitDecl.qbit_var
  plain : ∀ call ∈ P.calls, ∀ d ∈ call.gate.operands,
    ¬ call.gate.baseName <:+: replaceDots d.name.val
  distinct : ∀ d ∈ P.used, ∀ d' ∈ P.used, flatName d = flatName d' → qubit d = qubit d'

/-- When the two texts of a call agree. -/
def Agrees (unrollToff : Bool) (call : FnCall) : Prop :=
  match call.gate with
  | .prep .x _ v => v ≠ 1
  | .rot _ _ θ => sixDecimals (sevenDigits θ) = sixDigits θ
  | .meas _ q => q.isPtr = false ∧ call.rtn ≠ none
  | .Fredkin _ _ _ => unrollToff = false
  | _ => True

/-! ## Exactly when -/

variable {unrollToff : Bool} {P : FlatMain} {call : FnCall}

theorem map_openGates {ι κ : Type*} (f : ι → κ) (g : GateCall ι) :
    (openGates g).map (GateCall.map f) = openGates (g.map f) := by
  cases g with
  | prep basis q v =>
    simp only [openGates, GateCall.map]
    split_ifs <;> rfl
  | meas basis q =>
    simp only [openGates, GateCall.map]
    split_ifs <;> rfl
  | _ => rfl

theorem readOpen_calls {C : List FnCall} (h : ∀ call ∈ C, Readable unrollToff call) :
    readOpen (C.flatMap (genCall unrollToff)) =
      some (C.flatMap fun call ↦ openGates (call.gate.map (openText call))) := by
  induction C with
  | nil => rfl
  | cons call C ih =>
    obtain ⟨hcall, hC⟩ := List.forall_mem_cons.mp h
    rw [List.flatMap_cons, readOpen_genCall hcall, ih hC]
    rfl

def regQ : OpenQasm.Register where
  name := ⟨['q'], by decide, fun c hc ↦ by rw [List.mem_singleton.mp hc]; decide⟩
  quantum := true
  isPtr := false
  outer := []
  last := 1
  pos := Nat.one_pos

end ScaffCC.FlatQasm
