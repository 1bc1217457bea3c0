import ScaffCC.OpenQasm.Declared
import ScaffCC.OpenQasm.Names

/-!
# Operands name declared registers

The name of a quantum operand puts its indices in the order of the dimensions, as the declarations
do, and the name of the destination of a measurement in the reverse order. Where the registers are
declared right, an operand names a declared one exactly if its indices are inside the sizes, and a
destination if its indices are in that reverse order.
-/

namespace ScaffCC.OpenQasm

open Text

/-! ## The printed operands -/

def FnCall.isMeas (call : FnCall) : Bool :=
  match call.gate with
  | .meas _ _ => true
  | _ => false

def FnCall.operandText (call : FnCall) (q : DataRepresentation) : Word :=
  if call.isMeas then (QArg.reg q).measureString else (QArg.reg q).varString

/-- The text of a call, from the texts of its operands and of its destination. -/
def gateText (unrollToff : Bool) (dest : Option Word) : GateCall Word → List Char
  | .gate1 g q => stmt (nameOf g) [q]
  | .rot a q θ =>
    axisName a ++ ("(".toList ++ ((QArg.doubleVal θ).valString ++ (") ".toList ++
      (q ++ ";\n".toList))))
  | .prep b q v =>
    stmt1 "reset " q ++ ((if v = 1 then stmt1 "x " q else []) ++
      if b = .x then stmt1 "h " q else [])
  | .meas b q =>
    (if b = .x then stmt1 "h " q else []) ++ ("measure ".toList ++ (q ++ (" -> ".toList ++
      dest.elim [] (· ++ ";\n".toList))))
  | .CNOT c t => stmt "cx".toList [c, t]
  | .Toffoli c₁ c₂ t => stmt "ccx".toList [c₁, c₂, t]
  | .Fredkin c a b =>
    stmt "cx".toList [b, a] ++
      ((if unrollToff then unrolled c a b else stmt "ccx".toList [c, a, b]) ++
        stmt "cx".toList [b, a])

theorem genCall_eq (unrollToff : Bool) (call : FnCall) :
    genCall unrollToff call = gateText unrollToff
      (call.rtn.map DataRepresentation.cbitVarString) (call.gate.map call.operandText) := by
  rw [genCall, form_fToPrint]
  obtain ⟨g, rtn⟩ := call
  cases g with
  | meas b q => cases rtn <;> rfl
  | gate1 g q => rfl
  | rot a q θ => rfl
  | prep b q v => rfl
  | CNOT c t => rfl
  | Toffoli c₁ c₂ t => rfl
  | Fredkin c a b => rfl

theorem replaceDots_eq_self_iff {w : Word} : replaceDots w = w ↔ '.' ∉ w := by
  constructor
  · intro h hmem
    have heq := List.map_eq_map_iff.mp (h.trans (List.map_id w).symm) '.' hmem
    exact absurd heq (by decide)
  · intro h
    refine (List.map_congr_left fun c hc ↦ if_neg ?_).trans (List.map_id' w)
    rintro rfl
    exact h hc

theorem replaceDots_append_indexString (w : Word) (is : List ℤ) (k : ℤ) :
    replaceDots (w ++ (indexString is ++ bitString k))
      = replaceDots w ++ indexString is ++ bitString k := by
  have hdots : ∀ c ∈ indexString is ++ bitString k, (if c = '.' then '_' else c) = c := by
    intro c hc
    refine if_neg ?_
    rintro rfl
    simp only [indexString, bitString, List.mem_append, List.mem_flatMap, List.mem_cons] at hc
    have hnum : ∀ z, '.' ∉ showInt z := fun z hz ↦ absurd (mem_showInt hz) (by decide)
    simp [hnum] at hc
  rw [replaceDots, List.map_append, List.map_congr_left hdots, List.map_id', List.append_assoc]
  rfl

namespace DataRepresentation

/-- The indices, innermost first. The code reads a missing index as `0`. -/
def indices (d : DataRepresentation) : List ℤ :=
  if d.index = [] then [0] else d.index

theorem indices_reverse (d : DataRepresentation) :
    d.indices.reverse = d.index.tail.reverse ++ [d.index.headD 0] := by
  rw [indices]
  cases d.index with
  | nil => rfl
  | cons i is => simp

theorem indices_eq (d : DataRepresentation) :
    d.indices = d.index.dropLast ++ [d.index.getLastD 0] := by
  rw [indices]
  split_ifs with h
  · rw [h]
    rfl
  · rw [List.getLastD_eq_getLast?, List.getLast?_eq_some_getLast h]
    exact (List.dropLast_append_getLast h).symm

theorem qbitVarString_eq {d : DataRepresentation} (h : d.isPtr = false) :
    d.qbitVarString = replaceDots d.name.val ++ indexString d.index.tail.reverse
      ++ bitString (d.index.headD 0) := by
  rw [qbitVarString, h]
  exact replaceDots_append_indexString _ _ _

/-- The indices of the register a condition looks at: all of them, if there is more than one. -/
def arrayIndices (d : DataRepresentation) : List ℤ :=
  if !d.isPtr && 1 < d.index.length then d.index else []

theorem cbitArrayString_eq (d : DataRepresentation) :
    d.cbitArrayString = d.name.val ++ indexString d.arrayIndices := by
  rw [cbitArrayString, arrayIndices]
  split_ifs <;> rfl

theorem cbitVarString_eq {d : DataRepresentation} (h : d.isPtr = false) :
    d.cbitVarString = replaceDots d.name.val ++ indexString d.index.dropLast
      ++ bitString (d.index.getLastD 0) := by
  rw [cbitVarString, h]
  exact replaceDots_append_indexString _ _ _

end DataRepresentation

/-! ## Texts that name a declared register -/

namespace Register

variable {r : Register}

theorem declares_iff (hr : r.Listed) {is : List ℤ} {k : ℤ} :
    r.Declares (replaceDots r.name.val ++ indexString is ++ bitString k)
      ↔ Inside (is ++ [k]) r.dimSize := by
  rw [dimSize, inside_concat]
  constructor
  · rintro ⟨_, hmem, i, hi, hw⟩
    obtain ⟨d, hd, rfl⟩ := List.mem_map.mp hmem
    obtain ⟨hp, hlast⟩ := (hr.2 d).mp hd
    rw [declName, List.append_assoc, List.append_assoc] at hw
    obtain ⟨rfl, rfl⟩ := indexString_append_inj (List.append_cancel_left hw)
    exact ⟨hp, hlast ▸ hi⟩
  · rintro ⟨his, hk⟩
    exact ⟨_, List.mem_map_of_mem ((hr.2 (is, r.last)).mpr ⟨his, rfl⟩), k, hk, rfl⟩

theorem not_declares_name : ¬ r.Declares (replaceDots r.name.val) := by
  rintro ⟨_, hmem, i, -, hw⟩
  obtain ⟨d, -, rfl⟩ := List.mem_map.mp hmem
  have hlen := congrArg List.length hw
  simp only [declName, bitString, List.length_append, List.length_cons] at hlen
  omega

theorem declares_qbitVarString (hr : r.Listed) {q : DataRepresentation} (hname : r.name = q.name) :
    r.Declares q.qbitVarString ↔ Inside q.indices.reverse r.dimSize ∧ q.isPtr = false := by
  cases hptr : q.isPtr with
  | true =>
    rw [DataRepresentation.qbitVarString, hptr, if_pos rfl, List.append_nil, ← hname]
    exact iff_of_false not_declares_name fun h ↦ absurd h.2 (by decide)
  | false =>
    rw [q.qbitVarString_eq hptr, ← hname, declares_iff hr, q.indices_reverse]
    exact (and_iff_left rfl).symm

theorem declares_cbitVarString (hr : r.Listed) {c : DataRepresentation} (hname : r.name = c.name) :
    r.Declares c.cbitVarString ↔ c.isPtr = false ∧ Inside c.indices r.dimSize := by
  cases hptr : c.isPtr with
  | true =>
    rw [DataRepresentation.cbitVarString, hptr, if_pos rfl, List.append_nil, ← hname]
    exact iff_of_false not_declares_name fun h ↦ absurd h.1 (by decide)
  | false =>
    rw [c.cbitVarString_eq hptr, ← hname, declares_iff hr, c.indices_eq]
    exact (and_iff_right rfl).symm

theorem declares_operandText (hr : r.Listed) {call : FnCall} {q : DataRepresentation}
    (hname : r.name = q.name) :
    r.Declares (call.operandText q)
      ↔ Inside q.indices.reverse r.dimSize ∧ (call.isMeas → q.isPtr = false) := by
  rw [FnCall.operandText]
  split_ifs with hmeas
  · rw [QArg.measureString, declares_qbitVarString hr hname]
    simp [hmeas]
  · rw [QArg.varString, declares_qbitVarString hr (q := { q with isPtr := false }) hname]
    simp [hmeas, DataRepresentation.indices]

end Register

/-! ## When the registers and the operands are right -/

/-- Each outer index of each array has one register of the size of the last dimension, there are no
other registers, no name is declared twice, all operands and destinations of measurements name a bit
of a register of their array, and all conditions name such a register. -/
structure DeclaredRight (P : Program) : Prop where
  each : ∀ r ∈ P.registers, ∀ p, Inside p r.outer → r.decls.count (r.declName p, r.last) = 1
  only : ∀ r ∈ P.registers, ∀ d ∈ r.decls, ∃ p, Inside p r.outer ∧ d = (r.declName p, r.last)
  once : ((P.registers.flatMap Register.decls).map Prod.fst).Nodup
  operand : ∀ b ∈ P.blocks, ∀ call ∈ b.calls, ∀ q ∈ call.gate.operands,
    ∃ r ∈ P.registers, r.quantum = true ∧ r.name = q.name ∧ r.Declares (call.operandText q)
  destination : ∀ b ∈ P.blocks, ∀ call ∈ b.calls, call.isMeas → ∀ c ∈ call.rtn,
    ∃ r ∈ P.registers, r.quantum = false ∧ r.name = c.name ∧ r.Declares c.cbitVarString
  condition : ∀ b ∈ P.blocks, ∀ c ∈ b.cond,
    ∃ r ∈ P.registers, r.quantum = false ∧ r.name = c.1.name ∧
      c.1.cbitArrayString ∈ r.decls.map Prod.fst

/-- The arrays have few dimensions and names apart, an operand has an index inside the size of each
dimension of a quantum array, and a destination has indices that are inside the sizes in the order
in which it has them, innermost first. The array of a condition has no dots in its name, and all
indices of the condition are inside the sizes of its outer dimensions. -/
structure Declarable (P : Program) : Prop where
  regular : ∀ r ∈ P.registers, r.Regular
  apart : P.registers.Pairwise fun r s ↦
    ∀ p, Inside p r.outer → ∀ q, Inside q s.outer → r.declName p ≠ s.declName q
  operand : ∀ b ∈ P.blocks, ∀ call ∈ b.calls, ∀ q ∈ call.gate.operands,
    ∃ r ∈ P.registers, r.quantum = true ∧ r.name = q.name ∧
      Inside q.indices.reverse r.dimSize ∧ (call.isMeas → q.isPtr = false)
  destination : ∀ b ∈ P.blocks, ∀ call ∈ b.calls, call.isMeas → ∀ c ∈ call.rtn,
    ∃ r ∈ P.registers, r.quantum = false ∧ r.name = c.name ∧
      c.isPtr = false ∧ Inside c.indices r.dimSize
  condition : ∀ b ∈ P.blocks, ∀ c ∈ b.cond,
    ∃ r ∈ P.registers, r.quantum = false ∧ r.name = c.1.name ∧
      '.' ∉ c.1.name.val ∧ Inside c.1.arrayIndices r.outer

namespace Register

variable {r : Register}

theorem declName_injective : Function.Injective r.declName := fun _ _ h ↦
  indexString_injective (List.append_cancel_left h)

theorem count_decls (r : Register) (p : List ℤ) (n : ℕ) :
    r.decls.count (r.declName p, n) = r.counts.count (p, n) := by
  refine List.count_map_of_injective _ (fun d ↦ (r.declName d.1, d.2)) (fun d d' h ↦ ?_) (p, n)
  obtain ⟨hname, hsize⟩ := Prod.mk.inj h
  exact Prod.ext (declName_injective hname) hsize

/-- Each outer index has one register and there are no others. -/
theorem listed_iff_decls (r : Register) :
    r.Listed ↔ (∀ p, Inside p r.outer → r.decls.count (r.declName p, r.last) = 1) ∧
      ∀ d ∈ r.decls, ∃ p, Inside p r.outer ∧ d = (r.declName p, r.last) := by
  simp only [count_decls]
  constructor
  · rintro ⟨hnodup, hmem⟩
    refine ⟨fun p hp ↦ List.count_eq_one_of_mem hnodup ((hmem _).mpr ⟨hp, rfl⟩), ?_⟩
    intro _ hd'
    obtain ⟨d, hd, rfl⟩ := List.mem_map.mp hd'
    obtain ⟨hp, hlast⟩ := (hmem d).mp hd
    exact ⟨d.1, hp, by rw [hlast]⟩
  · rintro ⟨heach, honly⟩
    have hinside : ∀ d ∈ r.counts, Inside d.1 r.outer ∧ d.2 = r.last := by
      intro d hd
      obtain ⟨p, hp, heq⟩ := honly _ (List.mem_map_of_mem hd)
      obtain ⟨hname, hsize⟩ := Prod.mk.inj heq
      exact ⟨declName_injective hname ▸ hp, hsize⟩
    refine ⟨List.nodup_iff_count_le_one.mpr fun d ↦ ?_, fun d ↦ ⟨hinside d, ?_⟩⟩
    · by_cases hd : d ∈ r.counts
      · obtain ⟨hp, hlast⟩ := hinside d hd
        exact (heach d.1 hp ▸ hlast ▸ le_refl (r.counts.count (d.1, d.2)))
      · exact (List.count_eq_zero_of_not_mem hd).trans_le (Nat.zero_le 1)
    · rintro ⟨hp, hlast⟩
      have hcount := heach d.1 hp
      rw [← hlast] at hcount
      exact List.count_pos_iff.mp (hcount ▸ Nat.one_pos)

theorem mem_names (hr : r.Listed) {w : Word} :
    w ∈ r.decls.map Prod.fst ↔ ∃ p, Inside p r.outer ∧ w = r.declName p := by
  rw [decls, List.map_map, List.mem_map]
  constructor
  · rintro ⟨d, hd, rfl⟩
    exact ⟨d.1, ((hr.2 d).mp hd).1, rfl⟩
  · rintro ⟨p, hp, rfl⟩
    exact ⟨(p, r.last), (hr.2 _).mpr ⟨hp, rfl⟩, rfl⟩

/-- A condition names a declared register. Its dots are kept. -/
theorem cbitArrayString_mem_names (hr : r.Listed) {c : DataRepresentation}
    (hname : r.name = c.name) :
    c.cbitArrayString ∈ r.decls.map Prod.fst
      ↔ '.' ∉ c.name.val ∧ Inside c.arrayIndices r.outer := by
  rw [mem_names hr, c.cbitArrayString_eq, ← replaceDots_eq_self_iff]
  constructor
  · rintro ⟨p, hp, hw⟩
    rw [declName, hname] at hw
    obtain ⟨hval, his⟩ := List.append_inj hw (List.length_map _).symm
    exact ⟨hval.symm, indexString_injective his ▸ hp⟩
  · rintro ⟨hval, hp⟩
    exact ⟨c.arrayIndices, hp, by rw [declName, hname, hval]⟩

theorem nodup_names (hr : r.Listed) : (r.decls.map Prod.fst).Nodup := by
  rw [decls, List.map_map]
  refine hr.1.map_on fun d hd d' hd' h ↦ ?_
  have hsizes := ((hr.2 d).mp hd).2.trans ((hr.2 d').mp hd').2.symm
  exact Prod.ext (declName_injective h) hsizes

end Register

theorem nodup_names_iff {registers : List Register} (h : ∀ r ∈ registers, r.Listed) :
    ((registers.flatMap Register.decls).map Prod.fst).Nodup
      ↔ registers.Pairwise fun r s ↦
        ∀ p, Inside p r.outer → ∀ q, Inside q s.outer → r.declName p ≠ s.declName q := by
  rw [List.map_flatMap, List.nodup_flatMap, and_iff_right fun r hr ↦ Register.nodup_names (h r hr)]
  refine List.Pairwise.iff_of_mem fun {r s} hr hs ↦ ?_
  simp only [Function.onFun, List.disjoint_left, Register.mem_names (h r hr),
    Register.mem_names (h s hs)]
  constructor
  · intro hdisj p hp q hq heq
    exact hdisj ⟨p, hp, rfl⟩ ⟨q, hq, heq⟩
  · rintro hne w ⟨p, hp, rfl⟩ ⟨q, hq, heq⟩
    exact hne p hp q hq heq

/-- **The registers and the operands are right exactly for the programs that can be declared.** -/
theorem declaredRight_iff (P : Program) : DeclaredRight P ↔ Declarable P := by
  have hoperand : (∀ r ∈ P.registers, r.Listed) → ∀ (call : FnCall) (q : DataRepresentation),
      (∃ r ∈ P.registers, r.quantum = true ∧ r.name = q.name ∧ r.Declares (call.operandText q)) ↔
        ∃ r ∈ P.registers, r.quantum = true ∧ r.name = q.name ∧
          Inside q.indices.reverse r.dimSize ∧ (call.isMeas → q.isPtr = false) :=
    fun hlisted call q ↦ exists_congr fun r ↦ and_congr_right fun hr ↦ and_congr_right fun _ ↦
      and_congr_right fun hname ↦ Register.declares_operandText (hlisted r hr) hname
  have hdestination : (∀ r ∈ P.registers, r.Listed) → ∀ c : DataRepresentation,
      (∃ r ∈ P.registers, r.quantum = false ∧ r.name = c.name ∧ r.Declares c.cbitVarString) ↔
        ∃ r ∈ P.registers, r.quantum = false ∧ r.name = c.name ∧
          c.isPtr = false ∧ Inside c.indices r.dimSize :=
    fun hlisted c ↦ exists_congr fun r ↦ and_congr_right fun hr ↦ and_congr_right fun _ ↦
      and_congr_right fun hname ↦ Register.declares_cbitVarString (hlisted r hr) hname
  have hcondition : (∀ r ∈ P.registers, r.Listed) → ∀ c : DataRepresentation,
      (∃ r ∈ P.registers, r.quantum = false ∧ r.name = c.name ∧
          c.cbitArrayString ∈ r.decls.map Prod.fst) ↔
        ∃ r ∈ P.registers, r.quantum = false ∧ r.name = c.name ∧
          '.' ∉ c.name.val ∧ Inside c.arrayIndices r.outer :=
    fun hlisted c ↦ exists_congr fun r ↦ and_congr_right fun hr ↦ and_congr_right fun _ ↦
      and_congr_right fun hname ↦ Register.cbitArrayString_mem_names (hlisted r hr) hname
  constructor
  · intro h
    have hlisted : ∀ r ∈ P.registers, r.Listed := fun r hr ↦
      r.listed_iff_decls.mpr ⟨h.each r hr, h.only r hr⟩
    exact {
      regular := fun r hr ↦ r.listed_iff.mp (hlisted r hr)
      apart := (nodup_names_iff hlisted).mp h.once
      operand := fun b hb call hcall q hq ↦
        (hoperand hlisted call q).mp (h.operand b hb call hcall q hq)
      destination := fun b hb call hcall hmeas c hc ↦
        (hdestination hlisted c).mp (h.destination b hb call hcall hmeas c hc)
      condition := fun b hb c hc ↦ (hcondition hlisted c.1).mp (h.condition b hb c hc) }
  · intro h
    have hlisted : ∀ r ∈ P.registers, r.Listed := fun r hr ↦ r.listed_iff.mpr (h.regular r hr)
    exact {
      each := fun r hr ↦ (r.listed_iff_decls.mp (hlisted r hr)).1
      only := fun r hr ↦ (r.listed_iff_decls.mp (hlisted r hr)).2
      once := (nodup_names_iff hlisted).mpr h.apart
      operand := fun b hb call hcall q hq ↦
        (hoperand hlisted call q).mpr (h.operand b hb call hcall q hq)
      destination := fun b hb call hcall hmeas c hc ↦
        (hdestination hlisted c).mpr (h.destination b hb call hcall hmeas c hc)
      condition := fun b hb c hc ↦ (hcondition hlisted c.1).mpr (h.condition b hb c hc) }

/-- The name `a`. -/
def regA : RegName := ⟨['a'], List.cons_ne_nil _ _, List.forall_mem_singleton.mpr (.inl rfl)⟩

/-- The array `qbit a[2][2][2]`. -/
def cubeMain : Program where
  registers := [⟨regA, true, false, [2, 2], 2, Nat.two_pos⟩]
  blocks := []

/-- The register `ax0x1` is declared twice, and `ax1x0` is not declared. -/
theorem not_declaredRight_cubeMain : ¬ DeclaredRight cubeMain := fun h ↦
  absurd (h.each _ List.mem_cons_self [0, 1] (by decide)) (by decide)

end ScaffCC.OpenQasm
