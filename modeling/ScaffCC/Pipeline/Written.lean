import ScaffCC.FlatQasm.Agree
import ScaffCC.OpenQasm.Refer
import ScaffCC.Pipeline.Compile

/-!
# The program that is written

The flattened main function is written as OpenQASM. The text can be read, the operators it stands
for are those of a list of gates on the words of the text, and with the right wires for the words
these gates do what the main function of the source stands for.
-/

namespace ScaffCC.Pipeline

open Filter Quantum GateCall FunctionReverse Flatten ToffoliReplace
open OpenQasm (Word RegName DataRepresentation FnCall Outcomes Register denote bitString genCall)
open FlatQasm (numerals opGate statementGate openGates operandText openText Readable readOpen)

/-! ## The operators of a text -/

theorem map_fst_andThen {f g : Outcomes} {A B : List (Op Word ℂ)}
    (hf : ∀ m, (f m).map Prod.fst = A) (hg : ∀ m, (g m).map Prod.fst = B) (m : OpenQasm.Memory) :
    (f.andThen g m).map Prod.fst = andThen A B := by
  rw [Outcomes.andThen, List.map_flatMap, andThen, ← hf m, List.flatMap_map]
  refine List.flatMap_congr fun r _ ↦ ?_
  rw [List.map_map, ← hg r.2, List.map_map]
  rfl

/-- An operation has the operators of its gate, whatever is in the memory. -/
theorem exists_outcomes {o : OpenQasm.Qop} {g : GateCall Word} (h : opGate o = some g) :
    ∃ f, o.outcomes numerals = some f ∧ ∀ m, (f m).map Prod.fst = g.outcomes := by
  have hgate : ∀ (g : GateCall Word) m, (Outcomes.ofGate g m).map Prod.fst = g.outcomes := by
    intro g m
    rw [Outcomes.ofGate, List.map_map]
    exact List.map_id _
  cases o with
  | measure q c =>
    obtain rfl := Option.some.inj h
    exact ⟨_, rfl, fun m ↦ by simp [GateCall.outcomes, Basis.matrix]⟩
  | reset q =>
    obtain rfl := Option.some.inj h
    exact ⟨_, rfl, hgate _⟩
  | gate name params operands =>
    rw [opGate] at h
    exact ⟨_, congrArg (Option.map Outcomes.ofGate) h, hgate g⟩

/-- **The operators of a list of operations** are those of their gates. -/
theorem exists_denote {ss : List OpenQasm.Statement} {G : List (GateCall Word)}
    (h : ss.mapM statementGate = some G) :
    ∃ f, denote numerals ss = some f ∧ ∀ m, (f m).map Prod.fst = circuit G := by
  induction ss generalizing G with
  | nil =>
    obtain rfl := Option.some.inj h
    exact ⟨_, rfl, fun m ↦ rfl⟩
  | cons s ss ih =>
    rw [List.mapM_cons] at h
    obtain ⟨g, hg, h⟩ := Option.bind_eq_some_iff.mp h
    obtain ⟨G, hG, h⟩ := Option.bind_eq_some_iff.mp h
    obtain rfl := Option.some.inj h
    obtain ⟨f', hf', hops⟩ := ih hG
    cases s with
    | op o =>
      obtain ⟨f, hf, hop⟩ := exists_outcomes hg
      refine ⟨f.andThen f', ?_, map_fst_andThen hop hops⟩
      rw [denote, OpenQasm.Statement.outcomes, hf, hf']
      rfl
    | declare | ifEq => cases hg

theorem exists_denote_declared (ds : List (Word × Word)) {ss : List OpenQasm.Statement}
    {A : List (Op Word ℂ)}
    (h : ∃ f, denote numerals ss = some f ∧ ∀ m, (f m).map Prod.fst = A) :
    ∃ f, denote numerals (ds.map (fun d ↦ .declare d.1 d.2) ++ ss) = some f ∧
      ∀ m, (f m).map Prod.fst = A := by
  induction ds with
  | nil => exact h
  | cons d ds ih =>
    obtain ⟨f, hf, hops⟩ := ih
    refine ⟨Outcomes.skip.andThen f, ?_, fun m ↦ ?_⟩
    · rw [List.map_cons, List.cons_append, denote, OpenQasm.Statement.outcomes, hf]
      rfl
    · have hskip : ∀ m : OpenQasm.Memory, (Outcomes.skip m).map Prod.fst = [1] := fun _ ↦ rfl
      rw [map_fst_andThen hskip hops, one_andThen]

/-! ## The text of a block -/

variable {S : Source} {unrollToff : Bool} {calls : List FnCall}

/-- The gates that the statements for calls stand for. -/
def textGates (calls : List FnCall) : List (GateCall Word) :=
  calls.flatMap fun call ↦ openGates (call.gate.map (openText call))

theorem readOpen_calls (h : ∀ call ∈ calls, Readable unrollToff call) :
    readOpen (calls.flatMap (genCall unrollToff)) = some (textGates calls) := by
  induction calls with
  | nil => rfl
  | cons call calls ih =>
    obtain ⟨hcall, hcalls⟩ := List.forall_mem_cons.mp h
    rw [List.flatMap_cons, FlatQasm.readOpen_genCall hcall, ih hcalls]
    rfl

/-- **A program with one block is read as its gates.** -/
theorem exists_read {Q : OpenQasm.Program} (hQ : Q.blocks = [⟨calls, none⟩])
    (h : ∀ call ∈ calls, Readable unrollToff call) :
    ∃ ss f, OpenQasm.read (OpenQasm.runOnModule unrollToff Q) = some ss ∧
      denote numerals ss = some f ∧ ∀ m, (f m).map Prod.fst = circuit (textGates calls) := by
  obtain ⟨ds, hread⟩ := OpenQasm.read_runOnModule Q
  have hpieces : Q.blocks.flatMap (OpenQasm.Block.pieces unrollToff) =
      calls.flatMap (FnCall.pieces unrollToff) := by
    rw [hQ, List.flatMap_singleton, OpenQasm.Block.pieces]
    exact List.append_nil _
  have hlex : OpenQasm.lex (calls.flatMap (genCall unrollToff)) =
      OpenQasm.tokensOf (calls.flatMap (FnCall.pieces unrollToff)) := by
    have h := OpenQasm.Lexes.flatMap (l := calls)
      (fun call _ ↦ OpenQasm.lexes_genCall unrollToff call) []
    rw [List.append_nil] at h
    exact h.trans (List.append_nil _)
  have hopen := readOpen_calls h
  rw [readOpen, OpenQasm.read, hlex] at hopen
  obtain ⟨ss, hss, hG⟩ := Option.bind_eq_some_iff.mp hopen
  obtain ⟨f, hf, hops⟩ := exists_denote_declared ds (exists_denote hG)
  refine ⟨_, f, ?_, hf, hops⟩
  rw [hread, hpieces, hss]
  rfl


/-! ## Gates that are written exactly -/

/-- The gate keeps its meaning: the angle survives six digits, a qubit is prepared with a bit,
measurements are in the computational basis, and the operands of the larger gates are distinct. -/
def Exact {ι : Type*} (unrollToff : Bool) : GateCall ι → Prop
  | .rot _ _ θ => Text.sixDigits θ = θ
  | .prep _ _ v => v = 0 ∨ v = 1
  | .meas basis _ => basis = .z
  | .Toffoli c₁ c₂ t => c₁ ≠ c₂ ∧ c₁ ≠ t ∧ c₂ ≠ t
  | .Fredkin c a b => unrollToff = false ∧ c ≠ a ∧ c ≠ b ∧ a ≠ b
  | .gate1 _ _ | .CNOT _ _ => True

section Exact

variable {κ : Type*} [DecidableEq κ] {C C' : List (GateCall κ)}

theorem pauliX_mul_ketBra (b : Bool) : pauliX * ketBra false b = ketBra true b := by
  ext i j
  cases i <;> cases j <;> cases b <;> simp [Matrix.mul_apply, pauliX, ketBra]

theorem circuit_openGates {g : GateCall κ} (h : Exact unrollToff g) :
    circuit (openGates g) = circuit [g] := by
  cases g with
  | gate1 | CNOT | Toffoli => rfl
  | rot axis q θ => rw [openGates, h]
  | prep basis q v =>
    -- the bit flip comes before the change of basis
    rcases h with rfl | rfl <;> cases basis <;>
      simp [circuit, openGates, GateCall.outcomes, andThen, onWire_mul, Basis.matrix, Gate1.matrix,
        Matrix.mul_assoc, pauliX_mul_ketBra]
  | meas basis q =>
    obtain rfl : basis = .z := h
    rfl
  | Fredkin c a b =>
    obtain ⟨-, hca, hcb, hab⟩ := h
    simp [circuit, openGates, GateCall.outcomes, OpenQasm.exchange_eq hca hcb hab, mul_assoc]

theorem circuit_flatMap_openGates (h : ∀ g ∈ C, Exact unrollToff g) :
    circuit (C.flatMap openGates) = circuit C := by
  induction C with
  | nil => rfl
  | cons g C ih =>
    obtain ⟨hg, hC⟩ := List.forall_mem_cons.mp h
    have hhead := circuit_openGates hg
    have htail := ih hC
    rw [circuit, circuit] at hhead htail
    rw [circuit, circuit, List.flatMap_cons, run_append, hhead, htail, ← run_append,
      List.singleton_append]

omit [DecidableEq κ] in
theorem exact_of_lowered (h : Lowered C C') (hC : ∀ g ∈ C, Exact unrollToff g) :
    ∀ g ∈ C', Exact unrollToff g := by
  induction h with
  | nil => exact hC
  | @cons g p C C' hg _ ih =>
    obtain ⟨hexact, hC⟩ := List.forall_mem_cons.mp hC
    refine List.forall_mem_append.mpr ⟨?_, ih hC⟩
    cases hg with
    | same g => exact List.forall_mem_singleton.mpr hexact
    | forth c₁ c₂ t => simp [implGates, implPhase, Exact]
    | back c₁ c₂ t => simp [inverse, implGates, implPhase, inverseGate, Exact]

end Exact

/-! ## The printed program -/

/-- The names of the arrays of a function, which stay apart when the dots are replaced. -/
structure ArrayNames where
  name : Base → RegName
  apart : ∀ k l, OpenQasm.replaceDots (name k).val = OpenQasm.replaceDots (name l).val → k = l

namespace ArrayNames

variable (N : ArrayNames)

/-- What an operand is traced back to. -/
def data (o : Operand) : DataRepresentation := ⟨N.name o.base, o.ty, false, [(o.index : ℤ)]⟩

/-- The word for an element of an array. -/
def word : Env Word := fun k i ↦ OpenQasm.replaceDots (N.name k).val ++ bitString i

theorem operandText_data (o : Operand) : operandText (N.data o) = N.word.wire o := by
  rw [operandText, DataRepresentation.qbitVarString_eq rfl]
  exact congrArg (· ++ _) (List.append_nil _)

theorem word_injective : Function.Injective fun p : Base × ℕ ↦ N.word p.1 p.2 := by
  rintro ⟨k, i⟩ ⟨l, j⟩ h
  have hplain : ∀ k, ∀ c ∈ OpenQasm.replaceDots (N.name k).val, decide (c ≠ '[') := by
    intro k c hc
    obtain ⟨c', hc', rfl⟩ := List.mem_map.mp hc
    refine decide_eq_true ?_
    rintro hbracket
    split_ifs at hbracket
    · exact absurd hbracket (by decide)
    · rcases (N.name k).ident c' hc' with h | h | h
      · rw [hbracket] at h
        exact absurd h (by decide)
      · exact absurd (hbracket.symm.trans h) (by decide)
      · contradiction
  have hbracket : ¬ decide ('[' ≠ '[') := by decide
  obtain ⟨hname, hindex⟩ := Text.takeWhile_append_cons (hplain k) hbracket
  obtain ⟨hname', hindex'⟩ := Text.takeWhile_append_cons (hplain l) hbracket
  have hkl : k = l := N.apart k l (hname.symm.trans ((congrArg _ h).trans hname'))
  have hbits : OpenQasm.indexString [] ++ bitString i = OpenQasm.indexString [] ++ bitString j :=
    hindex.symm.trans ((congrArg _ h).trans hindex')
  exact Prod.ext hkl (Int.ofNat_inj.mp (OpenQasm.indexString_append_inj hbits).2)

end ArrayNames


/-- The gates of a body, in order. -/
def gateCalls (b : List Instr) : List (GateCall Operand) :=
  b.filterMap fun
    | .gate g => some g
    | .alloca _ _ | .call _ _ => none

/-- The calls of a block: the gates, with the destinations of their results. -/
def printedCalls (N : ArrayNames) (dest : ℕ → Option DataRepresentation) (b : List Instr) :
    List FnCall :=
  (gateCalls b).zipIdx.map fun p ↦ ⟨p.1.map N.data, dest p.2⟩

/-- No function is called but `store_cbit`, which the printer takes for a destination. -/
def onlyStores : Instr → Bool
  | .call n _ => n = storeCbit
  | .alloca _ _ | .gate _ => true

/-- The program that is printed for a flat body, in which only `store_cbit` is called. -/
def printedProgram (N : ArrayNames) (dest : ℕ → Option DataRepresentation)
    (registers : List Register) (b : List Instr) : Option OpenQasm.Program :=
  if b.all onlyStores then some ⟨registers, [⟨printedCalls N dest b, none⟩]⟩ else none

/-- The result of every measurement is stored. -/
def AllStored (dest : ℕ → Option DataRepresentation) (b : List Instr) : Prop :=
  ∀ i basis q, (gateCalls b)[i]? = some (.meas basis q) → dest i ≠ none

section Printed

variable {N : ArrayNames} {dest : ℕ → Option DataRepresentation} {b : List Instr}

theorem gates_eq {κ : Type*} (ρ : Env κ) (b : List Instr) :
    gates ρ b = (gateCalls b).map (GateCall.map ρ.wire) := by
  rw [gates, gateCalls, List.map_filterMap]
  refine List.filterMap_congr fun i _ ↦ ?_
  cases i <;> rfl

theorem map_openText (g : GateCall Operand) (rtn : Option DataRepresentation) :
    (g.map N.data).map (openText ⟨g.map N.data, rtn⟩) = g.map N.word.wire := by
  rw [GateCall.map_map]
  refine GateCall.map_congr fun o _ ↦ ?_
  rw [Function.comp_apply, ← N.operandText_data, openText]
  cases g <;> rfl

theorem textGates_printedCalls :
    textGates (printedCalls N dest b) = (gates N.word b).flatMap openGates := by
  have hfst : gates N.word b = (gateCalls b).zipIdx.map fun p ↦ p.1.map N.word.wire := by
    conv_lhs => rw [gates_eq, ← List.zipIdx_map_fst 0 (gateCalls b), List.map_map]
    rfl
  rw [textGates, printedCalls, hfst, List.flatMap_map, List.flatMap_map]
  exact List.flatMap_congr fun p _ ↦ congrArg openGates (map_openText p.1 (dest p.2))

theorem readable_printedCalls {κ : Type*} {ρ : Env κ} (hstored : AllStored dest b)
    (hexact : ∀ g ∈ gates ρ b, Exact unrollToff g) :
    ∀ call ∈ printedCalls N dest b, Readable unrollToff call := by
  intro call hcall
  obtain ⟨⟨g, i⟩, hmem, rfl⟩ := List.mem_map.mp hcall
  have hg := List.mem_zipIdx_iff_getElem?.mp hmem
  have hgate : g.map ρ.wire ∈ gates ρ b := by
    rw [gates_eq]
    exact List.mem_map_of_mem (List.mem_of_getElem? hg)
  have hexact := hexact _ hgate
  cases g with
  | meas basis q => exact hstored i basis q hg
  | Fredkin c a b => exact hexact.1
  | _ => trivial

end Printed

/-- **The text means what the source means.** The main function is printed as a text that can be
read. The operators that the text stands for are those of a list of gates on its words, and for
every circuit of the main function of the source that is written exactly there are wires for the
words, among them those of the arrays of that function, on which the gates do the same. -/
theorem writes {κ : Type} [DecidableEq κ] (ho : Ordered S.M) (hT : TurnFree κ S.M)
    (hmain : "main".toList ∈ S.external) :
    ∃ P : Program, P.external = S.external ∧ (∀ᶠ fuel in atTop, S.lowered fuel = some P.M) ∧
      ∀ order, SccOrder P order → ∀ b, S.M.bodyOf "main".toList = some b →
        ∃ b', (flattened P.M order).bodyOf "main".toList = some b' ∧
          ∀ N dest registers unrollToff Q, printedProgram N dest registers b' = some Q →
            AllStored dest b' → ∀ (ρ : Env κ) C, Denotes dagger S.M ρ b C →
            (∀ g ∈ C, Exact unrollToff g) →
              ∃ ss f G wires, OpenQasm.read (OpenQasm.runOnModule unrollToff Q) = some ss ∧
                denote numerals ss = some f ∧ (∀ m, (f m).map Prod.fst = circuit G) ∧
                Agrees (numAllocas b) ρ (fun k i ↦ wires (N.word k i)) ∧
                circuit (G.map (GateCall.map wires)) = circuit C := by
  obtain ⟨P, hexternal, hrun, hreach, hbody⟩ := exists_gates ho hT
  refine ⟨P, hexternal, hrun, fun order horder b hb ↦ ?_⟩
  obtain ⟨b', hb', -, hforth, -⟩ := hbody order horder _ b (hreach _ hmain b hb) hb
  refine ⟨b', hb', fun N dest registers unrollToff Q hQ hstored ρ C hC hexact ↦ ?_⟩
  obtain ⟨ρ', hagrees, hlow⟩ := hforth ρ C hC
  have hexact' := exact_of_lowered hlow hexact
  obtain ⟨-, hQ⟩ := Option.ite_none_right_eq_some.mp hQ
  have hblocks : Q.blocks = [⟨printedCalls N dest b', none⟩] :=
    congrArg OpenQasm.Program.blocks (Option.some.inj hQ).symm
  obtain ⟨ss, f, hread, hf, hops⟩ := exists_read hblocks (readable_printedCalls hstored hexact')
  -- the words stand for the wires of the flat function
  let wires : Word → κ := Function.extend (fun p : Base × ℕ ↦ N.word p.1 p.2)
    (fun p ↦ ρ' p.1 p.2) fun _ ↦ ρ' (.alloca 0) 0
  have hwires : ∀ k i, wires (N.word k i) = ρ' k i := fun k i ↦
    N.word_injective.extend_apply _ _ (k, i)
  have hgates : (gates N.word b').map (GateCall.map wires) = gates ρ' b' := by
    rw [gates_eq, gates_eq, List.map_map]
    refine List.map_congr_left fun g _ ↦ ?_
    rw [Function.comp_apply, GateCall.map_map]
    exact GateCall.map_congr fun o _ ↦ hwires o.base o.index
  refine ⟨ss, f, _, wires, hread, hf, hops, ⟨fun p ↦ ?_, fun a ha ↦ ?_⟩, ?_⟩
  · exact (hagrees.1 p).trans (funext fun i ↦ (hwires _ i).symm)
  · exact (hagrees.2 a ha).trans (funext fun i ↦ (hwires _ i).symm)
  · have hopen : (textGates (printedCalls N dest b')).map (GateCall.map wires) =
        (gates ρ' b').flatMap openGates := by
      rw [textGates_printedCalls, List.map_flatMap, ← hgates, List.flatMap_map]
      exact List.flatMap_congr fun g _ ↦ FlatQasm.map_openGates wires g
    rw [hopen, circuit_flatMap_openGates hexact', hlow.circuit_eq fun c₁ c₂ t hmem ↦ hexact _ hmem]

/-- The main function with a function and its inverse is printed as a text that means this. -/
theorem writes_forthAndBack :
    ∃ P : Program, P.external = {"main".toList} ∧
      (∀ᶠ fuel in atTop, forthAndBackSource.lowered fuel = some P.M) ∧
      ∀ order, SccOrder P order → ∀ b, forthAndBack.bodyOf "main".toList = some b →
        ∃ b', (flattened P.M order).bodyOf "main".toList = some b' ∧
          ∀ N dest registers unrollToff Q, printedProgram N dest registers b' = some Q →
            AllStored dest b' → ∀ (ρ : Env ℕ) C, Denotes dagger forthAndBack ρ b C →
            (∀ g ∈ C, Exact unrollToff g) →
              ∃ ss f G wires, OpenQasm.read (OpenQasm.runOnModule unrollToff Q) = some ss ∧
                denote numerals ss = some f ∧ (∀ m, (f m).map Prod.fst = circuit G) ∧
                Agrees (numAllocas b) ρ (fun k i ↦ wires (N.word k i)) ∧
                circuit (G.map (GateCall.map wires)) = circuit C :=
  writes (S := forthAndBackSource) ordered_forthAndBack (turnFree_forthAndBack ℕ) rfl

end ScaffCC.Pipeline
