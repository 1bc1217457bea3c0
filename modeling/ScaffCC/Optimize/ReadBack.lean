import Mathlib.Data.Set.Function
import ScaffCC.IR.Names
import ScaffCC.Memory.Bytes
import ScaffCC.Optimize.Listing

/-!
# Reading the listing back

The listing denotes the body of `main` exactly when no gate is of a kind that is left out, every
preparation is of the value zero, every angle has seven significant digits, and the flattened names
of the operands are found and are the same for the same qubits only.
-/

namespace ScaffCC.Optimize

open OpenQasm (Word RegName find)
open FlatQasm (printOperands splitEnds IsOperand)
open Text

/-! ## Kinds of gates -/

/-- The kind of a gate. The kinds `Y`, `Rx`, `Ry` and `Fredkin` are not found. -/
def kind {ι : Type*} : GateCall ι → GateTy
  | .gate1 .H _ => .H
  | .gate1 .X _ => .X
  | .gate1 .Y _ | .rot .x _ _ | .rot .y _ _ | .Fredkin _ _ _ => .erased
  | .gate1 .Z _ => .Z
  | .gate1 .S _ => .S
  | .gate1 .Sdag _ => .Sdag
  | .gate1 .T _ => .T
  | .gate1 .Tdag _ => .Tdag
  | .rot .z _ _ => .Rz
  | .prep .x _ _ => .PrepX
  | .prep .z _ _ => .PrepZ
  | .meas .x _ => .MeasX
  | .meas .z _ => .MeasZ
  | .CNOT _ _ => .CNOT
  | .Toffoli _ _ _ => .Tof

theorem kind_shape {ι : Type*} (ty : ι → QTy) (g : GateCall ι) : kind (g.shape ty) = kind g := by
  cases g with
  | gate1 k => cases k <;> rfl
  | rot axis => cases axis <;> rfl
  | prep basis => cases basis <;> rfl
  | meas basis => cases basis <;> rfl
  | CNOT | Toffoli | Fredkin => rfl

theorem gateTy_name {ι : Type*} (ty : ι → QTy) (g : GateCall ι) : gateTy (g.name ty) = kind g := by
  have hall : ∀ s ∈ GateCall.shapes, gateTy (s.name id) = kind s := by decide +kernel
  rw [← GateCall.name_shape, ← kind_shape ty]
  exact hall _ (g.shape_mem ty)

/-! ## Names of elements -/

variable {rs : List Register} {q : Operand}

theorem lookup_pos_iff {B : List Word} {w : Word} : 0 < lookup B w ↔ w ∈ B.drop 1 := by
  rw [lookup]
  cases h : (B.drop 1).idxOf? w with
  | none => simpa using List.idxOf?_eq_none_iff.mp h
  | some i =>
    obtain ⟨hi, heq, -⟩ := List.idxOf?_eq_some_iff.mp h
    simpa using List.mem_of_getElem heq

theorem getD_lookup {B : List Word} {w : Word} (h : 0 < lookup B w) :
    B.getD (lookup B w) [] = w := by
  rw [lookup] at h ⊢
  cases hidx : (B.drop 1).idxOf? w with
  | none =>
    rw [hidx] at h
    exact absurd h (lt_irrefl 0)
  | some i =>
    obtain ⟨hi, heq, -⟩ := List.idxOf?_eq_some_iff.mp hidx
    rw [List.getElem_drop] at heq
    dsimp only
    rw [List.getD_eq_getElem?_getD, Nat.add_comm, ← heq, List.getElem?_eq_getElem, Option.getD_some]

/-- The operand has a name in the list. -/
def Operand.Found (rs : List Register) (q : Operand) : Prop :=
  ∃ r ∈ rs, printVarName r.name.val = printVarName q.reg.val ∧ q.qInd rs < r.dMul

instance (rs : List Register) (q : Operand) : Decidable (q.Found rs) :=
  inferInstanceAs (Decidable (∃ r ∈ rs,
    printVarName r.name.val = printVarName q.reg.val ∧ q.qInd rs < r.dMul))

theorem dMul_le (r : Register) : r.dMul ≤ 2 ^ 32 := by
  rw [Register.dMul]
  induction r.dims using List.reverseRecOn with
  | nil => decide
  | append_singleton ds d =>
    rw [List.foldl_append]
    exact (Nat.mod_lt _ (by decide)).le

theorem to_string_inj {i j : ℕ} (hi : i < 2 ^ 32) (hj : j < 2 ^ 32) :
    to_string i = to_string j ↔ i = j := by
  refine ⟨fun h ↦ ?_, congrArg _⟩
  have hz := showInt_injective h
  rw [Int.bmod_def, Int.bmod_def] at hz
  split_ifs at hz <;> omega

theorem underscore_notMem_to_string (i : ℕ) : '_' ∉ to_string i := by
  intro h
  rcases mem_showInt h with h | h <;> exact absurd h (by decide)

theorem append_underscore_inj {u u' v v' : Word} (hv : '_' ∉ v) (hv' : '_' ∉ v') :
    u ++ '_' :: v = u' ++ '_' :: v' ↔ u = u' ∧ v = v' := by
  have hsplit : ∀ {u v : Word}, '_' ∉ v →
      (u ++ '_' :: v).reverse.takeWhile (· ≠ '_') = v.reverse ∧
        (u ++ '_' :: v).reverse.dropWhile (· ≠ '_') = '_' :: u.reverse := by
    intro u v hv
    rw [List.reverse_append, List.reverse_cons, List.append_assoc, List.singleton_append]
    exact takeWhile_append_cons (fun c hc ↦ decide_eq_true fun h ↦
      hv (h ▸ List.mem_reverse.mp hc)) (by decide)
  constructor
  · intro h
    obtain ⟨htake, hdrop⟩ := hsplit (u := u) hv
    obtain ⟨htake', hdrop'⟩ := hsplit (u := u') hv'
    rw [h, htake'] at htake
    rw [h, hdrop'] at hdrop
    exact ⟨(List.reverse_injective (List.cons.inj hdrop).2).symm,
      (List.reverse_injective htake).symm⟩
  · rintro ⟨rfl, rfl⟩
    rfl

theorem bitName_inj {n n' : RegName} {i j : ℕ} (hi : i < 2 ^ 32) (hj : j < 2 ^ 32) :
    bitName n i = bitName n' j ↔ printVarName n.val = printVarName n'.val ∧ i = j := by
  rw [bitName, bitName, append_underscore_inj (underscore_notMem_to_string i)
    (underscore_notMem_to_string j), to_string_inj hi hj]

theorem qInd_lt (rs : List Register) (q : Operand) : q.qInd rs < 2 ^ 32 :=
  Nat.mod_lt _ (by decide)

theorem lookup_pos_iff_found : 0 < lookup (bitMap rs) (q.qName rs) ↔ q.Found rs := by
  rw [lookup_pos_iff, bitMap, List.drop_succ_cons, List.drop_zero, List.mem_flatMap]
  refine exists_congr fun r ↦ and_congr_right fun _ ↦ ?_
  rw [List.mem_map]
  constructor
  · rintro ⟨i, hi, heq⟩
    have hlt := List.mem_range.mp hi
    obtain ⟨hname, rfl⟩ := (bitName_inj (hlt.trans_le (dMul_le r)) (qInd_lt rs q)).mp heq
    exact ⟨hname, hlt⟩
  · rintro ⟨hname, hlt⟩
    exact ⟨_, List.mem_range.mpr hlt,
      (bitName_inj (hlt.trans_le (dMul_le r)) (qInd_lt rs q)).mpr ⟨hname, rfl⟩⟩

theorem mem_bitName {n : RegName} {i : ℕ} {c : Char} (h : c ∈ bitName n i) :
    c.isAlphanum ∨ c = '_' ∨ c = '.' ∨ c = '-' := by
  have hbefore : ∀ w : Word, c ∈ before ".addr".toList w → c ∈ w := by
    intro w
    induction w with
    | nil => exact id
    | cons d w ih =>
      rw [before]
      split_ifs
      · exact fun h ↦ absurd h List.not_mem_nil
      · exact fun h ↦ List.mem_cons.mpr ((List.mem_cons.mp h).imp_right ih)
  rcases List.mem_append.mp h with h | h
  · have hmem : c ∈ n.val := by
      rw [printVarName] at h
      split_ifs at h
      · exact List.mem_of_mem_dropLast (List.mem_of_mem_dropLast h)
      · exact List.mem_of_mem_dropLast h
      · exact hbefore _ h
    exact (n.ident c hmem).imp_right fun h ↦ h.imp_right .inl
  · rcases List.mem_cons.mp h with rfl | h
    · exact .inr (.inl rfl)
    · rcases mem_showInt h with h | h
      · exact .inl (by simp [Char.isAlphanum, h])
      · exact .inr (.inr (.inr h))

theorem isOperand_bitName (n : RegName) (i : ℕ) : IsOperand (bitName n i) := by
  constructor <;>
  · intro h
    rcases mem_bitName h with h | h | h | h <;> exact absurd h (by decide)

theorem bitName_ne_nil (n : RegName) (i : ℕ) : bitName n i ≠ [] :=
  List.append_ne_nil_of_right_ne_nil _ (List.cons_ne_nil _ _)

theorem isOperand_showExp (θ : ℚ) : IsOperand (showExp θ) := by
  constructor <;>
  · intro h
    rcases mem_showExp h with h | h | h | h | h <;> exact absurd h (by decide)

/-! ## Lines -/

/-- The words that stand in the line for a gate. -/
def words (B : List Word) (g : OpGate) : List Word :=
  (if g.control2 > 0 then [B.getD g.control2 []] else []) ++
    ((if g.control1 > 0 then [B.getD g.control1 []] else []) ++
      ((if g.target > 0 then B.getD g.target [] else []) ::
        if g.hasParam then [showExp g.param] else []))

theorem printGate_eq (B : List Word) {g : OpGate} (hg : g.gateTy ≠ .erased) :
    printGate B g = FlatQasm.line g.gateTy.text (words B g) := by
  rw [printGate, if_neg hg, FlatQasm.line, words]
  split_ifs <;> simp [printOperands]

theorem readListing_line {l : List Char} (hl : '\n' ∉ l) (cs : List Char) :
    readListing (l ++ '\n' :: cs) =
      (readLine l).bind fun gs ↦ (readListing cs).map (gs ++ ·) := by
  rw [readListing, readListing, FlatQasm.splitEnds_append hl, List.nil_append]
  cases splitEnds '\n' [] cs with
  | none => cases readLine l <;> rfl
  | some ls =>
    rw [Option.map_some, Option.bind_some, Option.bind_some, List.mapM_cons]
    cases readLine l <;> cases ls.mapM readLine <;> rfl

theorem readListing_words {name : Word} (hname : ' ' ∉ name ∧ '\n' ∉ name)
    (hqubit : name ≠ "qubit".toList) {ws : List Word} (hne : ws ≠ [])
    (hws : ∀ w ∈ ws, IsOperand w) (cs : List Char) :
    readListing (FlatQasm.line name ws ++ cs) =
      ((readGate name ws).map ([·])).bind fun gs ↦ (readListing cs).map (gs ++ ·) := by
  have hspace : ∀ c ∈ name, decide (c ≠ ' ') := fun c hc ↦
    decide_eq_true fun h ↦ hname.1 (h ▸ hc)
  have hline : '\n' ∉ name ++ ' ' :: printOperands ws := by
    rw [List.mem_append, List.mem_cons, not_or, not_or]
    exact ⟨hname.2, by decide, FlatQasm.notMem_newline hws⟩
  obtain ⟨htake, hdrop⟩ : (name ++ ' ' :: printOperands ws).takeWhile (· ≠ ' ') = name ∧
      (name ++ ' ' :: printOperands ws).dropWhile (· ≠ ' ') = ' ' :: printOperands ws :=
    takeWhile_append_cons hspace (by decide)
  have htext : FlatQasm.line name ws ++ cs = (name ++ ' ' :: printOperands ws) ++ '\n' :: cs := by
    simp [FlatQasm.line]
  rw [htext, readListing_line hline, readLine, htake, hdrop, if_neg hqubit, List.drop_succ_cons,
    List.drop_zero, FlatQasm.splitEnds_operands hne fun w hw ↦ (hws w hw).1, Option.bind_some]

theorem readListing_declared {w : Word} (hw : '\n' ∉ w) (cs : List Char) :
    readListing ("qubit ".toList ++ w ++ ['\n'] ++ cs) = readListing cs := by
  have hline : '\n' ∉ "qubit ".toList ++ w := by
    rw [List.mem_append, not_or]
    exact ⟨by decide, hw⟩
  have htext : "qubit ".toList ++ w ++ ['\n'] ++ cs = ("qubit ".toList ++ w) ++ '\n' :: cs := by
    simp
  obtain ⟨htake, -⟩ : ("qubit".toList ++ ' ' :: w).takeWhile (· ≠ ' ') = "qubit".toList ∧
      ("qubit".toList ++ ' ' :: w).dropWhile (· ≠ ' ') = ' ' :: w :=
    takeWhile_append_cons (by simp) (by decide)
  have hread : readLine ("qubit ".toList ++ w) = some [] := by
    rw [readLine]
    exact if_pos htake
  rw [htext, readListing_line hline, hread, Option.bind_some]
  exact Option.map_id'

theorem text_plain (k : GateTy) : (' ' ∉ k.text ∧ '\n' ∉ k.text) ∧ k.text ≠ "qubit".toList := by
  cases k <;> decide +kernel

/-! ## The line for a call -/

variable {g : GateCall Operand}

/-- What a gate becomes in the listing: a preparation loses its value, and an angle is rounded. -/
def listed {ι : Type*} : GateCall ι → GateCall ι
  | .rot axis q θ => .rot axis q (sevenDigits θ)
  | .prep basis q _ => .prep basis q 0
  | g => g

def lastWord (rs : List Register) (q : Operand) : Word :=
  if lookup (bitMap rs) (q.qName rs) > 0 then
    (bitMap rs).getD (lookup (bitMap rs) (q.qName rs)) [] else []

def controlWords (rs : List Register) (q : Operand) : List Word :=
  if lookup (bitMap rs) (q.qName rs) > 0 then
    [(bitMap rs).getD (lookup (bitMap rs) (q.qName rs)) []] else []

theorem lastWord_of_found (h : q.Found rs) : lastWord rs q = q.qName rs := by
  have hpos := lookup_pos_iff_found.mpr h
  rw [lastWord, if_pos hpos, getD_lookup hpos]

theorem lastWord_of_not_found (h : ¬ q.Found rs) : lastWord rs q = [] :=
  if_neg fun hpos ↦ h (lookup_pos_iff_found.mp hpos)

theorem controlWords_of_found (h : q.Found rs) : controlWords rs q = [q.qName rs] := by
  have hpos := lookup_pos_iff_found.mpr h
  rw [controlWords, if_pos hpos, getD_lookup hpos]

theorem controlWords_of_not_found (h : ¬ q.Found rs) : controlWords rs q = [] :=
  if_neg fun hpos ↦ h (lookup_pos_iff_found.mp hpos)

def callWords (rs : List Register) : GateCall Operand → List Word
  | .gate1 _ q | .meas _ q => [lastWord rs q]
  | .rot _ q θ => [lastWord rs q, showExp θ]
  | .prep _ q _ => [lastWord rs q, showExp 0]
  | .CNOT c t => controlWords rs c ++ [lastWord rs t]
  | .Toffoli a b t => controlWords rs b ++ (controlWords rs a ++ [lastWord rs t])
  | .Fredkin _ _ _ => []

theorem nxtGate_eq (rs : List Register) (g : GateCall Operand) : nxtGate rs g =
    ((qArgs g).foldl (addArg rs) (⟨kind g, 0, 0, 0, false, 0⟩, 0)).1 := by
  rw [nxtGate, gateTy_name]

theorem gateTy_nxtGate (rs : List Register) (g : GateCall Operand) :
    (nxtGate rs g).gateTy = kind g := by
  rw [nxtGate_eq]
  cases g with
  | gate1 k => cases k <;> rfl
  | rot axis => cases axis <;> rfl
  | prep basis => cases basis <;> rfl
  | meas basis => cases basis <;> rfl
  | CNOT | Toffoli | Fredkin => rfl

theorem words_nxtGate (hg : kind g ≠ .erased) :
    words (bitMap rs) (nxtGate rs g) = callWords rs g := by
  rw [nxtGate_eq]
  cases g with
  | gate1 k => cases k <;> rfl
  | rot axis => cases axis <;> rfl
  | prep basis => cases basis <;> rfl
  | meas basis => cases basis <;> rfl
  | CNOT | Toffoli => rfl
  | Fredkin => exact absurd rfl hg

theorem isOperand_callWords : ∀ w ∈ callWords rs g, IsOperand w := by
  have hnil : IsOperand [] := ⟨List.not_mem_nil, List.not_mem_nil⟩
  have hlast : ∀ q, IsOperand (lastWord rs q) := by
    intro q
    by_cases h : q.Found rs
    · rw [lastWord_of_found h]
      exact isOperand_bitName _ _
    · rw [lastWord_of_not_found h]
      exact hnil
  have hcontrol : ∀ q, ∀ w ∈ controlWords rs q, IsOperand w := by
    intro q w hw
    by_cases h : q.Found rs
    · rw [controlWords_of_found h, List.mem_singleton] at hw
      exact hw ▸ isOperand_bitName _ _
    · rw [controlWords_of_not_found h] at hw
      exact absurd hw List.not_mem_nil
  intro w hw
  cases g with
  | gate1 k q | meas basis q => exact List.mem_singleton.mp hw ▸ hlast q
  | rot axis q θ | prep basis q v =>
    rcases List.mem_cons.mp hw with rfl | hw
    · exact hlast q
    · exact List.mem_singleton.mp hw ▸ isOperand_showExp _
  | CNOT c t =>
    rcases List.mem_append.mp hw with hw | hw
    · exact hcontrol c w hw
    · exact List.mem_singleton.mp hw ▸ hlast t
  | Toffoli a b t =>
    rcases List.mem_append.mp hw with hw | hw
    · exact hcontrol b w hw
    · rcases List.mem_append.mp hw with hw | hw
      · exact hcontrol a w hw
      · exact List.mem_singleton.mp hw ▸ hlast t
  | Fredkin => exact absurd hw List.not_mem_nil

theorem callWords_ne_nil (hg : kind g ≠ .erased) : callWords rs g ≠ [] := by
  cases g with
  | gate1 | rot | prep | meas => exact List.cons_ne_nil _ _
  | CNOT | Toffoli => simp [callWords]
  | Fredkin => exact absurd rfl hg

/-- The gates that are read from the line for a call, if it can be read. -/
def lineGates (rs : List Register) (g : GateCall Operand) : Option (List (GateCall Word)) :=
  if kind g = .erased then some []
  else if ∀ q ∈ g.operands, q.Found rs then some [(listed g).map (Operand.qName rs)] else none

theorem readGate_of_mem {name : Word} {ws : List Word} (h : [] ∈ ws) : readGate name ws = none :=
  if_pos (List.contains_iff_mem.mpr h)

theorem readGate_of_notMem {name : Word} {ws : List Word} (h : [] ∉ ws) :
    readGate name ws = gateOf name ws :=
  if_neg fun hc ↦ h (List.contains_iff_mem.mp hc)

theorem readGate_of_found (hg : kind g ≠ .erased) (h : ∀ q ∈ g.operands, q.Found rs) :
    readGate (kind g).text (callWords rs g) = some ((listed g).map (Operand.qName rs)) := by
  have hne : ∀ q : Operand, q.qName rs ≠ [] := fun q ↦ bitName_ne_nil _ _
  have hexp : ∀ θ, showExp θ ≠ [] := showExp_ne_nil
  cases g with
  | gate1 k q | meas k q =>
    rw [callWords, lastWord_of_found (List.forall_mem_singleton.mp h),
      readGate_of_notMem (by simp [hne])]
    cases k <;> first | rfl | exact absurd rfl hg
  | rot axis q θ =>
    rw [callWords, lastWord_of_found (List.forall_mem_singleton.mp h),
      readGate_of_notMem (by simp [hne, hexp]), listed, ← readDecimal_showExp]
    cases axis <;> first | rfl | exact absurd rfl hg
  | prep basis q v =>
    have hzero : readDecimal (showExp 0) = 0 := readDecimal_showExp 0
    rw [callWords, lastWord_of_found (List.forall_mem_singleton.mp h),
      readGate_of_notMem (by simp [hne, hexp])]
    rw [gateOf, hzero]
    cases basis <;> rfl
  | CNOT c t =>
    obtain ⟨hc, ht⟩ := List.forall_mem_cons.mp h
    rw [callWords, controlWords_of_found hc, lastWord_of_found (List.forall_mem_singleton.mp ht),
      readGate_of_notMem (by simp [hne])]
    rfl
  | Toffoli a b t =>
    obtain ⟨ha, hbt⟩ := List.forall_mem_cons.mp h
    obtain ⟨hb, ht⟩ := List.forall_mem_cons.mp hbt
    rw [callWords, controlWords_of_found ha, controlWords_of_found hb,
      lastWord_of_found (List.forall_mem_singleton.mp ht),
      readGate_of_notMem (by simp [hne])]
    rfl
  | Fredkin => exact absurd rfl hg

theorem readGate_of_last {name : Word} (h : ¬ q.Found rs) (us vs : List Word) :
    readGate name (us ++ lastWord rs q :: vs) = none := by
  rw [lastWord_of_not_found h]
  exact readGate_of_mem (List.mem_append_right _ List.mem_cons_self)

theorem readGate_of_not_found (hg : kind g ≠ .erased) (h : ¬ ∀ q ∈ g.operands, q.Found rs) :
    readGate (kind g).text (callWords rs g) = none := by
  have hne : ∀ q : Operand, q.qName rs ≠ [] := fun q ↦ bitName_ne_nil _ _
  cases g with
  | gate1 k q | meas k q | rot k q θ | prep k q v =>
    exact readGate_of_last (fun hq ↦ h (List.forall_mem_singleton.mpr hq)) [] _
  | CNOT c t =>
    by_cases ht : t.Found rs
    · -- only the target is printed
      have hc : ¬ c.Found rs := fun hc ↦
        h (List.forall_mem_cons.mpr ⟨hc, List.forall_mem_singleton.mpr ht⟩)
      rw [callWords, controlWords_of_not_found hc, lastWord_of_found ht, List.nil_append,
        readGate_of_notMem (by simp [hne])]
      rfl
    · exact readGate_of_last ht _ _
  | Toffoli a b t =>
    by_cases ht : t.Found rs
    · have hab : ¬ (a.Found rs ∧ b.Found rs) := fun hab ↦ h (List.forall_mem_cons.mpr
        ⟨hab.1, List.forall_mem_cons.mpr ⟨hab.2, List.forall_mem_singleton.mpr ht⟩⟩)
      rw [callWords, lastWord_of_found ht]
      by_cases ha : a.Found rs
      · have hb : ¬ b.Found rs := fun hb ↦ hab ⟨ha, hb⟩
        rw [controlWords_of_found ha, controlWords_of_not_found hb, List.nil_append,
          List.singleton_append, readGate_of_notMem (by simp [hne])]
        exact ite_self _
      · rw [controlWords_of_not_found ha, List.nil_append]
        by_cases hb : b.Found rs
        · rw [controlWords_of_found hb, List.singleton_append,
            readGate_of_notMem (by simp [hne])]
          exact ite_self _
        · rw [controlWords_of_not_found hb, List.nil_append,
            readGate_of_notMem (by simp [hne])]
          rfl
    · rw [callWords, ← List.append_assoc]
      exact readGate_of_last ht _ _
  | Fredkin => exact absurd rfl hg

theorem readListing_printGate (cs : List Char) :
    readListing (printGate (bitMap rs) (nxtGate rs g) ++ cs) =
      (lineGates rs g).bind fun gs ↦ (readListing cs).map (gs ++ ·) := by
  rw [lineGates]
  by_cases hg : kind g = .erased
  · rw [printGate, gateTy_nxtGate, if_pos hg, if_pos hg]
    exact Option.map_id'.symm
  · have hty : (nxtGate rs g).gateTy ≠ .erased := gateTy_nxtGate rs g ▸ hg
    obtain ⟨hplain, hqubit⟩ := text_plain (kind g)
    rw [printGate_eq _ hty, gateTy_nxtGate, words_nxtGate hg,
      readListing_words hplain hqubit (callWords_ne_nil hg) isOperand_callWords, if_neg hg]
    split_ifs with h
    · rw [readGate_of_found hg h]
      rfl
    · rw [readGate_of_not_found hg h]
      rfl

/-! ## The whole listing -/

def bodyGates (rs : List Register) : List (GateCall Operand) → Option (List (GateCall Word))
  | [] => some []
  | g :: body => (lineGates rs g).bind fun gs ↦ (bodyGates rs body).map (gs ++ ·)

theorem readListing_body (body : List (GateCall Operand)) :
    readListing ((body.map (nxtGate rs)).flatMap (printGate (bitMap rs))) = bodyGates rs body := by
  induction body with
  | nil => rfl
  | cons g body ih =>
    rw [List.map_cons, List.flatMap_cons, readListing_printGate, ih]
    rfl

theorem readListing_names {B : List Word} (hB : ∀ w ∈ B, '\n' ∉ w) (cs : List Char) :
    readListing (B.flatMap (fun w ↦ "qubit ".toList ++ w ++ ['\n']) ++ cs) = readListing cs := by
  induction B with
  | nil => rfl
  | cons w B ih =>
    obtain ⟨hw, hB⟩ := List.forall_mem_cons.mp hB
    rw [List.flatMap_cons, List.append_assoc, readListing_declared hw, ih hB]

theorem readListing_listing (P : MainBody) :
    readListing (listing P) = bodyGates P.registers P.body := by
  have hnames : ∀ w ∈ (bitMap P.registers).drop 1, '\n' ∉ w := by
    intro w hw
    rw [bitMap, List.drop_succ_cons, List.drop_zero, List.mem_flatMap] at hw
    obtain ⟨r, -, hw⟩ := hw
    obtain ⟨i, -, rfl⟩ := List.mem_map.mp hw
    exact (isOperand_bitName r.name i).2
  rw [listing, readListing_names hnames]
  exact readListing_body P.body

theorem length_le_of_bodyGates {body : List (GateCall Operand)} {gs : List (GateCall Word)}
    (h : bodyGates rs body = some gs) : gs.length ≤ body.length := by
  induction body generalizing gs with
  | nil =>
    cases h
    exact le_rfl
  | cons g body ih =>
    obtain ⟨l, hl, h⟩ := Option.bind_eq_some_iff.mp h
    obtain ⟨gs', hgs', rfl⟩ := Option.map_eq_some_iff.mp h
    have hlen : l.length ≤ 1 := by
      rw [lineGates] at hl
      split_ifs at hl <;> cases hl <;> simp
    rw [List.length_append, List.length_cons]
    have hle := ih hgs'
    omega

theorem of_bodyGates {body : List (GateCall Operand)} {gs : List (GateCall Word)}
    (h : bodyGates rs body = some gs) (hlen : gs.length = body.length) :
    gs = body.map (fun g ↦ (listed g).map (Operand.qName rs)) ∧
      ∀ g ∈ body, kind g ≠ .erased ∧ ∀ q ∈ g.operands, q.Found rs := by
  induction body generalizing gs with
  | nil =>
    cases h
    exact ⟨rfl, fun g hg ↦ absurd hg List.not_mem_nil⟩
  | cons g body ih =>
    obtain ⟨l, hl, h⟩ := Option.bind_eq_some_iff.mp h
    obtain ⟨gs', hgs', rfl⟩ := Option.map_eq_some_iff.mp h
    have hle := length_le_of_bodyGates hgs'
    rw [List.length_append, List.length_cons] at hlen
    rw [lineGates] at hl
    split_ifs at hl with hg hfound <;> cases hl
    · rw [List.length_nil] at hlen
      omega
    · obtain ⟨rfl, hall⟩ := ih hgs' (by rw [List.length_singleton] at hlen; omega)
      exact ⟨rfl, List.forall_mem_cons.mpr ⟨⟨hg, hfound⟩, hall⟩⟩

theorem bodyGates_eq {body : List (GateCall Operand)}
    (h : ∀ g ∈ body, kind g ≠ .erased ∧ ∀ q ∈ g.operands, q.Found rs) :
    bodyGates rs body = some (body.map fun g ↦ (listed g).map (Operand.qName rs)) := by
  induction body with
  | nil => rfl
  | cons g body ih =>
    obtain ⟨⟨hg, hfound⟩, hbody⟩ := List.forall_mem_cons.mp h
    rw [bodyGates, lineGates, if_neg hg, if_pos hfound, ih hbody]
    rfl

/-! ## When the listing denotes the body -/

/-- The gate keeps its kind and its parameter in the listing: it is not `Y`, `Rx`, `Ry` or
`Fredkin`, a preparation is of the value zero, and an angle has seven significant digits. -/
def Kept {ι : Type*} : GateCall ι → Prop
  | .gate1 .Y _ | .rot .x _ _ | .rot .y _ _ | .Fredkin _ _ _ => False
  | .rot .z _ θ => sevenDigits θ = θ
  | .prep _ _ v => v = 0
  | _ => True

/-- The operands of the calls. -/
def MainBody.used (P : MainBody) : Set Operand := {q | ∃ g ∈ P.body, q ∈ g.operands}

/-- The flattened names of the operands are found, and are the same for the same qubits only. -/
structure NamesRight (P : MainBody) : Prop where
  found : ∀ q ∈ P.used, q.Found P.registers
  distinct : ∀ q ∈ P.used, ∀ q' ∈ P.used,
    (printVarName q.reg.val = printVarName q'.reg.val ∧ q.qInd P.registers = q'.qInd P.registers ↔
      q.toQubit = q'.toQubit)

theorem Kept.kind_ne {ι : Type*} {g : GateCall ι} (h : Kept g) : kind g ≠ .erased := by
  cases g with
  | gate1 k => cases k <;> first | exact h.elim | exact GateTy.noConfusion
  | rot axis => cases axis <;> first | exact h.elim | exact GateTy.noConfusion
  | prep basis => cases basis <;> exact GateTy.noConfusion
  | meas basis => cases basis <;> exact GateTy.noConfusion
  | CNOT | Toffoli => exact GateTy.noConfusion
  | Fredkin => exact h.elim

@[simp] theorem operands_listed {ι : Type*} (g : GateCall ι) :
    (listed g).operands = g.operands := by
  cases g <;> rfl

theorem map_listed_eq_iff {ι κ : Type*} {g : GateCall ι} (hg : kind g ≠ .erased) {f f' : ι → κ} :
    (listed g).map f = g.map f' ↔ Kept g ∧ ∀ q ∈ g.operands, f q = f' q := by
  cases g with
  | gate1 k => cases k <;> simp_all [listed, GateCall.map, GateCall.operands, Kept, kind]
  | rot axis =>
    cases axis <;> simp_all [listed, GateCall.map, GateCall.operands, Kept, kind, and_comm]
  | prep => simp [listed, GateCall.map, GateCall.operands, Kept, and_comm, eq_comm]
  | meas | CNOT | Toffoli => simp [listed, GateCall.map, GateCall.operands, Kept]
  | Fredkin => exact absurd rfl hg

theorem qName_inj {q q' : Operand} : q.qName rs = q'.qName rs ↔
    printVarName q.reg.val = printVarName q'.reg.val ∧ q.qInd rs = q'.qInd rs :=
  bitName_inj (qInd_lt rs q) (qInd_lt rs q')

theorem words_listed (P : MainBody) :
    {w | ∃ g ∈ P.body.map (fun g ↦ (listed g).map (Operand.qName P.registers)),
      w ∈ g.operands} = Operand.qName P.registers '' P.used := by
  ext w
  constructor
  · rintro ⟨_, hg', hw⟩
    obtain ⟨g, hg, rfl⟩ := List.mem_map.mp hg'
    rw [GateCall.operands_map, operands_listed] at hw
    obtain ⟨q, hq, rfl⟩ := List.mem_map.mp hw
    exact ⟨q, ⟨g, hg, hq⟩, rfl⟩
  · rintro ⟨q, ⟨g, hg, hq⟩, rfl⟩
    refine ⟨_, List.mem_map_of_mem hg, ?_⟩
    rw [GateCall.operands_map, operands_listed]
    exact List.mem_map_of_mem hq

/-- The gates that are read are those of the body when each is kept and each name is read as the
qubit. -/
theorem map_listed_body {P : MainBody} (hkind : ∀ g ∈ P.body, kind g ≠ .erased)
    (ρ : Word → Qubit) :
    (P.body.map fun g ↦ (listed g).map (Operand.qName P.registers)).map (GateCall.map ρ) = P.gates ↔
      (∀ g ∈ P.body, Kept g) ∧ ∀ q ∈ P.used, ρ (q.qName P.registers) = q.toQubit := by
  rw [MainBody.gates, List.map_map, List.map_inj_left]
  have hgate : ∀ g ∈ P.body,
      (GateCall.map ρ ∘ fun g ↦ (listed g).map (Operand.qName P.registers)) g =
          g.map Operand.toQubit ↔
        Kept g ∧ ∀ q ∈ g.operands, ρ (q.qName P.registers) = q.toQubit := by
    intro g hg
    rw [Function.comp_apply, GateCall.map_map, map_listed_eq_iff (hkind g hg)]
    rfl
  constructor
  · intro h
    exact ⟨fun g hg ↦ ((hgate g hg).mp (h g hg)).1,
      fun q ⟨g, hg, hq⟩ ↦ ((hgate g hg).mp (h g hg)).2 q hq⟩
  · rintro ⟨hkept, hread⟩ g hg
    exact (hgate g hg).mpr ⟨hkept g hg, fun q hq ↦ hread q ⟨g, hg, hq⟩⟩

theorem kept_of_denotes {P : MainBody} (h : Denotes (listing P) P.gates) :
    (∀ g ∈ P.body, Kept g) ∧ NamesRight P := by
  obtain ⟨gs, hread, ρ, hinj, hall⟩ := h
  have hlen : gs.length = P.body.length := by
    rw [← List.length_map (f := GateCall.map ρ), hall, MainBody.gates, List.length_map]
  rw [readListing_listing] at hread
  obtain ⟨rfl, hfound⟩ := of_bodyGates hread hlen
  rw [words_listed] at hinj
  obtain ⟨hkept, hread⟩ := (map_listed_body (fun g hg ↦ (hfound g hg).1) ρ).mp hall
  refine ⟨hkept, ⟨?_, ?_⟩⟩
  · rintro q ⟨g, hg, hq⟩
    exact (hfound g hg).2 q hq
  · intro q hq q' hq'
    rw [← qName_inj, ← hread q hq, ← hread q' hq']
    exact (hinj.eq_iff (Set.mem_image_of_mem _ hq) (Set.mem_image_of_mem _ hq')).symm

instance : Nonempty Operand :=
  ⟨⟨⟨⟨['q'], List.cons_ne_nil _ _, List.forall_mem_singleton.mpr (.inl rfl)⟩, .qbit, [0]⟩, [], rfl⟩⟩

/-- **The listing denotes the body exactly when its gates are kept and its names are right.** -/
theorem denotes_iff (P : MainBody) :
    Denotes (listing P) P.gates ↔ (∀ g ∈ P.body, Kept g) ∧ NamesRight P := by
  refine ⟨kept_of_denotes, fun ⟨hkept, hnames⟩ ↦ ?_⟩
  have hkind : ∀ g ∈ P.body, kind g ≠ .erased := fun g hg ↦ (hkept g hg).kind_ne
  have hsame : ∀ q ∈ P.used, ∀ q' ∈ P.used,
      (q.qName P.registers = q'.qName P.registers ↔ q.toQubit = q'.toQubit) :=
    fun q hq q' hq' ↦ qName_inj.trans (hnames.distinct q hq q' hq')
  -- each name is read as the qubit of an operand that has it
  obtain ⟨ρ, hρ⟩ : ∃ ρ : Word → Qubit, ∀ q ∈ P.used, ρ (q.qName P.registers) = q.toQubit := by
    refine ⟨fun w ↦ (Function.invFunOn (Operand.qName P.registers) P.used w).toQubit,
      fun q hq ↦ ?_⟩
    have hname : ∃ o ∈ P.used, o.qName P.registers = q.qName P.registers := ⟨q, hq, rfl⟩
    exact (hsame _ (Function.invFunOn_mem hname) q hq).mp (Function.invFunOn_eq hname)
  refine ⟨_, (readListing_listing P).trans (bodyGates_eq fun g hg ↦
    ⟨hkind g hg, fun q hq ↦ hnames.found q ⟨g, hg, hq⟩⟩), ρ, ?_,
    (map_listed_body hkind ρ).mpr ⟨hkept, hρ⟩⟩
  rw [words_listed]
  rintro _ ⟨q, hq, rfl⟩ _ ⟨q', hq', rfl⟩ heq
  rw [hρ q hq, hρ q' hq'] at heq
  exact (hsame q hq q' hq').mpr heq

private theorem q_ne_nil : ['q'] ≠ [] := List.cons_ne_nil _ _

private theorem q_ident : ∀ c ∈ ['q'], c.isAlphanum ∨ c = '_' ∨ c = '.' :=
  List.forall_mem_singleton.mpr (.inl rfl)

/-- A qubit is prepared in the state one. -/
def prepOne : MainBody where
  registers := [⟨⟨['q'], q_ne_nil, q_ident⟩, some .qbit, [1]⟩]
  body := [.prep .z ⟨⟨⟨['q'], q_ne_nil, q_ident⟩, .qbit, [0]⟩, [[0, 0]], rfl⟩ 1]
  nodup := List.nodup_singleton _
  operands := by
    intro g hg q hq
    rw [List.mem_singleton.mp hg] at hq
    refine ⟨_, List.mem_singleton_self _, ?_⟩
    rw [List.mem_singleton.mp hq]
    exact ⟨rfl, rfl, .cons Nat.one_pos .nil⟩

/-- The value is lost. -/
theorem not_denotes_prepOne : ¬ Denotes (listing prepOne) prepOne.gates := fun h ↦
  absurd ((kept_of_denotes h).1 _ (List.mem_singleton_self _)) one_ne_zero

/-! ## Registers of at most two dimensions -/

theorem Operand.qInd_eq {P : MainBody} {r : Register} (hr : r ∈ P.registers) (h : q.In r) :
    q.qInd P.registers = flatIndex r.dims (backtraceOperand q.geps) % 2 ^ 32 := by
  have hfilter : P.registers.filter (·.name.val = q.reg.val) = [r] := by
    refine Memory.filter_eq_singleton P.nodup hr (decide_eq_true (h.name ▸ rfl)) fun r' _ hr' ↦ ?_
    have hval : r'.name.val = r.name.val := (of_decide_eq_true hr').trans (h.name ▸ rfl)
    cases hn : r'.name
    cases hn' : r.name
    simp_all
  rw [Operand.qInd, hfilter, List.map_singleton, List.sum_singleton]

/-- The indices are all kept when one instruction points to the qubit, or none to a scalar. -/
theorem Operand.backtraceOperand_eq (h : q.geps.length ≤ 1) :
    backtraceOperand q.geps = q.index := by
  have hpoints := q.points
  match hgeps : q.geps, h with
  | [], _ =>
    rw [hgeps] at hpoints
    exact Option.some.inj hpoints
  | [is], _ =>
    rw [hgeps] at hpoints
    match is with
    | [] => cases hpoints
    | [i] =>
      rcases eq_or_ne i 0 with rfl | hi
      · exact Option.some.inj hpoints
      · simp [element, gep, hi] at hpoints
    | i :: j :: is =>
      rcases eq_or_ne i 0 with rfl | hi
      · exact Option.some.inj hpoints
      · simp [element, gep, hi] at hpoints

/-- In a register of at most two dimensions that does not overflow, the flattened index is below the
number of names and determines the indices. -/
theorem flatIndex_of_dims {dims : List ℕ} (hdims : (∃ d < 2 ^ 32, dims = [d]) ∨
      ∃ d e, d * (d * e) < 2 ^ 32 ∧ dims = [d, e]) {is : List ℕ}
    (his : List.Forall₂ (· < ·) is dims) :
    flatIndex dims is < dims.foldl (fun dMul d ↦ dMul * (dMul * d) % 2 ^ 32) 1 ∧
      ∀ js, List.Forall₂ (· < ·) js dims →
        flatIndex dims is = flatIndex dims js → is = js := by
  rcases hdims with ⟨d, hd, rfl⟩ | ⟨d, e, hlt, rfl⟩
  · have hone : ∀ {js}, List.Forall₂ (· < ·) js [d] → ∃ j < d, js = [j] ∧ flatIndex [d] js = j := by
      intro js hjs
      obtain ⟨j, _, hj, hnil, rfl⟩ := List.forall₂_cons_right_iff.mp hjs
      cases hnil
      exact ⟨j, hj, rfl, Nat.zero_add j⟩
    obtain ⟨i, hi, rfl, hflat⟩ := hone his
    refine ⟨?_, fun js hjs heq ↦ ?_⟩
    · rw [hflat, List.foldl_cons, List.foldl_nil, one_mul, one_mul, Nat.mod_eq_of_lt hd]
      exact hi
    · obtain ⟨j, -, rfl, hflat'⟩ := hone hjs
      rw [hflat, hflat'] at heq
      rw [heq]
  · have htwo : ∀ {js}, List.Forall₂ (· < ·) js [d, e] →
        ∃ i < d, ∃ j < e, js = [i, j] ∧ flatIndex [d, e] js = i * e + j := by
      intro js hjs
      obtain ⟨i, _, hi, htail, rfl⟩ := List.forall₂_cons_right_iff.mp hjs
      obtain ⟨j, _, hj, hnil, rfl⟩ := List.forall₂_cons_right_iff.mp htail
      cases hnil
      exact ⟨i, hi, j, hj, rfl, by simp [flatIndex]⟩
    obtain ⟨i, hi, j, hj, rfl, hflat⟩ := htwo his
    -- the element lies in one of the first `d` rows
    have hrow : i * e + j < d * e := by
      calc i * e + j < (i + 1) * e := by rw [add_one_mul]; omega
        _ ≤ d * e := Nat.mul_le_mul_right e hi
    have hd : d < 2 ^ 32 := by
      refine lt_of_le_of_lt (Nat.le_mul_of_pos_right d ?_) hlt
      exact Nat.mul_pos (by omega) (by omega)
    refine ⟨?_, fun js hjs heq ↦ ?_⟩
    · rw [hflat, List.foldl_cons, List.foldl_cons, List.foldl_nil, one_mul, one_mul,
        Nat.mod_eq_of_lt hd, Nat.mod_eq_of_lt hlt]
      exact hrow.trans_le (Nat.le_mul_of_pos_left _ (by omega))
    · obtain ⟨i', -, j', hj', rfl, hflat'⟩ := htwo hjs
      rw [hflat, hflat'] at heq
      have hdiv := congrArg (· / e) heq
      have hmod := congrArg (· % e) heq
      simp only [Nat.mul_add_div (Nat.zero_lt_of_lt hj), Nat.mul_comm _ e, Nat.div_eq_of_lt hj,
        Nat.div_eq_of_lt hj', Nat.mul_add_mod, Nat.mod_eq_of_lt hj, Nat.mod_eq_of_lt hj',
        add_zero] at hdiv hmod
      rw [hdiv, hmod]

/-- **The names are right when one instruction points to each operand**, every register has one or
two dimensions that do not overflow, and the printed names of the registers differ. -/
theorem namesRight_of_dims {P : MainBody} (hgeps : ∀ q ∈ P.used, q.geps.length ≤ 1)
    (hname : ∀ r ∈ P.registers, ∀ r' ∈ P.registers,
      printVarName r.name.val = printVarName r'.name.val → r = r')
    (hdims : ∀ r ∈ P.registers, (∃ d < 2 ^ 32, r.dims = [d]) ∨
      ∃ d e, d * (d * e) < 2 ^ 32 ∧ r.dims = [d, e]) : NamesRight P := by
  have hlt : ∀ r ∈ P.registers, ∀ q ∈ P.used, q.In r →
      q.qInd P.registers = flatIndex r.dims q.index ∧ flatIndex r.dims q.index < r.dMul := by
    intro r hr q hused hq
    obtain ⟨hbound, -⟩ := flatIndex_of_dims (hdims r hr) hq.index
    rw [q.qInd_eq hr hq, q.backtraceOperand_eq (hgeps q hused),
      Nat.mod_eq_of_lt (hbound.trans_le (dMul_le r))]
    exact ⟨rfl, hbound⟩
  have hin : ∀ q ∈ P.used, ∃ r ∈ P.registers, q.In r := fun q ⟨g, hg, hq⟩ ↦ P.operands g hg q hq
  constructor
  · intro q hused
    obtain ⟨r, hr, hq⟩ := hin q hused
    obtain ⟨hind, hbound⟩ := hlt r hr q hused hq
    exact ⟨r, hr, by rw [hq.name], hind ▸ hbound⟩
  · intro q hused q' hused'
    obtain ⟨r, hr, hq⟩ := hin q hused
    obtain ⟨r', hr', hq'⟩ := hin q' hused'
    constructor
    · rintro ⟨hsame, hind⟩
      rw [← hq.name, ← hq'.name] at hsame
      obtain rfl := hname r hr r' hr' hsame
      rw [(hlt r hr q hused hq).1, (hlt r hr q' hused' hq').1] at hind
      have hindex := (flatIndex_of_dims (hdims r hr) hq.index).2 _ hq'.index hind
      have hty := Option.some.inj (hq.ty.symm.trans hq'.ty)
      have hreg := hq.name.symm.trans hq'.name
      calc q.toQubit = ⟨q.reg, q.ty, q.index⟩ := rfl
        _ = ⟨q'.reg, q'.ty, q'.index⟩ := by rw [hreg, hty, hindex]
    · intro heq
      have hreg : r'.name = r.name := by rw [hq.name, hq'.name, heq]
      obtain rfl := hname r' hr' r hr (congrArg (fun n : RegName ↦ printVarName n.val) hreg)
      exact ⟨by rw [heq], by rw [(hlt r' hr q hused hq).1, (hlt r' hr q' hused' hq').1, heq]⟩

end ScaffCC.Optimize
