import Mathlib.Data.List.Nodup
import Mathlib.Data.Rat.Cast.Defs
import ScaffCC.OpenQasm.Syntax

/-!
# Register values from flat names

The declaration of a register becomes a list of flat names: the name of the register, an index, and
outside the main function a final letter. A script reads the names back, splits each of them into
letters and digits, and adds the measured bits up, register by register. The names of registers may
have digits and underscores, and then letters and digits are not the register and the index.
-/

namespace ScaffCC.FlatQasm

open OpenQasm (Word)

/-! ## Writing -/

/-- A qubit of a register, and whether the main function has been reached. -/
structure Qubit where
  qbit_var : Word
  index : ℕ
  inMainFunc : Bool
deriving DecidableEq, Repr

def Qubit.varName (q : Qubit) : Word :=
  let addAlphabet := if q.inMainFunc then [] else ['a']
  q.qbit_var ++ Nat.toDigits 10 q.index ++ addAlphabet

/-- A declaration `qbit var[size];`, where `var` is one or more word characters. -/
structure QbitDecl where
  qbit_var : Word
  array_size : ℕ
  inMainFunc : Bool
  word : ∀ c ∈ qbit_var, c.isAlphanum ∨ c = '_'
  ne_nil : qbit_var ≠ []
  pos : 0 < array_size

namespace QbitDecl

variable (d : QbitDecl)

def qubit (i : ℕ) : Qubit := ⟨d.qbit_var, i, d.inMainFunc⟩

/-- The qubits in the order in which their names are written, the last one after the loop. -/
def qubits : List Qubit :=
  (List.range (d.array_size - 1)).map d.qubit ++ [d.qubit (d.array_size - 1)]

end QbitDecl

/-- Adding what is not there. -/
def declare {α : Type*} [DecidableEq α] (set : List α) (x : α) : List α :=
  if x ∈ set then set else set ++ [x]

def setQbitDecl (decls : List QbitDecl) : List Word :=
  ((decls.flatMap QbitDecl.qubits).map Qubit.varName).foldl declare []

/-! ## Reading -/

/-- `([a-zA-Z]+)([0-9]+)` at the start of a name. With fewer letters than there are, no digit would
follow. -/
def regIndexPair (name : Word) : Option (Word × ℕ) :=
  let register := name.takeWhile Char.isAlpha
  let index := (name.dropWhile Char.isAlpha).takeWhile Char.isDigit
  if register = [] ∨ index = [] then none else some (register, Nat.ofDigitChars 10 index 0)

/-- The register and the index of each line, as long as every name matches. -/
def regMap (names : List Word) : Option (List (Word × ℕ)) := names.mapM regIndexPair

/-- The bits of a basis state, the one of the first qubit first, are added to their registers. -/
def accumulate (outcome : Word → ℚ) (bits : List Bool) (reg_map : List (Word × ℕ)) : Word → ℚ :=
  (bits.zip reg_map).foldl
    (fun outcome elem ↦ Function.update outcome elem.2.1
      (outcome elem.2.1 + (elem.1.toNat <<< elem.2.2 : ℕ))) outcome

/-! ## What the values should be -/

/-- The register and the index. -/
def Qubit.pair (q : Qubit) : Word × ℕ := (q.qbit_var, q.index)

/-- The number in a register, if the qubits have these bits. -/
def registerValue (r : Word) : List Bool → List Qubit → ℕ
  | b :: bits, q :: qs =>
    (if q.qbit_var = r then b.toNat * 2 ^ q.index else 0) + registerValue r bits qs
  | _, _ => 0

/-- The names that are declared are those of the qubits, each once. The register and the index that
are read for a name are those of its qubit, and what is added up for a register is its value. -/
def ReadsBack (decls : List QbitDecl) : Prop :=
  ∃ qs : List Qubit, qs.Nodup ∧ (∀ q, q ∈ qs ↔ ∃ d ∈ decls, q ∈ d.qubits) ∧
    setQbitDecl decls = qs.map Qubit.varName ∧
    ∃ reg_map, regMap (setQbitDecl decls) = some reg_map ∧ reg_map = qs.map Qubit.pair ∧
      ∀ outcome bits r, accumulate outcome bits reg_map r = outcome r + registerValue r bits qs

/-! ## Names of letters -/

theorem isAlpha_eq_false_of_isDigit {c : Char} (h : c.isDigit) : c.isAlpha = false := by
  by_contra halpha
  rw [Bool.not_eq_false] at halpha
  delta Char.isAlpha Char.isUpper Char.isLower at halpha
  delta Char.isDigit at h
  simp only [Bool.or_eq_true, Bool.and_eq_true, decide_eq_true_eq, ge_iff_le,
    UInt32.le_iff_toNat_le] at h halpha
  have hZ : 'Z'.val.toNat = 90 := rfl
  have hz : 'z'.val.toNat = 122 := rfl
  have hnine : '9'.val.toNat = 57 := rfl
  have hA : 'A'.val.toNat = 65 := rfl
  have ha : 'a'.val.toNat = 97 := rfl
  omega

/-- **What is read from a flat name** is its register and its index exactly if the name of the
register is of letters. -/
theorem regIndexPair_varName_iff (q : Qubit) (hne : q.qbit_var ≠ []) :
    regIndexPair q.varName = some q.pair ↔ ∀ c ∈ q.qbit_var, c.isAlpha := by
  obtain ⟨name, i, inMainFunc⟩ := q
  let digits := Nat.toDigits 10 i
  let addAlphabet := if inMainFunc then [] else ['a']
  have hvar : Qubit.varName ⟨name, i, inMainFunc⟩ = name ++ (digits ++ addAlphabet) :=
    List.append_assoc ..
  have hdigits : ∀ c ∈ digits, c.isDigit := fun c hc ↦
    Nat.isDigit_of_mem_toDigits (by decide) le_rfl hc
  rw [hvar]
  constructor
  · intro h
    rw [regIndexPair] at h
    split_ifs at h with hnone
    -- what is read as the register ends at the first character that is no letter
    have hregister : (name ++ (digits ++ addAlphabet)).takeWhile Char.isAlpha = name :=
      (Prod.ext_iff.mp (Option.some.inj h)).1
    have hall : (name ++ (digits ++ addAlphabet)).takeWhile Char.isAlpha |>.all Char.isAlpha :=
      List.all_takeWhile
    rw [hregister] at hall
    exact fun c hc ↦ List.all_eq_true.mp hall c hc
  · intro halpha
    -- the digits of the index end the register
    have hletters : (digits ++ addAlphabet).takeWhile Char.isAlpha = [] ∧
        (digits ++ addAlphabet).dropWhile Char.isAlpha = digits ++ addAlphabet := by
      cases hd : digits with
      | nil => exact absurd hd Nat.toDigits_ne_nil
      | cons c cs =>
        have hc : ¬ c.isAlpha = true := by
          rw [isAlpha_eq_false_of_isDigit (hdigits c (hd ▸ List.mem_cons_self))]
          exact Bool.false_ne_true
        exact ⟨List.takeWhile_cons_of_neg hc, List.dropWhile_cons_of_neg hc⟩
    have hend : addAlphabet.takeWhile Char.isDigit = [] := by
      cases inMainFunc <;> rfl
    have hregister : (name ++ (digits ++ addAlphabet)).takeWhile Char.isAlpha = name := by
      rw [List.takeWhile_append_of_pos halpha, hletters.1, List.append_nil]
    have hindex : ((name ++ (digits ++ addAlphabet)).dropWhile Char.isAlpha).takeWhile
        Char.isDigit = digits := by
      rw [List.dropWhile_append_of_pos halpha, hletters.2, List.takeWhile_append_of_pos hdigits,
        hend, List.append_nil]
    rw [regIndexPair, hregister, hindex, if_neg (not_or.mpr ⟨hne, Nat.toDigits_ne_nil⟩),
      Nat.ofDigitChars_ten_toDigits]
    rfl

/-- Names of letters tell their qubits, but for where these are declared. -/
theorem varName_injOn {qs : List Qubit}
    (h : ∀ q ∈ qs, q.qbit_var ≠ [] ∧ ∀ c ∈ q.qbit_var, c.isAlpha) :
    Set.InjOn Qubit.varName {q | q ∈ qs} := by
  intro q hq q' hq' heq
  have hpair : q.pair = q'.pair := by
    have hread := (regIndexPair_varName_iff q (h q hq).1).mpr (h q hq).2
    rw [heq, (regIndexPair_varName_iff q' (h q' hq').1).mpr (h q' hq').2] at hread
    exact (Option.some.inj hread).symm
  obtain ⟨name, i, inMainFunc⟩ := q
  obtain ⟨name', i', inMainFunc'⟩ := q'
  obtain ⟨rfl, rfl⟩ := Prod.ext_iff.mp hpair
  have hend : (if inMainFunc then [] else ['a']) = if inMainFunc' then [] else ['a'] :=
    List.append_cancel_left heq
  have hmain : inMainFunc = inMainFunc' := by
    revert hend
    cases inMainFunc <;> cases inMainFunc' <;> decide
  rw [hmain]
  rfl

/-! ## Declarations -/

section Declare

variable {α β : Type*} [DecidableEq α] [DecidableEq β]

theorem mem_foldl_declare {x : α} (xs set : List α) :
    x ∈ xs.foldl declare set ↔ x ∈ set ∨ x ∈ xs := by
  induction xs generalizing set with
  | nil => simp
  | cons y xs ih =>
    rw [List.foldl_cons, ih, declare]
    split_ifs with hy
    · refine ⟨fun h ↦ h.imp_right (List.mem_cons_of_mem y), ?_⟩
      rintro (h | h)
      · exact .inl h
      · rcases List.mem_cons.mp h with rfl | h
        exacts [.inl hy, .inr h]
    · rw [List.mem_append, List.mem_singleton, List.mem_cons, or_assoc]

theorem nodup_foldl_declare {set : List α} (hset : set.Nodup) (xs : List α) :
    (xs.foldl declare set).Nodup := by
  induction xs generalizing set with
  | nil => exact hset
  | cons y xs ih =>
    refine ih ?_
    rw [declare]
    split_ifs with hy
    · exact hset
    · exact List.nodup_append'.mpr ⟨hset, List.nodup_singleton y, List.disjoint_singleton.mpr hy⟩

theorem foldl_declare_map {f : α → β} (xs set : List α)
    (hf : Set.InjOn f {x | x ∈ set ∨ x ∈ xs}) :
    (xs.map f).foldl declare (set.map f) = (xs.foldl declare set).map f := by
  induction xs generalizing set with
  | nil => rfl
  | cons x xs ih =>
    have hmem : f x ∈ set.map f ↔ x ∈ set := by
      refine ⟨fun h ↦ ?_, List.mem_map_of_mem⟩
      obtain ⟨x', hx', heq⟩ := List.mem_map.mp h
      rwa [← hf (.inl hx') (.inr List.mem_cons_self) heq]
    have hdeclare : declare (set.map f) (f x) = (declare set x).map f := by
      simp only [declare, hmem]
      split_ifs
      · rfl
      · rw [List.map_append, List.map_singleton]
    rw [List.map_cons, List.foldl_cons, List.foldl_cons, hdeclare]
    refine ih _ (hf.mono fun y hy ↦ ?_)
    exact (mem_foldl_declare (x :: xs) set).mp ((mem_foldl_declare xs _).mpr hy)

end Declare

theorem regMap_map_eq_some_iff (qs : List Qubit) :
    regMap (qs.map Qubit.varName) = some (qs.map Qubit.pair) ↔
      ∀ q ∈ qs, regIndexPair q.varName = some q.pair := by
  induction qs with
  | nil => exact iff_of_true rfl nofun
  | cons q qs ih =>
    rw [List.forall_mem_cons, ← ih, regMap, regMap, List.map_cons, List.map_cons, List.mapM_cons]
    cases regIndexPair q.varName with
    | none => simp
    | some p => cases (qs.map Qubit.varName).mapM regIndexPair with
      | none => simp
      | some ps => simp

/-- **What is added up** for a register is its value. -/
theorem accumulate_pair (outcome : Word → ℚ) (bits : List Bool) (qs : List Qubit) (r : Word) :
    accumulate outcome bits (qs.map Qubit.pair) r = outcome r + registerValue r bits qs := by
  induction bits generalizing outcome qs with
  | nil => simp [accumulate, registerValue]
  | cons b bits ih =>
    cases qs with
    | nil => simp [accumulate, registerValue]
    | cons q qs =>
      refine (ih _ qs).trans ?_
      show Function.update outcome q.qbit_var (outcome q.qbit_var + (b.toNat <<< q.index : ℕ)) r +
        _ = _
      rw [registerValue, Nat.shiftLeft_eq]
      rcases eq_or_ne r q.qbit_var with rfl | hne
      · rw [Function.update_self, if_pos rfl, Nat.cast_add, add_assoc]
      · rw [Function.update_of_ne hne, if_neg hne.symm, Nat.zero_add]

/-! ## The result -/

theorem mem_qubits {d : QbitDecl} {q : Qubit} :
    q ∈ d.qubits ↔ ∃ i < d.array_size, q = d.qubit i := by
  have hpos := d.pos
  rw [QbitDecl.qubits, List.mem_append, List.mem_map, List.mem_singleton]
  constructor
  · rintro (⟨i, hi, rfl⟩ | rfl)
    · exact ⟨i, by have := List.mem_range.mp hi; omega, rfl⟩
    · exact ⟨_, by omega, rfl⟩
  · rintro ⟨i, hi, rfl⟩
    rcases Nat.lt_or_eq_of_le (Nat.le_sub_one_of_lt hi) with hlt | rfl
    · exact .inl ⟨i, List.mem_range.mpr hlt, rfl⟩
    · exact .inr rfl

/-- **Which registers are read back**: those whose names are of letters. -/
theorem readsBack_iff (decls : List QbitDecl) :
    ReadsBack decls ↔ ∀ d ∈ decls, ∀ c ∈ d.qbit_var, c.isAlpha := by
  constructor
  · rintro ⟨qs, -, hmem, hset, reg_map, hread, rfl, -⟩ d hd
    have hq : d.qubit 0 ∈ qs := (hmem _).mpr ⟨d, hd, mem_qubits.mpr ⟨0, d.pos, rfl⟩⟩
    rw [hset, regMap_map_eq_some_iff] at hread
    exact (regIndexPair_varName_iff (d.qubit 0) d.ne_nil).mp (hread _ hq)
  · intro h
    have hall : ∀ q ∈ decls.flatMap QbitDecl.qubits,
        q.qbit_var ≠ [] ∧ ∀ c ∈ q.qbit_var, c.isAlpha := by
      intro q hq
      obtain ⟨d, hd, hqd⟩ := List.mem_flatMap.mp hq
      obtain ⟨i, -, rfl⟩ := mem_qubits.mp hqd
      exact ⟨d.ne_nil, h d hd⟩
    let qs := (decls.flatMap QbitDecl.qubits).foldl declare []
    have hqs : ∀ q, q ∈ qs ↔ q ∈ decls.flatMap QbitDecl.qubits := fun q ↦
      (mem_foldl_declare _ []).trans (or_iff_right List.not_mem_nil)
    have hset : setQbitDecl decls = qs.map Qubit.varName :=
      foldl_declare_map _ [] ((varName_injOn hall).mono fun q hq ↦
        hq.resolve_left List.not_mem_nil)
    refine ⟨qs, nodup_foldl_declare List.nodup_nil _, fun q ↦ (hqs q).trans List.mem_flatMap, hset,
      _, ?_, rfl, fun outcome bits r ↦ accumulate_pair outcome bits qs r⟩
    rw [hset, regMap_map_eq_some_iff]
    intro q hq
    have hq' := hall q ((hqs q).mp hq)
    exact (regIndexPair_varName_iff q hq'.1).mpr hq'.2

theorem word_q1 : ∀ c ∈ ['q', '1'], c.isAlphanum ∨ c = '_' :=
  List.forall_mem_cons.mpr ⟨.inl rfl, List.forall_mem_singleton.mpr (.inl rfl)⟩

/-- The register `q1` of one bit is read as the tenth bit of a register `q`. -/
theorem not_readsBack_digit :
    ¬ ReadsBack [⟨['q', '1'], 1, true, word_q1, by decide, by decide⟩] := by
  rintro ⟨qs, -, hmem, hset, reg_map, hread, rfl, -⟩
  have hpairs : qs.map Qubit.pair = [(['q'], 10)] := by
    rw [show setQbitDecl [⟨['q', '1'], 1, true, word_q1, by decide, by decide⟩] =
      [['q', '1', '0']] from rfl] at hread
    exact (Option.some.inj hread).symm
  have hq : (⟨['q', '1'], 0, true⟩ : Qubit) ∈ qs :=
    (hmem _).mpr ⟨_, List.mem_cons_self, List.mem_cons_self⟩
  have hpair := List.mem_map_of_mem (f := Qubit.pair) hq
  rw [hpairs] at hpair
  exact absurd hpair (by decide)

end ScaffCC.FlatQasm
