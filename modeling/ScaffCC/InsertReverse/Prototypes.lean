import Mathlib.Data.List.Dedup
import ScaffCC.InsertReverse.Found
import ScaffCC.InsertReverse.Printed

/-!
# Prototypes for the modules that are called in reverse

Every name that is called in reverse and not declared should get one prototype, with the parameters
of the module, or of the gate, token for token. The script finds a call only where it begins a
line, and copies the text from the last header that begins a line, up to the first closing
parenthesis. So the prototype is right exactly if such a call is there, and the parameters are up
to that parenthesis, on one line, or are unnamed qubits where there is no such header.
-/

namespace ScaffCC.InsertReverse

open Lexer

/-! ## What a source says -/

/-- The tokens up to the parenthesis that closes the one in front, with `depth` more open. -/
def closing : ℕ → List Token → Option (List Token)
  | _, [] => none
  | depth, t :: ts =>
    if t = ['('] then (closing (depth + 1) ts).map (t :: ·)
    else if t = [')'] then
      if depth = 0 then some [t] else (closing (depth - 1) ts).map (t :: ·)
    else (closing depth ts).map (t :: ·)

/-- A header of the module `f` has these parameters, with the parentheses. -/
def ParameterList (ts : List Token) (f : Token) (params : List Token) : Prop :=
  ∃ before behind inner, ts = before ++ scaff_module :: f :: ['('] :: behind ∧
    closing 0 behind = some inner ∧ params = ['('] :: inner

/-- The module `f` is called in reverse. -/
def Called (ts : List Token) (f : Token) : Prop :=
  f ≠ [] ∧ ∃ before behind, ts = before ++ (_reverse_ ++ f) :: ['('] :: behind ∧
    before.getLast? ≠ some scaff_module

/-- There is a header for the reversed module `f`. -/
def Declared (ts : List Token) (f : Token) : Prop :=
  ∃ before behind, ts = before ++ scaff_module :: (_reverse_ ++ f) :: behind

/-- The gates that are built in, with the types of the result and the parameters. -/
def gates : List (String × String) :=
  [("CNOT", "vqq"), ("X", "vq"), ("Y", "vq"), ("Z", "vq"), ("H", "vq"), ("T", "vq"),
    ("Tdag", "vq"), ("S", "vq"), ("Sdag", "vq"), ("Rz", "vqd"), ("Rx", "vqd"), ("Ry", "vqd"),
    ("PrepX", "vqi"), ("PrepZ", "vqi"), ("MeasX", "lq"), ("MeasZ", "lq"), ("Toffoli", "vqqq"),
    ("Fredkin", "vqqq"), ("cnot", "vqq"), ("toffoli", "vqqq"), ("NOT", "vq"),
    ("assign_value_of_b_to_a", "vqqi"), ("assign_value_of_0_to_a", "vqi"),
    ("assign_value_of_1_to_a", "vqi"), ("a_eq_a_plus_b", "vqqi"), ("a_eq_a_minus_b", "vqqi"),
    ("a_eq_a_plus_b_times_c", "vqqqi"), ("a_swap_b", "vqqi")]

def paramType (c : Char) : Token :=
  if c = 'q' then qbit
  else if c = 'd' then ['d', 'o', 'u', 'b', 'l', 'e']
  else ['i', 'n', 't']

/-- Parameters without names. -/
def listOf (types : List Token) : List Token := ['('] :: (types.intersperse [','] ++ [[')']])

/-- The parameters of a module of the text, or of a gate. -/
inductive HasParameters (text : List Char) (f : Token) : List Token → Prop
  | module {params : List Token} (h : ParameterList (tokens text) f params) :
    HasParameters text f params
  | gate {type : String} (hno : ∀ params, ¬ ParameterList (tokens text) f params)
    (h : (String.ofList f, type) ∈ gates) :
    HasParameters text f (listOf ((type.toList.drop 1).map paramType))

/-- A source. There are no literals and no backslashes in the parameters of a module, and they are
not followed by the next header. -/
structure Source where
  text : List Char
  unmarked : ∀ f params, ParameterList (tokens text) f params → ∀ t ∈ params, ¬ Marked t
  apart : Apart text

/-- **Every reversed module** that is called and not declared has one prototype, and the tokens of
its parameters are those of the module. -/
def Prototyped (s : Source) : Prop :=
  ∀ f, Called (tokens s.text) f → ¬ Declared (tokens s.text) f →
    ∃ line, (prototypes s.text).filter
        (fun line ↦ [scaff_module, _reverse_ ++ f].isPrefixOf (tokens line)) = [line] ∧
      ((∃ params, HasParameters s.text f params) →
        ∃ params, HasParameters s.text f params ∧
          tokens line = scaff_module :: (_reverse_ ++ f) :: (params ++ [[';']]))

/-- Every reversed module that is called and not declared is called at the beginning of a line. The
last header of the module that begins a line has its parameters in plain text up to the first
closing parenthesis. If no header begins a line, the parameters are unnamed qubits, as many as the
last call that begins a line has arguments. -/
def Readable (s : Source) : Prop :=
  ∀ f, Called (tokens s.text) f → ¬ Declared (tokens s.text) f →
    (∃ i args, StandsCall s.text i f args) ∧
      ((∃ params, HasParameters s.text f params) →
        (∃ args params, LastHeader s.text f args ∧ Plain (.code []) args ∧
          HasParameters s.text f params ∧
          tokens ('(' :: (args ++ [')', ';'])) = params ++ [[';']]) ∨
        (∀ i args, ¬ StandsHeader s.text i f args) ∧ ∃ args, LastCall s.text f args ∧
          HasParameters s.text f (listOf (List.replicate (args.count ',' + 1) qbit)))

/-! ## Parameters -/

theorem closing_spec {depth : ℕ} {ts inner : List Token} (h : closing depth ts = some inner) :
    [')'] ∈ inner ∧ ∀ t ∈ inner, t ∈ ts := by
  induction ts generalizing depth inner with
  | nil => exact absurd h.symm (Option.some_ne_none _)
  | cons t ts ih =>
    have hmore : ∀ {depth}, (closing depth ts).map (t :: ·) = some inner →
        [')'] ∈ inner ∧ ∀ t' ∈ inner, t' ∈ t :: ts := by
      intro depth h
      obtain ⟨inner', hinner, rfl⟩ := Option.map_eq_some_iff.mp h
      obtain ⟨hclose, hall⟩ := ih hinner
      exact ⟨List.mem_cons_of_mem _ hclose, List.forall_mem_cons.mpr
        ⟨List.mem_cons_self, fun t' ht' ↦ List.mem_cons_of_mem _ (hall t' ht')⟩⟩
    rw [closing] at h
    split_ifs at h with hopen hclose hdepth
    · exact hmore h
    · rw [← Option.some.inj h, hclose]
      exact ⟨List.mem_cons_self, List.forall_mem_singleton.mpr List.mem_cons_self⟩
    · exact hmore h
    · exact hmore h

theorem mem_intersperse {α : Type*} {sep x : α} {xs : List α} (h : x ∈ xs.intersperse sep) :
    x = sep ∨ x ∈ xs := by
  induction xs with
  | nil => exact absurd h List.not_mem_nil
  | cons y ys ih =>
    cases ys with
    | nil => exact .inr h
    | cons z zs =>
      rw [List.intersperse_cons_cons] at h
      rcases List.mem_cons.mp h with rfl | h
      · exact .inr List.mem_cons_self
      · rcases List.mem_cons.mp h with rfl | h
        · exact .inl rfl
        · exact (ih h).imp_right (List.mem_cons_of_mem _)

theorem not_marked_of_mem_listOf {types : List Token} (h : ∀ t ∈ types, ¬ Marked t) :
    ∀ t ∈ listOf types, ¬ Marked t := by
  intro t ht
  rcases List.mem_cons.mp ht with rfl | ht
  · decide
  · rcases List.mem_append.mp ht with ht | ht
    · rcases mem_intersperse ht with rfl | ht
      · decide
      · exact h t ht
    · rw [List.mem_singleton.mp ht]
      decide

theorem HasParameters.spec (s : Source) {f : Token} {params : List Token}
    (h : HasParameters s.text f params) : [')'] ∈ params ∧ ∀ t ∈ params, ¬ Marked t := by
  cases h with
  | module h =>
    refine ⟨?_, s.unmarked f params h⟩
    obtain ⟨before, behind, inner, -, hinner, rfl⟩ := h
    exact List.mem_cons_of_mem _ (closing_spec hinner).1
  | gate hno h =>
    refine ⟨List.mem_cons_of_mem _ (List.mem_append_right _ List.mem_cons_self),
      not_marked_of_mem_listOf fun t ht ↦ ?_⟩
    obtain ⟨c, -, rfl⟩ := List.mem_map.mp ht
    rw [paramType]
    split_ifs <;> decide

/-! ## The tokens of a prototype -/

variable {text f args : List Char} {params : List Token}

theorem isPlain_of_isWord {c : Char} (h : isWord c) : isPlain c := by
  have hne : ∀ d, ¬ isWord d → c ≠ d := by
    rintro d hd rfl
    exact hd h
  have hrange : 0x20 ≤ c.toNat ∧ c.toNat < 0x7f := by
    rw [isWord, Bool.or_eq_true, beq_iff_eq] at h
    rcases h with h | rfl
    · delta Char.isAlphanum Char.isAlpha Char.isUpper Char.isLower Char.isDigit at h
      simp only [Bool.or_eq_true, Bool.and_eq_true, decide_eq_true_eq, ge_iff_le,
        UInt32.le_iff_toNat_le] at h
      have hA : 'A'.val.toNat = 65 := rfl
      have hZ : 'Z'.val.toNat = 90 := rfl
      have ha : 'a'.val.toNat = 97 := rfl
      have hz : 'z'.val.toNat = 122 := rfl
      have hzero : '0'.val.toNat = 48 := rfl
      have hnine : '9'.val.toNat = 57 := rfl
      rw [Char.toNat]
      omega
    · decide
  simp only [isPlain, Bool.and_eq_true, decide_eq_true_eq, bne_iff_ne]
  exact ⟨⟨⟨hrange, hne _ (by decide)⟩, hne _ (by decide)⟩, hne _ (by decide)⟩

theorem printed_of_isWord (h : ∀ c ∈ f, isWord c) : printed f = f := by
  have hone : ∀ c ∈ f, escape (quoteOf f) c = [c] := fun c hc ↦
    escape_of_isPlain (quoteOf_cases f) (isPlain_of_isWord (h c hc))
  rw [printed, List.flatMap_congr hone, List.flatMap_singleton']

theorem tokens_full_sig {inner : List Char} (hf : ∀ c ∈ f, isWord c)
    (h : signature text f = '(' :: inner) :
    tokens (full_sig text f) =
      scaff_module :: (_reverse_ ++ f) :: ['('] :: lex (.code []) (inner ++ [';']) := by
  have hname : ∀ c ∈ _reverse_ ++ f, isWord c :=
    List.forall_mem_append.mpr ⟨List.all_eq_true.mp rfl, hf⟩
  have hkeyword : ∀ c ∈ scaff_module, isWord c := List.all_eq_true.mp rfl
  rw [tokens, full_sig, h, printed_of_isWord hf,
    lex_word_cons hkeyword (List.cons_ne_nil _ _) (by decide), lex_space rfl (by decide),
    List.cons_append, ← List.append_assoc,
    lex_word_cons hname (List.append_ne_nil_of_left_ne_nil (List.cons_ne_nil _ _) _) (by decide)]
  rfl

theorem lex_qbits (n : ℕ) (rest : List Char) :
    lex (.code []) ([','].intercalate (List.replicate n qbit) ++ ')' :: rest) =
      (List.replicate n qbit).intersperse [','] ++ [')'] :: lex (.code []) rest := by
  have hqbit : ∀ c ∈ qbit, isWord c := List.all_eq_true.mp rfl
  have hne : qbit ≠ [] := List.cons_ne_nil _ _
  induction n with
  | zero => rfl
  | succ n ih =>
    cases n with
    | zero =>
      rw [List.replicate_one, List.intercalate_singleton, lex_word_cons hqbit hne (by decide)]
      rfl
    | succ n =>
      rw [List.replicate_succ, List.replicate_succ, List.intercalate_cons_cons,
        List.intersperse_cons_cons, ← List.replicate_succ, List.append_assoc, List.append_assoc,
        List.singleton_append, lex_word_cons hqbit hne (by decide)]
      show qbit :: [','] :: lex (.code []) _ = _
      rw [ih]
      rfl

/-- **Copied parameters** have tokens that a source can have if they are plain, and only then. -/
theorem lex_printed_iff {quote : Char} (hquote : quote = '"' ∨ quote = '\'') (hargs : ')' ∉ args)
    {ts : List Token} (hclose : [')'] ∈ ts) (hts : ∀ t ∈ ts, ¬ Marked t) :
    ['('] :: lex (.code []) (args.flatMap (escape quote) ++ [')', ';']) = ts ↔
      Plain (.code []) args ∧ tokens ('(' :: (args ++ [')', ';'])) = ts := by
  have htokens : tokens ('(' :: (args ++ [')', ';'])) =
      ['('] :: lex (.code []) (args ++ [')', ';']) := rfl
  rw [htokens]
  constructor
  · intro h
    have hplain : Plain (.code []) args := by
      by_contra hplain
      have hsound : Sound (.code []) := List.forall_mem_nil _
      have hrest : '\n' ∉ [')', ';'] := by decide
      rcases marked_or_of_not_plain hquote hsound hargs hrest hplain with ⟨t, ht, hmarked⟩ | hnot
      · exact hts t (h ▸ List.mem_cons_of_mem _ ht) hmarked
      · rw [← h] at hclose
        rcases List.mem_cons.mp hclose with heq | hmem
        · exact absurd heq (by decide)
        · exact hnot hmem
    exact ⟨hplain, by rw [← h, lex_printed hquote hplain]⟩
  · rintro ⟨hplain, rfl⟩
    rw [lex_printed hquote hplain]

/-! ## The prototypes that are written -/

theorem length_splitOn (c : Char) (cs : List Char) : (cs.splitOn c).length = cs.count c + 1 := by
  induction cs with
  | nil => rfl
  | cons d cs ih =>
    rw [List.splitOn_cons_eq_if_modifyHead, List.count_cons]
    split_ifs
    · rw [List.length_cons, ih]
    · rw [List.length_modifyHead, ih, Nat.add_zero]

theorem signature_of_lastHeader (hapart : Apart text) (h : LastHeader text f args) :
    ∃ quote, (quote = '"' ∨ quote = '\'') ∧
      signature text f = '(' :: (args.flatMap (escape quote) ++ [')']) := by
  have hquote := quoteOf_cases ('(' :: (args ++ [')']))
  refine ⟨_, hquote, ?_⟩
  rw [signature, hapart.module_signatures_eq_some h]
  show printed _ = _
  rw [printed, List.flatMap_cons, List.flatMap_append, escape_of_isPlain hquote (by decide),
    List.flatMap_singleton, escape_of_isPlain hquote (by decide), List.singleton_append]

theorem signature_of_lastCall (hapart : Apart text) (hno : ∀ i args, ¬ StandsHeader text i f args)
    (h : LastCall text f args) :
    signature text f =
      '(' :: ([','].intercalate (List.replicate (args.count ',' + 1) qbit) ++ [')']) := by
  rw [signature, hapart.module_signatures_eq_none_iff.mpr hno, call_signatures_eq_some_iff.mpr h]
  show '(' :: [','].intercalate
    (List.replicate ((printed args).splitOn ',').length qbit) ++ [')'] = _
  rw [length_splitOn, printed, count_comma_printed (quoteOf_cases args)]
  rfl

theorem exists_signature (hapart : Apart text) (h : f ∈ needed_reverse text) :
    ∃ inner, signature text f = '(' :: inner := by
  by_cases hheader : ∃ i args, StandsHeader text i f args
  · obtain ⟨i, args, hstands⟩ := hheader
    obtain ⟨args', hlast⟩ := hapart.exists_lastHeader hstands
    obtain ⟨quote, -, hsignature⟩ := signature_of_lastHeader hapart hlast
    exact ⟨_, hsignature⟩
  · obtain ⟨i, args, hstands⟩ := mem_needed_reverse_iff.mp h
    obtain ⟨args', hlast⟩ := exists_lastCall hstands
    have hno : ∀ i args, ¬ StandsHeader text i f args := fun i args hstands' ↦
      hheader ⟨i, args, hstands'⟩
    exact ⟨_, signature_of_lastCall hapart hno hlast⟩

theorem isWord_of_mem_needed (h : f ∈ needed_reverse text) : ∀ c ∈ f, isWord c := by
  obtain ⟨i, args, ⟨j, hcall⟩, -⟩ := mem_needed_reverse_iff.mp h
  obtain ⟨-, -, -, -, -, -, -, -, -, hword, -⟩ := hcall
  exact hword

/-- **The prototypes of a name**: one if the name is in a call that stands, and none otherwise. -/
theorem filter_prototypes (hapart : Apart text) :
    (prototypes text).filter (fun line ↦ [scaff_module, _reverse_ ++ f].isPrefixOf (tokens line)) =
      if f ∈ needed_reverse text then [full_sig text f] else [] := by
  have hname : ∀ g ∈ needed_reverse text,
      [scaff_module, _reverse_ ++ f].isPrefixOf (tokens (full_sig text g)) = (g == f) := by
    intro g hg
    obtain ⟨inner, hinner⟩ := exists_signature hapart hg
    rw [tokens_full_sig (isWord_of_mem_needed hg) hinner, Bool.eq_iff_iff,
      List.isPrefixOf_iff_prefix, beq_iff_eq, List.cons_prefix_cons, List.cons_prefix_cons,
      List.append_cancel_left_eq]
    exact ⟨fun h ↦ h.2.1.symm, fun h ↦ ⟨rfl, h.symm, List.nil_prefix⟩⟩
  have hnodup : (needed_reverse text).Nodup := List.nodup_dedup _
  have hfilter : (needed_reverse text).filter
      ((fun line ↦ [scaff_module, _reverse_ ++ f].isPrefixOf (tokens line)) ∘ full_sig text) =
        (needed_reverse text).filter (· == f) := List.filter_congr hname
  rw [prototypes, List.filter_map, hfilter, List.filter_beq]
  split_ifs with hmem
  · rw [List.count_eq_one_of_mem hnodup hmem]
    rfl
  · rw [List.count_eq_zero_of_not_mem hmem]
    rfl

theorem copied_iff (s : Source) (hword : ∀ c ∈ f, isWord c) (h : LastHeader s.text f args) :
    (∃ params, HasParameters s.text f params ∧
      tokens (full_sig s.text f) = scaff_module :: (_reverse_ ++ f) :: (params ++ [[';']])) ↔
    ∃ params, Plain (.code []) args ∧ HasParameters s.text f params ∧
      tokens ('(' :: (args ++ [')', ';'])) = params ++ [[';']] := by
  obtain ⟨quote, hquote, hsignature⟩ := signature_of_lastHeader s.apart h
  have hargs : ')' ∉ args := by
    obtain ⟨i, ⟨⟨j, hheader⟩, -⟩, -⟩ := h
    obtain ⟨-, -, -, -, -, -, -, -, -, -, -, -, -, -, -, hargs⟩ := hheader
    exact hargs
  refine exists_congr fun params ↦ ?_
  rw [and_left_comm]
  refine and_congr_right fun hparams ↦ ?_
  obtain ⟨hclose, hunmarked⟩ := hparams.spec s
  have hend : ∀ t ∈ params ++ [[';']], ¬ Marked t :=
    List.forall_mem_append.mpr ⟨hunmarked, List.forall_mem_singleton.mpr (by decide)⟩
  rw [tokens_full_sig hword hsignature, List.append_assoc, List.cons.injEq, List.cons.injEq,
    eq_self, eq_self, true_and, true_and]
  exact lex_printed_iff hquote hargs (List.mem_append_left _ hclose) hend

/-- The parameters of a prototype without a header. -/
theorem unnamed_iff (s : Source) (hword : ∀ c ∈ f, isWord c)
    (hno : ∀ i args, ¬ StandsHeader s.text i f args) (h : LastCall s.text f args) :
    (∃ params, HasParameters s.text f params ∧
      tokens (full_sig s.text f) = scaff_module :: (_reverse_ ++ f) :: (params ++ [[';']])) ↔
    HasParameters s.text f (listOf (List.replicate (args.count ',' + 1) qbit)) := by
  have htokens : tokens (full_sig s.text f) = scaff_module :: (_reverse_ ++ f) ::
      (listOf (List.replicate (args.count ',' + 1) qbit) ++ [[';']]) := by
    rw [tokens_full_sig hword (signature_of_lastCall s.apart hno h), List.append_assoc,
      List.singleton_append, lex_qbits, listOf, List.cons_append, List.append_assoc]
    rfl
  rw [htokens]
  constructor
  · rintro ⟨params, hparams, heq⟩
    rwa [List.append_cancel_right (List.cons.inj (List.cons.inj heq).2).2]
  · exact fun hparams ↦ ⟨_, hparams, rfl⟩

/-- **A source gets its prototypes** exactly if what it calls in reverse is readable. -/
theorem prototyped_iff (s : Source) : Prototyped s ↔ Readable s := by
  refine forall_congr' fun f ↦ forall_congr' fun hcalled ↦ forall_congr' fun hdeclared ↦ ?_
  rw [filter_prototypes s.apart, ← mem_needed_reverse_iff]
  by_cases hmem : f ∈ needed_reverse s.text
  · have hword := isWord_of_mem_needed hmem
    -- the line is copied from the last header, or made from the last call
    have hparams : (∃ params, HasParameters s.text f params ∧
        tokens (full_sig s.text f) = scaff_module :: (_reverse_ ++ f) :: (params ++ [[';']])) ↔
        ((∃ args params, LastHeader s.text f args ∧ Plain (.code []) args ∧
          HasParameters s.text f params ∧
          tokens ('(' :: (args ++ [')', ';'])) = params ++ [[';']]) ∨
        (∀ i args, ¬ StandsHeader s.text i f args) ∧ ∃ args, LastCall s.text f args ∧
          HasParameters s.text f (listOf (List.replicate (args.count ',' + 1) qbit))) := by
      by_cases hheader : ∃ i args, StandsHeader s.text i f args
      · obtain ⟨i, args₀, hstands⟩ := hheader
        obtain ⟨args, hlast⟩ := s.apart.exists_lastHeader hstands
        rw [copied_iff s hword hlast, or_iff_left fun hno ↦ hno.1 i args₀ hstands]
        constructor
        · rintro ⟨params, hcopied⟩
          exact ⟨args, params, hlast, hcopied⟩
        · rintro ⟨args', params, hlast', hcopied⟩
          have heq := (s.apart.module_signatures_eq_some hlast).symm.trans
            (s.apart.module_signatures_eq_some hlast')
          obtain rfl := List.append_cancel_right (List.cons.inj (Option.some.inj heq)).2
          exact ⟨params, hcopied⟩
      · -- no header: the parameters are counted by the commas of the call
        have hno : ∀ i args, ¬ StandsHeader s.text i f args := fun i args hstands ↦
          hheader ⟨i, args, hstands⟩
        obtain ⟨i, args₀, hstands⟩ := mem_needed_reverse_iff.mp hmem
        obtain ⟨args, hlast⟩ := exists_lastCall hstands
        rw [unnamed_iff s hword hno hlast, or_iff_right]
        · constructor
          · exact fun hunnamed ↦ ⟨hno, args, hlast, hunnamed⟩
          · rintro ⟨-, args', hlast', hunnamed⟩
            have heq := (call_signatures_eq_some_iff.mpr hlast).symm.trans
              (call_signatures_eq_some_iff.mpr hlast')
            rwa [Option.some.inj heq]
        · rintro ⟨args', params, ⟨i, hstands, -⟩, -⟩
          exact hno i args' hstands
    rw [if_pos hmem, ← hparams]
    constructor
    · rintro ⟨line, hline, hright⟩
      rw [(List.cons.inj hline).1]
      exact ⟨hmem, hright⟩
    · rintro ⟨-, hright⟩
      exact ⟨_, rfl, hright⟩
  · rw [if_neg hmem]
    refine iff_of_false ?_ fun h ↦ hmem h.1
    rintro ⟨line, hline, -⟩
    exact List.cons_ne_nil _ _ hline.symm

/-! ## A call behind other code -/

/-- `scaff_module main() { qbit q; _reverse_T(q); }` -/
def oneLine : List Char :=
  scaff_module ++ [' ', 'm', 'a', 'i', 'n', '(', ')', ' ', '{', ' '] ++ qbit ++
    [' ', 'q', ';', ' '] ++ _reverse_ ++ ['T', '(', 'q', ')', ';', ' ', '}']

theorem apart_oneLine : Apart oneLine := by
  intro pre blanks post i f args htext hheader
  have hmain : HeaderAt oneLine 0 19 ['m', 'a', 'i', 'n'] [] :=
    ⟨[], [], [' '], [], oneLine.drop 19, rfl, rfl, rfl, rfl, List.forall_mem_nil _,
      List.cons_ne_nil _ _, List.all_eq_true.mp rfl, List.cons_ne_nil _ _,
      List.all_eq_true.mp rfl, List.forall_mem_nil _, List.not_mem_nil⟩
  have hzero : i = 0 := by
    obtain ⟨before, indent, gap, gap', behind, htext', rfl, -, hline, -⟩ := id hheader
    induction before using List.reverseRecOn with
    | nil => rfl
    | append_singleton before c =>
      rw [List.reverse_append] at hline
      have hnewline : '\n' ∈ oneLine := by
        rw [htext', ← beq_iff_eq.mp hline]
        exact List.mem_append_left _ (List.mem_append_right _ List.mem_cons_self)
      exact absurd hnewline (by decide)
  subst hzero
  obtain ⟨-, -, hlen⟩ := hmain.unique hheader
  by_contra hblanks
  have hspaces : ∀ c ∈ blanks, isSpace c := by
    intro c hc
    by_contra hspace
    exact hblanks ⟨c, hc, hspace⟩
  have hrest : [' '] ++ oneLine.drop 20 = blanks ++ (scaff_module ++ post) := by
    have hdrop := congrArg (List.drop pre.length) htext
    rw [List.drop_left, ← hlen] at hdrop
    exact hdrop
  have hbrace : ∀ c ∈ (oneLine.drop 20).head?, ¬ isSpace c := by
    rintro c ⟨⟩
    decide
  have hhead : ∀ c ∈ (scaff_module ++ post).head?, ¬ isSpace c := by
    rintro c ⟨⟩
    decide
  obtain ⟨-, hsame⟩ := Regex.run_unique (List.all_eq_true.mp rfl) hspaces hbrace hhead hrest
  exact absurd (List.cons.inj hsame).1 (by decide)

def oneLineSource : Source where
  text := oneLine
  unmarked := by
    rintro f params ⟨before, behind, inner, htokens, hinner, rfl⟩ t ht
    have hmem : t ∈ tokens oneLine := by
      rw [htokens]
      refine List.mem_append_right _ (List.mem_cons_of_mem _ (List.mem_cons_of_mem _ ?_))
      rcases List.mem_cons.mp ht with rfl | ht
      · exact List.mem_cons_self
      · exact List.mem_cons_of_mem _ ((closing_spec hinner).2 t ht)
    have hall : ∀ t ∈ tokens oneLine, ¬ Marked t := by decide
    exact hall t hmem
  apart := apart_oneLine

/-- The call does not begin the line, and there is no prototype. -/
theorem not_prototyped_oneLine : ¬ Prototyped oneLineSource := by
  intro h
  have hcalled : Called (tokens oneLine) ['T'] :=
    ⟨List.cons_ne_nil _ _, (tokens oneLine).take 8, (tokens oneLine).drop 10, by decide, by decide⟩
  have hdeclared : ¬ Declared (tokens oneLine) ['T'] := by
    rintro ⟨before, behind, htokens⟩
    have hinfix : [scaff_module, _reverse_ ++ ['T']] <:+: tokens oneLine :=
      ⟨before, behind, by rw [htokens, List.append_assoc]; rfl⟩
    exact absurd hinfix (by decide)
  obtain ⟨line, hline, -⟩ := h ['T'] hcalled hdeclared
  have hnone : prototypes oneLine = [] := by decide
  rw [show oneLineSource.text = oneLine from rfl, hnone] at hline
  exact List.cons_ne_nil _ _ hline.symm

end ScaffCC.InsertReverse
