import Mathlib.Data.List.Basic
import ScaffCC.InsertReverse.Script

/-!
# Tokens of printed parameters

A printed byte is one character or an escape with a backslash. In a comment an escape does no harm.
Elsewhere its backslash becomes a token, and a comment up to the end of the line has no end when the
line break is printed as an escape.
-/

namespace ScaffCC.InsertReverse

open Lexer

variable {quote c : Char} {cs args rest : List Char} {st : State}

/-! ## Escapes -/

/-- A character that is printed as it is, whatever the quotes are. -/
def isPlain (c : Char) : Bool :=
  decide (0x20 ≤ c.toNat) && decide (c.toNat < 0x7f) && c != '\\' && c != '"' && c != '\''

theorem escape_of_isPlain (hquote : quote = '"' ∨ quote = '\'') (h : isPlain c) :
    escape quote c = [c] := by
  simp only [isPlain, Bool.and_eq_true, decide_eq_true_eq, bne_iff_ne] at h
  obtain ⟨⟨⟨⟨hlow, hhigh⟩, hslash⟩, hdouble⟩, hsingle⟩ := h
  have hne : c ≠ quote := by rcases hquote with rfl | rfl <;> assumption
  have hcontrol : ∀ d : Char, d.toNat < 0x20 → c ≠ d := by
    rintro d hd rfl
    omega
  rw [escape, if_neg (not_or.mpr ⟨hne, hslash⟩), if_neg (hcontrol _ (by decide)),
    if_neg (hcontrol _ (by decide)), if_neg (hcontrol _ (by decide)), if_neg (by omega)]

/-- Characters that end no line, begin and end no comment, and separate nothing. -/
def Inert (c : Char) : Prop := c ≠ '\n' ∧ c ≠ '/' ∧ c ≠ '*' ∧ c ≠ ','

instance : Decidable (Inert c) := inferInstanceAs (Decidable (_ ∧ _))

theorem inert_digitChar {n : ℕ} : Inert (Nat.digitChar (n % 16)) := by
  have h : ∀ k : Fin 16, Inert (Nat.digitChar k) := by decide
  exact h ⟨n % 16, Nat.mod_lt _ (by decide)⟩

theorem escape_of_not_isPlain (hquote : quote = '"' ∨ quote = '\'') (h : ¬ isPlain c) :
    (escape quote c = [c] ∧ (c = '"' ∨ c = '\'')) ∨
      ∃ cs, escape quote c = '\\' :: cs ∧ ∀ e ∈ cs, Inert e := by
  rw [escape]
  split_ifs with hself htab hline hreturn hcode
  · refine .inr ⟨[c], rfl, List.forall_mem_singleton.mpr ?_⟩
    rcases hself with rfl | rfl
    · rcases hquote with rfl | rfl <;> decide
    · decide
  · exact .inr ⟨['t'], rfl, List.forall_mem_singleton.mpr (by decide)⟩
  · exact .inr ⟨['n'], rfl, List.forall_mem_singleton.mpr (by decide)⟩
  · exact .inr ⟨['r'], rfl, List.forall_mem_singleton.mpr (by decide)⟩
  · exact .inr ⟨_, rfl, List.forall_mem_cons.mpr ⟨by decide, List.forall_mem_cons.mpr
      ⟨inert_digitChar, List.forall_mem_singleton.mpr inert_digitChar⟩⟩⟩
  · refine .inl ⟨rfl, ?_⟩
    simp only [isPlain, Bool.and_eq_true, decide_eq_true_eq, bne_iff_ne, not_and_or, not_not] at h
    rcases h with (((h | h) | h) | h) | h
    · exact absurd (.inl (not_le.mp h)) hcode
    · exact absurd (.inr (not_lt.mp h)) hcode
    · exact absurd (.inr h) hself
    · exact .inl h
    · exact .inr h

theorem inert_of_not_isPlain (h : ¬ isPlain c) (hline : c ≠ '\n') : Inert c := by
  refine ⟨hline, ?_, ?_, ?_⟩ <;> rintro rfl <;> exact h (by decide)

theorem newline_notMem_printed (hquote : quote = '"' ∨ quote = '\'') :
    '\n' ∉ args.flatMap (escape quote) := by
  rw [List.mem_flatMap]
  rintro ⟨c, -, hc⟩
  by_cases hplain : isPlain c
  · rw [escape_of_isPlain hquote hplain, List.mem_singleton] at hc
    exact absurd (hc ▸ hplain) (by decide)
  · rcases escape_of_not_isPlain hquote hplain with ⟨heq, hc'⟩ | ⟨cs, heq, hcs⟩
    · rw [heq, List.mem_singleton] at hc
      rcases hc' with hc' | hc' <;> exact absurd (hc.trans hc') (by decide)
    · rw [heq] at hc
      rcases List.mem_cons.mp hc with hc | hc
      · exact absurd hc (by decide)
      · exact (hcs _ hc).1 rfl

theorem count_comma_printed (hquote : quote = '"' ∨ quote = '\'') :
    (args.flatMap (escape quote)).count ',' = args.count ',' := by
  induction args with
  | nil => rfl
  | cons c args ih =>
    rw [List.flatMap_cons, List.count_append, ih, List.count_cons, Nat.add_comm]
    congr 1
    by_cases hplain : isPlain c
    · rw [escape_of_isPlain hquote hplain, List.count_singleton]
    · have hc : (c == ',') = false := by
        rw [beq_eq_false_iff_ne]
        rintro rfl
        exact hplain (by decide)
      rw [hc, if_neg Bool.false_ne_true, List.count_eq_zero]
      rcases escape_of_not_isPlain hquote hplain with ⟨heq, -⟩ | ⟨cs, heq, hcs⟩
      · rw [heq, List.mem_singleton, eq_comm, ← beq_iff_eq, hc]
        exact Bool.false_ne_true
      · rw [heq, List.mem_cons, not_or]
        exact ⟨by decide, fun hmem ↦ (hcs _ hmem).2.2.2 rfl⟩

/-! ## Reading what is printed -/

/-- The reader is in a comment that may go over several lines. -/
def InBlock (st : State) : Prop := st = .block ∨ st = .star

/-- Text is read in the same way after it is printed: outside of comments every character is plain,
and no comment goes up to the end of the line. -/
def Plain : State → List Char → Prop
  | _, [] => True
  | st, c :: cs => (InBlock st ∨ isPlain c ∧ ¬ (st = .slash ∧ c = '/')) ∧ Plain (step st c).2 cs

theorem step_of_inBlock (h : InBlock st) (c : Char) : (step st c).1 = [] := by
  rcases h with rfl | rfl <;> rfl

theorem step_of_inert (h : InBlock st) (hc : Inert c) : (step st c).2 = .block := by
  obtain ⟨-, hslash, hstar, -⟩ := hc
  rcases h with rfl | rfl
  · exact if_neg hstar
  · exact (if_neg hslash).trans (if_neg hstar)

theorem lex_block_inert (h : ∀ e ∈ cs, Inert e) : lex .block (cs ++ rest) = lex .block rest := by
  induction cs with
  | nil => rfl
  | cons c cs ih =>
    obtain ⟨hc, hcs⟩ := List.forall_mem_cons.mp h
    rw [List.cons_append, lex, step_of_inBlock (.inl rfl), step_of_inert (.inl rfl) hc, ih hcs]
    rfl

theorem lex_escape_of_inBlock (hquote : quote = '"' ∨ quote = '\'') (h : InBlock st) :
    lex st (escape quote c ++ rest) = lex (step st c).2 rest := by
  have hone : lex st ([c] ++ rest) = lex (step st c).2 rest := by
    rw [List.singleton_append, lex, step_of_inBlock h, List.nil_append]
  by_cases hplain : isPlain c
  · rw [escape_of_isPlain hquote hplain, hone]
  · rcases escape_of_not_isPlain hquote hplain with ⟨heq, -⟩ | ⟨cs, heq, hcs⟩
    · rw [heq, hone]
    · have hnext : (step st c).2 = .block := by
        rcases eq_or_ne c '\n' with rfl | hline
        · rcases h with rfl | rfl <;> rfl
        · exact step_of_inert h (inert_of_not_isPlain hplain hline)
      rw [heq, List.cons_append, lex, step_of_inBlock h, step_of_inert h (by decide), hnext,
        List.nil_append, lex_block_inert hcs]

/-- **Plain parameters** have the same tokens after they are printed. -/
theorem lex_printed (hquote : quote = '"' ∨ quote = '\'') (h : Plain st args) :
    lex st (args.flatMap (escape quote) ++ rest) = lex st (args ++ rest) := by
  induction args generalizing st with
  | nil => rfl
  | cons c args ih =>
    obtain ⟨hc, hargs⟩ := h
    rw [List.flatMap_cons, List.append_assoc, List.cons_append]
    rcases hc with hblock | ⟨hplain, -⟩
    · rw [lex_escape_of_inBlock hquote hblock, ih hargs, lex, step_of_inBlock hblock]
      rfl
    · rw [escape_of_isPlain hquote hplain, List.singleton_append, lex, ih hargs, lex]

/-! ## What is not plain -/

/-- A token with a backslash or a quote. -/
def Marked (t : Token) : Prop := '\\' ∈ t ∨ '"' ∈ t ∨ '\'' ∈ t

instance (t : Token) : Decidable (Marked t) := inferInstanceAs (Decidable (_ ∨ _))

/-- The reader is in a word, or behind a slash, or in a comment that may go over several lines. -/
def Sound : State → Prop
  | .code word => ∀ c ∈ word, isWord c
  | .slash | .block | .star => True
  | _ => False

theorem close_notMem_flush {word : List Char} (h : ∀ c ∈ word, isWord c) : [')'] ∉ flush word := by
  rw [flush]
  split_ifs
  · exact List.not_mem_nil
  · rw [List.mem_singleton]
    rintro rfl
    exact absurd (h _ List.mem_cons_self) (by decide)

theorem sound_stepCode {word : List Char} (hword : ∀ c ∈ word, isWord c) (hc : c ≠ ')')
    (hplain : isPlain c) : Sound (stepCode word c).2 ∧ [')'] ∉ (stepCode word c).1 := by
  have hflush := close_notMem_flush hword
  rw [stepCode]
  split_ifs with hw hspace hslash hquote
  · refine ⟨fun d hd ↦ ?_, List.not_mem_nil⟩
    rcases List.mem_append.mp hd with hd | hd
    · exact hword d hd
    · rwa [List.mem_singleton.mp hd]
  · exact ⟨List.forall_mem_nil _, hflush⟩
  · exact ⟨trivial, hflush⟩
  · rcases hquote with rfl | rfl <;> exact absurd hplain (by decide)
  · refine ⟨List.forall_mem_nil _, fun hmem ↦ ?_⟩
    rcases List.mem_append.mp hmem with hmem | hmem
    · exact hflush hmem
    · exact hc (List.cons.inj (List.mem_singleton.mp hmem)).1.symm

theorem sound_step (h : Sound st) (hc : c ≠ ')')
    (hplain : InBlock st ∨ isPlain c ∧ ¬ (st = .slash ∧ c = '/')) :
    Sound (step st c).2 ∧ [')'] ∉ (step st c).1 := by
  rcases hplain with hblock | ⟨hplain, hslash⟩
  · refine ⟨?_, (step_of_inBlock hblock c).symm ▸ List.not_mem_nil⟩
    rcases hblock with rfl | rfl
    · rw [step]
      split_ifs <;> trivial
    · rw [step]
      split_ifs
      · exact List.forall_mem_nil _
      · trivial
      · trivial
  · cases st with
    | code word => exact sound_stepCode h hc hplain
    | slash =>
      have hne : c ≠ '/' := fun heq ↦ hslash ⟨rfl, heq⟩
      rw [step, if_neg hne]
      split_ifs with hstar
      · exact ⟨trivial, List.not_mem_nil⟩
      · obtain ⟨hsound, hnot⟩ := sound_stepCode (List.forall_mem_nil _) hc hplain
        refine ⟨hsound, fun hmem ↦ ?_⟩
        rcases List.mem_cons.mp hmem with heq | hmem
        · exact absurd heq (by decide)
        · exact hnot hmem
    | block => exact ⟨by rw [step]; split_ifs <;> trivial, List.not_mem_nil⟩
    | star =>
      refine ⟨?_, List.not_mem_nil⟩
      rw [step]
      split_ifs
      · exact List.forall_mem_nil _
      · trivial
      · trivial
    | line => exact h.elim
    | quoted _ _ => exact h.elim
    | escaped _ _ => exact h.elim

theorem step_quote (h : Sound st) (hblock : ¬ InBlock st) (hc : c = '"' ∨ c = '\'') :
    (step st c).2 = .quoted c [c] ∧ [')'] ∉ (step st c).1 := by
  cases st with
  | code word =>
    rcases hc with rfl | rfl <;> exact ⟨rfl, close_notMem_flush h⟩
  | slash => rcases hc with rfl | rfl <;> exact ⟨rfl, by decide⟩
  | block => exact absurd (.inl rfl) hblock
  | star => exact absurd (.inr rfl) hblock
  | line => exact h.elim
  | quoted _ _ => exact h.elim
  | escaped _ _ => exact h.elim

theorem step_backslash (h : Sound st) (hblock : ¬ InBlock st) : ['\\'] ∈ (step st '\\').1 := by
  cases st with
  | code word => exact List.mem_append_right _ List.mem_cons_self
  | slash => exact List.mem_cons_of_mem _ List.mem_cons_self
  | block => exact absurd (.inl rfl) hblock
  | star => exact absurd (.inr rfl) hblock
  | line => exact h.elim
  | quoted _ _ => exact h.elim
  | escaped _ _ => exact h.elim

/-- **Parameters that are not plain** become a token with a backslash or a quote, or they are not
closed. -/
theorem marked_or_of_not_plain (hquote : quote = '"' ∨ quote = '\'') (hst : Sound st)
    (hargs : ')' ∉ args) (hrest : '\n' ∉ rest) (h : ¬ Plain st args) :
    (∃ t ∈ lex st (args.flatMap (escape quote) ++ rest), Marked t) ∨
      [')'] ∉ lex st (args.flatMap (escape quote) ++ rest) := by
  induction args generalizing st with
  | nil => exact absurd trivial h
  | cons c args ih =>
    have hc : c ≠ ')' := fun heq ↦ hargs (heq ▸ List.mem_cons_self)
    have hargs' : ')' ∉ args := fun hmem ↦ hargs (List.mem_cons_of_mem _ hmem)
    rw [List.flatMap_cons, List.append_assoc]
    -- the first character that is not plain decides what is printed
    by_cases hok : InBlock st ∨ isPlain c ∧ ¬ (st = .slash ∧ c = '/')
    · have hlex : ∀ text, lex st (escape quote c ++ text) =
          (step st c).1 ++ lex (step st c).2 text := by
        intro text
        rcases hok with hblock | ⟨hplain, -⟩
        · rw [lex_escape_of_inBlock hquote hblock, step_of_inBlock hblock, List.nil_append]
        · rw [escape_of_isPlain hquote hplain, List.singleton_append, lex]
      obtain ⟨hsound, hnot⟩ := sound_step hst hc hok
      rw [hlex]
      rcases ih hsound hargs' fun hplain ↦ h ⟨hok, hplain⟩ with ⟨t, ht, hmarked⟩ | hclose
      · exact .inl ⟨t, List.mem_append_right _ ht, hmarked⟩
      · exact .inr fun hmem ↦ (List.mem_append.mp hmem).elim hnot hclose
    · rw [not_or, not_and, not_not] at hok
      obtain ⟨hblock, hslash⟩ := hok
      by_cases hplain : isPlain c
      · obtain ⟨rfl, rfl⟩ := hslash hplain
        -- two slashes open a comment up to the end of the line, which holds the parenthesis
        have hline : '\n' ∉ args.flatMap (escape quote) ++ rest := fun hmem ↦
          (List.mem_append.mp hmem).elim (newline_notMem_printed hquote) hrest
        rw [escape_of_isPlain hquote hplain, List.singleton_append, lex]
        right
        rw [show step .slash '/' = ([], .line) from rfl, lex_line hline]
        exact List.not_mem_nil
      · rcases escape_of_not_isPlain hquote hplain with ⟨heq, hc'⟩ | ⟨cs, heq, -⟩
        · obtain ⟨hnext, hnot⟩ := step_quote hst hblock hc'
          -- the other quote opens a literal
          have hliteral : ∀ text, lex (.quoted c [c]) text = [] ∨
              ∃ t ∈ lex (.quoted c [c]) text, c ∈ t := fun text ↦
            lex_literal (List.mem_singleton_self c) (.inl rfl)
          rw [heq, List.singleton_append, lex, hnext]
          rcases hliteral (args.flatMap (escape quote) ++ rest) with hnil | ⟨t, ht, hct⟩
          · rw [hnil, List.append_nil]
            exact .inr hnot
          · refine .inl ⟨t, List.mem_append_right _ ht, .inr ?_⟩
            rcases hc' with rfl | rfl
            exacts [.inl hct, .inr hct]
        · rw [heq, List.cons_append, lex]
          exact .inl ⟨['\\'], List.mem_append_left _ (step_backslash hst hblock),
            .inl List.mem_cons_self⟩

end ScaffCC.InsertReverse
