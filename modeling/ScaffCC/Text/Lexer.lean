import Mathlib.Data.List.Basic

/-!
# Tokens of a text

A reader goes through a text character by character and gives out words, literals, and other
characters one at a time. Blanks and comments stand between tokens.
-/

namespace Lexer

/-- A word, a literal, or a character. -/
abbrev Token := List Char

/-- Where a reader is: in code, behind a slash, in a comment, in one behind a star, in a comment up
to the end of the line, in a literal, or behind a backslash in one. -/
inductive State
  | code (word : List Char)
  | slash
  | block
  | star
  | line
  | quoted (quote : Char) (literal : List Char)
  | escaped (quote : Char) (literal : List Char)

def isSpace (c : Char) : Bool :=
  c == ' ' || c == '\t' || c == '\n' || c == '\r' || c == '\x0b' || c == '\x0c'

def isWord (c : Char) : Bool := c.isAlphanum || c == '_'

/-- The word that ends here, if there is one. -/
def flush (word : List Char) : List Token := if word = [] then [] else [word]

def stepCode (word : List Char) (c : Char) : List Token × State :=
  if isWord c then ([], .code (word ++ [c]))
  else if isSpace c then (flush word, .code [])
  else if c = '/' then (flush word, .slash)
  else if c = '"' ∨ c = '\'' then (flush word, .quoted c [c])
  else (flush word ++ [[c]], .code [])

/-- The tokens that end with a character, and where the reader is behind it. -/
def step : State → Char → List Token × State
  | .code word, c => stepCode word c
  | .slash, c =>
    if c = '/' then ([], .line)
    else if c = '*' then ([], .block)
    else (['/'] :: (stepCode [] c).1, (stepCode [] c).2)
  | .block, c => ([], if c = '*' then .star else .block)
  | .star, c => ([], if c = '/' then .code [] else if c = '*' then .star else .block)
  | .line, c => ([], if c = '\n' then .code [] else .line)
  | .quoted quote literal, c =>
    if c = quote then ([literal ++ [c]], .code [])
    else if c = '\\' then ([], .escaped quote literal)
    else ([], .quoted quote (literal ++ [c]))
  | .escaped quote literal, c => ([], .quoted quote (literal ++ ['\\', c]))

/-- The tokens that end with the text. -/
def finish : State → List Token
  | .code word => flush word
  | .slash => [['/']]
  | _ => []

/-- The tokens from here on. -/
def lex : State → List Char → List Token
  | st, [] => finish st
  | st, c :: cs => (step st c).1 ++ lex (step st c).2 cs

def tokens (text : List Char) : List Token := lex (.code []) text

/-! ## Words and other characters -/

variable {word text : List Char} {c : Char}

theorem flush_of_ne_nil (h : word ≠ []) : flush word = [word] := if_neg h

theorem lex_word {f : List Char} (hf : ∀ c ∈ f, isWord c) :
    lex (.code word) (f ++ text) = lex (.code (word ++ f)) text := by
  induction f generalizing word with
  | nil => rw [List.append_nil, List.nil_append]
  | cons c f ih =>
    obtain ⟨hc, hf⟩ := List.forall_mem_cons.mp hf
    rw [List.cons_append, lex, step, stepCode, if_pos hc, List.nil_append, ih hf,
      List.append_assoc, List.singleton_append]

theorem stepCode_of_not_isWord (h : ¬ isWord c) :
    stepCode word c = (flush word ++ (stepCode [] c).1, (stepCode [] c).2) := by
  simp only [stepCode, if_neg h]
  split_ifs <;> simp [flush]

theorem lex_of_not_isWord (h : ¬ isWord c) :
    lex (.code word) (c :: text) = flush word ++ lex (.code []) (c :: text) := by
  rw [lex, step, stepCode_of_not_isWord h, lex, step, List.append_assoc]

theorem lex_space (h : isSpace c) (hword : ¬ isWord c) :
    lex (.code []) (c :: text) = lex (.code []) text := by
  rw [lex, step, stepCode, if_neg hword, if_pos h]
  rfl

/-- **A word** is read up to a character that is not of it. -/
theorem lex_word_cons {f : List Char} (hf : ∀ c ∈ f, isWord c) (hne : f ≠ []) (h : ¬ isWord c) :
    lex (.code []) (f ++ c :: text) = f :: lex (.code []) (c :: text) := by
  rw [lex_word hf, List.nil_append, lex_of_not_isWord h, flush_of_ne_nil hne,
    List.singleton_append]

/-! ## Comments and literals -/

theorem lex_line (h : '\n' ∉ text) : lex .line text = [] := by
  induction text with
  | nil => rfl
  | cons c text ih =>
    have hc : c ≠ '\n' := fun heq ↦ h (heq ▸ List.mem_cons_self)
    rw [lex, step, if_neg hc, List.nil_append, ih fun hmem ↦ h (List.mem_cons_of_mem _ hmem)]

theorem lex_literal {quote : Char} {literal : List Char} (h : quote ∈ literal) {st : State}
    (hst : st = .quoted quote literal ∨ st = .escaped quote literal) :
    lex st text = [] ∨ ∃ token ∈ lex st text, quote ∈ token := by
  induction text generalizing st literal with
  | nil => rcases hst with rfl | rfl <;> exact .inl rfl
  | cons c text ih =>
    have hmore : ∀ cs, quote ∈ literal ++ cs := fun cs ↦ List.mem_append_left _ h
    rcases hst with rfl | rfl
    · rw [lex, step]
      split_ifs with hquote hslash
      · exact .inr ⟨literal ++ [c], List.mem_append_left _ List.mem_cons_self, hmore _⟩
      · exact ih h (.inr rfl)
      · exact ih (hmore _) (.inl rfl)
    · exact ih (hmore _) (.inl rfl)

end Lexer
