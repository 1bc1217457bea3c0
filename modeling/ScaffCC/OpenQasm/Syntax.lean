import Mathlib.Data.List.Basic

/-!
# OpenQASM programs

The part of the OpenQASM 2.0 grammar that straight-line programs use. A text is split into words
and punctuation, and the tokens are read statement by statement, each up to its semicolon. A text in
which some statement is not terminated has no reading: either a semicolon ends two statements at
once, which the grammar does not allow, or the text ends within a statement.
-/

namespace ScaffCC.OpenQasm

/-- A name, a numeral, an operand with its index, or an operator: anything between white space and
punctuation. -/
abbrev Word := List Char

/-! ## Tokens -/

inductive Token
  | word (w : Word)
  | comma
  | semicolon
  | lparen
  | rparen
  deriving DecidableEq

/-- The tokens a character stands for when it ends a word. -/
def separator : Char → Option (List Token)
  | ' ' | '\n' | '\t' => some []
  | ',' => some [.comma]
  | ';' => some [.semicolon]
  | '(' => some [.lparen]
  | ')' => some [.rparen]
  | _ => none

/-- A word read so far, if any. -/
def flush (w : Word) : List Token :=
  if w = [] then [] else [.word w]

/-- The tokens of a text, after a word read so far. -/
def lexFrom (w : Word) : List Char → List Token
  | [] => flush w
  | c :: cs =>
    match separator c with
    | none => lexFrom (w ++ [c]) cs
    | some ts => flush w ++ ts ++ lexFrom [] cs

/-- The tokens of a text. -/
def lex (cs : List Char) : List Token :=
  lexFrom [] cs

/-- A word that stands in a text as one token. -/
structure IsWord (w : Word) : Prop where
  ne_nil : w ≠ []
  plain : ∀ c ∈ w, separator c = none

theorem lexFrom_plain {u : Word} (hu : ∀ c ∈ u, separator c = none) (w : Word) (cs : List Char) :
    lexFrom w (u ++ cs) = lexFrom (w ++ u) cs := by
  induction u generalizing w with
  | nil => rw [List.nil_append, List.append_nil]
  | cons c u ih =>
    rw [List.cons_append, lexFrom, hu c List.mem_cons_self]
    simp only
    rw [ih (fun c hc ↦ hu c (List.mem_cons_of_mem _ hc)), List.append_assoc, List.singleton_append]

theorem lex_separator {c : Char} {ts : List Token} (hc : separator c = some ts) (cs : List Char) :
    lex (c :: cs) = ts ++ lex cs := by
  rw [lex, lexFrom, hc]
  rfl

theorem IsWord.lex_append {w : Word} (h : IsWord w) {cs : List Char}
    (hcs : (cs.head?.bind separator).isSome) : lex (w ++ cs) = .word w :: lex cs := by
  cases cs with
  | nil => exact absurd hcs Bool.false_ne_true
  | cons c cs =>
    obtain ⟨ts, hc⟩ : ∃ ts, separator c = some ts := Option.isSome_iff_exists.mp hcs
    rw [lex_separator hc, lex, lexFrom_plain h.plain, List.nil_append, lexFrom, hc]
    simp only [flush, if_neg h.ne_nil]
    rfl

instance (w : Word) : Decidable (IsWord w) :=
  have := List.decidableBAll (fun c ↦ separator c = none) w
  decidable_of_iff (w ≠ [] ∧ ∀ c ∈ w, separator c = none)
    ⟨fun h ↦ ⟨h.1, h.2⟩, fun h ↦ ⟨h.ne_nil, h.plain⟩⟩

theorem separator_eq_none {c : Char} (h : c ∉ [' ', '\n', '\t', ',', ';', '(', ')']) :
    separator c = none := by
  unfold separator
  split <;> first | rfl | exact absurd (by decide) h

theorem separator_of_isAlphanum {c : Char} (h : c.isAlphanum) : separator c = none := by
  refine separator_eq_none fun hc ↦ ?_
  have hall : [' ', '\n', '\t', ',', ';', '(', ')'].all (fun c ↦ ¬ c.isAlphanum) := by decide
  exact absurd h (by simpa using List.all_eq_true.mp hall c hc)

theorem IsWord.append_left {w : Word} (h : IsWord w) {u : List Char}
    (hu : ∀ c ∈ u, separator c = none) : IsWord (w ++ u) :=
  ⟨List.append_ne_nil_of_left_ne_nil h.ne_nil _,
    List.forall_mem_append.mpr ⟨h.plain, hu⟩⟩

/-! ## Statements -/

/-- The quantum operations. -/
inductive Qop
  | measure (q c : Word)
  | reset (q : Word)
  | gate (name : Word) (params operands : List Word)
  deriving DecidableEq

inductive Statement
  | declare (keyword w : Word)
  | op (o : Qop)
  | ifEq (c v : Word) (o : Qop)
  deriving DecidableEq

/-- The keywords of the statements with one word. -/
def declarations : List Word :=
  ["OPENQASM".toList, "include".toList, "qreg".toList, "creg".toList]

def readOperands : List Token → Option (List Word)
  | [.word w] => some [w]
  | .word w :: .comma :: ts => (readOperands ts).map (w :: ·)
  | _ => none

/-- The call of a gate, after its name. -/
def readCall (g : Word) : List Token → Option Qop
  | .lparen :: .word p :: .rparen :: ts => (readOperands ts).map (.gate g [p])
  | ts => (readOperands ts).map (.gate g [])

/-- A quantum operation, without its semicolon. -/
def readQop : List Token → Option Qop
  | .word k :: ts =>
    if k = "measure".toList then
      match ts with
      | [.word q, .word a, .word c] => if a = "->".toList then some (.measure q c) else none
      | _ => none
    else if k = "reset".toList then
      match ts with
      | [.word q] => some (.reset q)
      | _ => none
    else readCall k ts
  | _ => none

/-- A statement, without its semicolon. -/
def readStatement : List Token → Option Statement
  | .word k :: ts =>
    if k = "if".toList then
      match ts with
      | .lparen :: .word c :: .word e :: .word v :: .rparen :: ts =>
        if e = "==".toList then (readQop ts).map (.ifEq c v) else none
      | _ => none
    else if k ∈ declarations then
      match ts with
      | [.word w] => some (.declare k w)
      | _ => none
    else (readQop (.word k :: ts)).map .op
  | _ => none

/-- The statements of a list of tokens, after the tokens read since the last semicolon. -/
def readFrom (acc : List Token) : List Token → Option (List Statement)
  | [] => if acc = [] then some [] else none
  | .semicolon :: ts => (readStatement acc).bind fun s ↦ (readFrom [] ts).map (s :: ·)
  | t :: ts => readFrom (acc ++ [t]) ts

/-- **The reading of a text**, if every statement in it is well formed and terminated. -/
def read (cs : List Char) : Option (List Statement) :=
  readFrom [] (lex cs)

end ScaffCC.OpenQasm
