import Mathlib.Data.List.Dedup
import ScaffCC.Text.Lexer
import ScaffCC.Text.Regex

/-!
# The script `insert_reverse.py`

The script looks for headers of modules and for calls in reverse with two regular expressions, and
writes a prototype for every name that it has seen in a call. The parameters are copied from the
last header, in the way in which Python prints bytes. Without a header there is a qubit for each
argument of the last call.
-/

namespace ScaffCC.InsertReverse

open Lexer (isSpace isWord)
open Regex

/-! ## The expressions -/

def scaff_module : List Char := ['s', 'c', 'a', 'f', 'f', '_', 'm', 'o', 'd', 'u', 'l', 'e']

def _reverse_ : List Char := ['_', 'r', 'e', 'v', 'e', 'r', 's', 'e', '_']

def qbit : List Char := ['q', 'b', 'i', 't']

/-- What may be in front of a header on its line. -/
def isIndent (c : Char) : Bool := c == ' ' || c == '\t' || c == '\x0c' || c == '\x0b'

/-- `^[ \t\f\v]*scaff_module\s+(?P<name>\w+)\s*(?P<args>\([^\)]*\))\s*({|;)?` -/
def decls_re : Pattern :=
  concat [.lineStart, .star isIndent, .word scaff_module, plus isSpace, .group (plus isWord),
    .star isSpace, .group (concat [.word ['('], .star (· != ')'), .word [')']]), .star isSpace,
    .optional (.group (.char fun c ↦ c == '{' || c == ';'))]

/-- `^(?!scaff_module)\s*_reverse_(?P<rev_gate>\w+)\(([^\)]*)\)` -/
def reverse_re : Pattern :=
  concat [.lineStart, .notAhead scaff_module, .star isSpace, .word _reverse_, .group (plus isWord),
    .word ['('], .group (.star (· != ')')), .word [')']]

/-! ## The prototypes -/

/-- How Python prints a byte between quotes. -/
def escape (quote c : Char) : List Char :=
  if c = quote ∨ c = '\\' then ['\\', c]
  else if c = '\t' then ['\\', 't']
  else if c = '\n' then ['\\', 'n']
  else if c = '\r' then ['\\', 'r']
  else if c.toNat < 0x20 ∨ 0x7f ≤ c.toNat then
    ['\\', 'x', Nat.digitChar (c.toNat / 16 % 16), Nat.digitChar (c.toNat % 16)]
  else [c]

/-- The quotes between which bytes are printed. -/
def quoteOf (bytes : List Char) : Char := if '\'' ∈ bytes ∧ '"' ∉ bytes then '"' else '\''

theorem quoteOf_cases (bytes : List Char) : quoteOf bytes = '"' ∨ quoteOf bytes = '\'' := by
  rw [quoteOf]
  split_ifs
  · exact .inl rfl
  · exact .inr rfl

/-- `str(bytes)[2:-1]`, what is printed without the `b` and the quotes. -/
def printed (bytes : List Char) : List Char := bytes.flatMap (escape (quoteOf bytes))

/-- The last parameters of each module. -/
def module_signatures (data : List Char) : List Char → Option (List Char) :=
  table (·.getD 0 []) (·.getD 1 []) (findall decls_re data)

/-- The last arguments for each name. -/
def call_signatures (data : List Char) : List Char → Option (List Char) :=
  table (·.getD 0 []) (·.getD 1 []) (findall reverse_re data)

/-- The names in the calls, each once. Python goes through them in some order. -/
def needed_reverse (data : List Char) : List (List Char) :=
  ((findall reverse_re data).map (·.getD 0 [])).dedup

def signature (data module : List Char) : List Char :=
  match module_signatures data module with
  | some args => printed args
  | none =>
    -- we assume all qubits for builtins
    let arguments := (printed ((call_signatures data module).getD [])).splitOn ','
    '(' :: [','].intercalate (List.replicate arguments.length qbit) ++ [')']

def full_sig (data module : List Char) : List Char :=
  scaff_module ++ ' ' :: (_reverse_ ++ (printed module ++ (signature data module ++ [';'])))

/-- The lines of the new file. -/
def prototypes (data : List Char) : List (List Char) :=
  (needed_reverse data).map (full_sig data)

end ScaffCC.InsertReverse
