import Mathlib.Algebra.BigOperators.Group.List.Basic
import Mathlib.Data.UInt
import ScaffCC.Memory.Bytes

/-!
# Counting invocations at run time

An instrumented program calls `memoize` before each call of a module and `exit_scope` after it. A
stack holds the repeat counts of the modules entered, and a hash table holds, for each module with
its parameters, how often it is executed.

The table compares the first `keylen` bytes of its entries. The fields of an entry are aligned, so
they do not end where the sum of their sizes does: the last six bytes of the last double parameter
are not part of the key.

Integers are given by their 32 bits and doubles by their 64 bits. A name or a list of parameters
that does not fit into its field overruns it, and such a call has no result here.
-/

namespace ScaffCC.Frequency

open Memory

/-! ## The stack -/

abbrev maxFunctionName : ℕ := 90

abbrev maxIntParams : ℕ := 4

abbrev maxDoubleParams : ℕ := 4

abbrev maxCallDepth : ℕ := 16

/-- The stack, its bottom first; `top` is the index of the last element. -/
structure resourcesStack_t where
  contents : List UInt32
  maxSize : ℕ

def stackInit (maxSize : ℕ) : resourcesStack_t := ⟨[], maxSize⟩

/-- The program ends when the stack is full. -/
def stackPush (s : resourcesStack_t) (stackElement : UInt32) : Option resourcesStack_t :=
  if s.maxSize ≤ s.contents.length then none
  else some { s with contents := s.contents ++ [stackElement] }

/-- The program ends when the stack is empty. -/
def stackPop (s : resourcesStack_t) : Option resourcesStack_t :=
  if s.contents = [] then none else some { s with contents := s.contents.dropLast }

/-- The product of the elements from the top down to the one above the bottom. -/
def accumulativeMult (s : resourcesStack_t) : UInt64 :=
  s.contents.tail.reverse.foldl (fun mult r ↦ mult * r.toUInt64) 1

/-! ## The table -/

/-- A module with the parameters it is called with. The name is a C string. -/
structure Invocation where
  function_name : List UInt8
  int_params : List UInt32
  double_params : List UInt64
  cstring : 0 ∉ function_name
  deriving DecidableEq

/-- The name and the parameters fit into the fields. -/
structure Invocation.Fits (f : Invocation) : Prop where
  name : f.function_name.length < maxFunctionName
  ints : f.int_params.length ≤ maxIntParams
  doubles : f.double_params.length ≤ maxDoubleParams

instance (f : Invocation) : Decidable f.Fits :=
  decidable_of_iff (f.function_name.length < maxFunctionName ∧
      f.int_params.length ≤ maxIntParams ∧ f.double_params.length ≤ maxDoubleParams)
    ⟨fun h ↦ ⟨h.1, h.2.1, h.2.2⟩, fun h ↦ ⟨h.name, h.ints, h.doubles⟩⟩

structure lookup_key_t where
  function_name : List UInt8
  int_params : List UInt32
  double_params : List UInt64

structure hash_entry_t extends lookup_key_t where
  resources₀ : UInt64
  resources₁ : UInt64
  resources₂ : UInt64

/-- The fields in memory: integers start at a multiple of four and doubles at a multiple of eight,
so two bytes are left free before the integers and four before the doubles. -/
def lookup_key_t.bytes (k : lookup_key_t) : List UInt8 :=
  k.function_name ++ (List.replicate 2 0 ++ (arrayBytes 4 (k.int_params.map UInt32.toNat) ++
    (List.replicate 4 0 ++ arrayBytes 8 (k.double_params.map UInt64.toNat))))

/-- The sum of the sizes of the fields. -/
def keylen : ℕ :=
  maxFunctionName * 1 + maxIntParams * 4 + maxDoubleParams * 8

/-- The bytes that the table compares. -/
def lookup_key_t.key (k : lookup_key_t) : List UInt8 :=
  k.bytes.take keylen

/-- The fields, set to zero and then copied into. -/
def Invocation.lookup_key (f : Invocation) : lookup_key_t where
  function_name := padded maxFunctionName 0 f.function_name
  int_params := padded maxIntParams 0 f.int_params
  double_params := padded maxDoubleParams 0 f.double_params

/-- The entry for a module with its parameters. -/
def find_memo (memos : List hash_entry_t) (f : Invocation) : Option hash_entry_t :=
  memos.find? fun memo ↦ memo.key = f.lookup_key.key

/-- A new entry. -/
def add_memo (memos : List hash_entry_t) (f : Invocation) (resources₀ : UInt64) :
    List hash_entry_t :=
  memos ++ [⟨f.lookup_key, resources₀, UInt64.ofNat f.int_params.length,
    UInt64.ofNat f.double_params.length⟩]

/-- The first call with a module and parameters creates an entry, and every later one adds to
`resources[0]` of the entry found. -/
def addInvocations (memos : List hash_entry_t) (f : Invocation) (n : UInt64) : List hash_entry_t :=
  match find_memo memos f with
  | none => add_memo memos f n
  | some _ => memos.map fun memo ↦
      if memo.key = f.lookup_key.key then { memo with resources₀ := memo.resources₀ + n } else memo

/-! ## The instrumented functions -/

/-- The table and the stack. -/
structure State where
  memos : List hash_entry_t
  stack : resourcesStack_t

/-- A call of a module, repeated `rep` times, counts as many times as the calls around it say. -/
def memoize (s : State) (f : Invocation) (rep : UInt32) : Option State :=
  if ¬ f.Fits then none
  else
    let memos := addInvocations s.memos f (rep.toUInt64 * accumulativeMult s.stack)
    (stackPush s.stack rep).map fun stack ↦ ⟨memos, stack⟩

/-- The last repeat count is taken off the stack. -/
def exit_scope (s : State) : Option State :=
  (stackPop s.stack).map fun stack ↦ { s with stack := stack }

/-- The entry of the main module. -/
def mainInvocation : Invocation where
  function_name := "main                           ".toList.map fun c ↦ UInt8.ofNat c.toNat
  int_params := []
  double_params := []
  cstring := by decide

/-- The main module is executed once. -/
def qasm_initialize : Option State :=
  (stackPush (stackInit maxCallDepth) 1).map fun stack ↦ ⟨add_memo [] mainInvocation 1, stack⟩

/-- What an instrumented program does. -/
inductive Event
  | memoize (f : Invocation) (rep : UInt32)
  | exit_scope
  deriving DecidableEq

/-- One event. -/
def step (s : State) : Event → Option State
  | .memoize f rep => memoize s f rep
  | .exit_scope => exit_scope s

/-- A sequence of events. -/
def runFrom (s : State) : List Event → Option State
  | [] => some s
  | e :: es => (step s e).bind fun s ↦ runFrom s es

def run (es : List Event) : Option State :=
  qasm_initialize.bind fun s ↦ runFrom s es

end ScaffCC.Frequency
