import Mathlib.Data.List.FinRange
import Mathlib.Data.Nat.Sqrt
import ScaffCC.Arrange.Placement
import ScaffCC.Memory.Bytes
import ScaffCC.OpenQasm.Print
import ScaffCC.Text.Decimal

/-!
# Arranging a trace

The layout optimiser reads a trace of modules, turns it into the interaction graphs of the modules,
reads these back, places their nodes, and writes the trace again with every qubit replaced by its
place, counted row by row. A file is the list of its lines, each with the line feed at its end.
-/

namespace ScaffCC.Arrange

open OpenQasm (Word find)

/-! ## The source -/

/-- A number in decimal. -/
def str (n : ℕ) : Word := Nat.toDigits 10 n

/-- The number that a token is, whitespace at its end aside. -/
def int (w : Word) : Option ℕ :=
  let digits := w.takeWhile Char.isDigit
  if digits.isEmpty ∨ (w.dropWhile Char.isDigit).any (!·.isWhitespace) then none
  else some (Nat.ofDigitChars 10 digits 0)

/-- The graphs of a trace, with the number of nodes that was read last. -/
def traceToGraph (numNodes : Option ℕ) : List Word → Option (List Word)
  | [] => some []
  | line :: lines =>
    let tokens := line.splitOn ' '
    if "module:".toList.isPrefixOf line then do
      let moduleName ← tokens[1]?
      let graph ← traceToGraph numNodes lines
      return ("module: ".toList ++ moduleName) :: graph
    else if "num_nodes:".toList.isPrefixOf line then do
      let n ← tokens[1]?.bind int
      let graph ← traceToGraph (some n) lines
      return (str n ++ ['\n']) :: graph
    -- the header lines and the gates on one qubit are skipped
    else if !"ID:".toList.isPrefixOf line || !find "DST:".toList line then
      traceToGraph numNodes lines
    else do
      guard (tokens[4]?.any "SRC:".toList.isPrefixOf)
      guard (tokens[6]?.any "DST:".toList.isPrefixOf)
      let src ← tokens[5]?.bind int
      let dst ← tokens[7]?.bind int
      let n ← numNodes
      guard (src < n)
      guard (dst < n)
      let graph ← traceToGraph numNodes lines
      return (str src ++ ' ' :: (str dst ++ ['\n'])) :: graph

/-- What is known of a module: its nodes and its rectangle. -/
structure Entry where
  name : Word
  nodes : List Node
  tl : Point
  br : Point
deriving DecidableEq

/-- Where the reader of the graphs stands: before the first module, at the number of nodes of a
module, or among its edges. -/
inductive Reader
  | start
  | head (name : Word)
  | body (e : Entry)

/-- The side of the smallest square with room for the nodes. -/
def squareSize (n : ℕ) : ℕ :=
  if n.sqrt * n.sqrt = n then n.sqrt else n.sqrt + 1

def addEdge (src dst : ℕ) (nodes : List Node) : Option (List Node) :=
  let add (src dst : ℕ) (nodes : List Node) : List Node :=
    nodes.modify src fun node ↦ { node with weights := node.weights.modify dst (· + 1) }
  if src < nodes.length ∧ dst < nodes.length then some (add dst src (add src dst nodes)) else none

/-- A module is saved, over the one of the same name. -/
def save (dic : List Entry) (e : Entry) : List Entry :=
  if e.name.isEmpty then dic else e :: dic.filter fun e' ↦ decide (e'.name ≠ e.name)

/-- The modules of the graphs. -/
def parser (dic : List Entry) : Reader → List Word → Option (List Entry)
  | .body e, [] => some (save dic e)
  | _, [] => none
  | .head name, line :: lines => do
    let n ← int line
    let size : ℤ := squareSize n
    parser dic (.body
      { name
        nodes := (List.range n).map fun i ↦ ⟨i, List.replicate n 0⟩
        tl := ⟨0, 0⟩
        br := ⟨size - 1, size - 1⟩ }) lines
  | st, line :: lines =>
    let tokens := line.splitOn ' '
    if "module:".toList.isPrefixOf line then do
      let name ← tokens[1]?
      match st with
      | .body e => parser (save dic e) (.head name) lines
      | _ => parser dic (.head name) lines
    else do
      guard (tokens.length = 2)
      let src ← tokens[0]?.bind int
      let dst ← tokens[1]?.bind int
      match st with
      | .body e => do
        let nodes ← addEdge src dst e.nodes
        parser dic (.body { e with nodes }) lines
      | _ => none

/-- The nodes of a module row by row. -/
def mapping (e : Entry) (locations : List (Node × Point)) : List ℕ :=
  (range 0 (e.br.y + 1)).flatMap fun y ↦ (range 0 (e.br.x + 1)).filterMap fun x ↦
    (locations.reverse.find? fun l ↦ decide (l.2 = ⟨x, y⟩)).map fun l ↦ l.1.index

/-- Every key with a number after it gets another number. -/
def sub (key : Word) (repl : Word → Word) : ℕ → List Char → List Char
  | _, [] => []
  | skip + 1, _ :: cs => sub key repl skip cs
  | 0, c :: cs =>
    let number := ((c :: cs).drop key.length).takeWhile Char.isDigit
    if key.isPrefixOf (c :: cs) && !number.isEmpty then
      key ++ repl number ++ sub key repl (key.length + number.length - 1) cs
    else c :: sub key repl 0 cs

/-- The place of a node, as text. -/
def place (d : List (ℕ × ℕ)) (number : Word) : Word :=
  match d.reverse.find? fun p ↦ decide (p.1 = Nat.ofDigitChars 10 number 0) with
  | some p => str p.2
  | none => "SOMETHING WENT WRONG".toList ++ number

/-- The trace with the nodes replaced by their places. -/
def replace (mappingDic : List (Word × List ℕ)) :
    Option (List (ℕ × ℕ)) → List Word → Option (List Word)
  | _, [] => some []
  | d, line :: lines => do
    let d ←
      if "module: ".toList.isPrefixOf line then do
        let moduleName ← (line.splitOn ' ')[1]?
        let entry ← mappingDic.find? fun e ↦ decide (e.1 = moduleName)
        pure (some entry.2.zipIdx)
      else pure d
    if !find "SRC".toList line then do
      let opt ← replace mappingDic d lines
      return line :: opt
    else do
      let places ← d
      let line := sub "SRC: ".toList (place places) 0 line
      let line := sub "DST: ".toList (place places) 0 line
      let opt ← replace mappingDic d lines
      return line :: opt

/-- The modules of a trace and the places of their nodes. -/
def locate (metis : Word → Point → Point → ℕ → Bool) (fuel : ℕ) (lines : List Word) :
    Option (List (Entry × List (Node × Point))) := do
  let graph ← traceToGraph none lines
  let dic ← parser [] .start graph
  dic.mapM fun e ↦ (getLocations (metis e.name) fuel e.nodes e.tl e.br).map (e, ·)

/-- The optimised trace. -/
def arrange (metis : Word → Point → Point → ℕ → Bool) (fuel : ℕ) (lines : List Word) :
    Option (List Word) := do
  let located ← locate metis fuel lines
  replace (located.map fun l ↦ (l.1.name, mapping l.1 l.2)) none lines

/-! ## Traces -/

/-- A gate of a trace, on one or two of `n` qubits. Its type is a word without a colon. -/
structure TrGate (n : ℕ) where
  seq : ℕ
  opType : Word
  src : Fin n
  dst : Option (Fin n)
  blank : ' ' ∉ opType
  colon : ':' ∉ opType

def TrGate.tokens {n : ℕ} (g : TrGate n) : List Word :=
  ["ID:".toList, str g.seq, "TYPE:".toList, g.opType, "SRC:".toList] ++
    match g.dst with
    | none => [str g.src ++ ['\n']]
    | some dst => [str g.src, "DST:".toList, str dst ++ ['\n']]

def TrGate.rename {n : ℕ} (σ : Equiv.Perm (Fin n)) (g : TrGate n) : TrGate n :=
  { g with src := σ g.src, dst := g.dst.map σ }

structure TrModule where
  name : Word
  numNodes : ℕ
  gates : List (TrGate numNodes)
  blank : ' ' ∉ name

def TrModule.lines (m : TrModule) : List Word :=
  ("module: ".toList ++ (m.name ++ ['\n'])) ::
    ("num_nodes: ".toList ++ (str m.numNodes ++ ['\n'])) ::
    m.gates.map fun g ↦ [' '].intercalate g.tokens

def TrModule.rename (σ : (m : TrModule) → Equiv.Perm (Fin m.numNodes)) (m : TrModule) : TrModule :=
  { m with gates := m.gates.map (TrGate.rename (σ m)) }

/-- A trace: modules with different names. -/
structure Trace where
  modules : List TrModule
  nodup : (modules.map TrModule.name).Nodup

def Trace.lines (t : Trace) : List Word :=
  t.modules.flatMap TrModule.lines

def Trace.rename (σ : (m : TrModule) → Equiv.Perm (Fin m.numNodes)) (t : Trace) : Trace where
  modules := t.modules.map (TrModule.rename σ)
  nodup := by
    rw [List.map_map]
    exact t.nodup

/-! ## Words -/

theorem str_ne_nil (n : ℕ) : str n ≠ [] := Nat.toDigits_ne_nil

theorem isDigit_str {n : ℕ} {c : Char} (h : c ∈ str n) : c.isDigit :=
  Nat.isDigit_of_mem_toDigits (by decide) le_rfl h

theorem notMem_str {n : ℕ} {c : Char} (hc : c.isDigit = false) : c ∉ str n := fun h ↦
  Bool.false_ne_true (hc.symm.trans (isDigit_str h))

/-- The digits of a number before something that is not a digit. -/
theorem takeWhile_str (n : ℕ) (cs : List Char) (h : ∀ c ∈ cs.head?, c.isDigit = false) :
    (str n ++ cs).takeWhile Char.isDigit = str n ∧ (str n ++ cs).dropWhile Char.isDigit = cs := by
  have hdigits : ∀ c ∈ str n, c.isDigit := fun c hc ↦ isDigit_str hc
  rw [List.takeWhile_append_of_pos hdigits, List.dropWhile_append_of_pos hdigits]
  cases cs with
  | nil => simp
  | cons c cs =>
    have hc : ¬ c.isDigit := by simpa using h c rfl
    rw [List.takeWhile_cons_of_neg hc, List.dropWhile_cons_of_neg hc]
    simp

private theorem int_str_append (n : ℕ) (cs : List Char)
    (hcs : ∀ c ∈ cs, c.isDigit = false ∧ c.isWhitespace) : int (str n ++ cs) = some n := by
  obtain ⟨htake, hdrop⟩ := takeWhile_str n cs fun c hc ↦
    (hcs c (List.mem_of_mem_head? hc)).1
  have hspace : ¬ ((str n).isEmpty = true ∨ (cs.any fun c ↦ !c.isWhitespace) = true) := by
    rw [List.isEmpty_iff, List.any_eq_true]
    rintro (h | ⟨c, hc, hblack⟩)
    · exact str_ne_nil n h
    · exact absurd (hcs c hc).2 (by simpa using hblack)
  rw [int]
  simp only [htake, hdrop]
  rw [if_neg hspace, str, Nat.ofDigitChars_ten_toDigits]

theorem int_str (n : ℕ) : int (str n) = some n := by
  simpa using int_str_append n [] (by simp)

theorem int_str_newline (n : ℕ) : int (str n ++ ['\n']) = some n :=
  int_str_append n _ (List.forall_mem_singleton.mpr ⟨rfl, rfl⟩)

/-- A fragment without spaces starts a text exactly when it starts its first word. -/
theorem prefix_append_space {w u cs : Word} (hw : ' ' ∉ w) : w <+: u ++ ' ' :: cs ↔ w <+: u := by
  induction w generalizing u with
  | nil => simp
  | cons c w ih =>
    have hc : c ≠ ' ' := fun h ↦ hw (h ▸ List.mem_cons_self)
    cases u with
    | nil => simp [List.cons_prefix_cons, hc]
    | cons d u =>
      rw [List.cons_append, List.cons_prefix_cons, List.cons_prefix_cons,
        ih fun h ↦ hw (List.mem_cons_of_mem _ h)]

theorem find_append_space {w : Word} (hne : w ≠ []) (hw : ' ' ∉ w) (u cs : Word) :
    find w (u ++ ' ' :: cs) = (find w u || find w cs) := by
  induction u with
  | nil =>
    have hhead : w.isPrefixOf (' ' :: cs) = false := by
      rw [Bool.eq_false_iff, Ne, List.isPrefixOf_iff_prefix]
      intro h
      exact hne (List.prefix_nil.mp ((prefix_append_space (u := []) hw).mp h))
    have hnil : find w [] = false := by
      cases w with
      | nil => exact absurd rfl hne
      | cons c w => rfl
    rw [List.nil_append, hnil, find, hhead]
  | cons c u ih =>
    have hhead : w.isPrefixOf (c :: (u ++ ' ' :: cs)) = w.isPrefixOf (c :: u) := by
      rw [Bool.eq_iff_iff, List.isPrefixOf_iff_prefix, List.isPrefixOf_iff_prefix]
      exact prefix_append_space (u := c :: u) hw
    rw [List.cons_append, find, find, hhead, ih, Bool.or_assoc]

/-- A fragment with a character that does not occur is not found. -/
theorem find_eq_false {w : Word} {c : Char} (hc : c ∈ w) {u : Word} (hu : c ∉ u) :
    find w u = false := by
  have hhead : ∀ {u : Word}, c ∉ u → w.isPrefixOf u = false := by
    intro u hu
    rw [Bool.eq_false_iff, Ne, List.isPrefixOf_iff_prefix]
    exact fun h ↦ hu (h.subset hc)
  induction u with
  | nil => exact hhead hu
  | cons d u ih => rw [find, hhead hu, ih fun h ↦ hu (List.mem_cons_of_mem _ h), Bool.false_or]

/-! ## Substitution -/

section Substitution

variable {k : Word} {repl : Word → Word}

theorem prefix_key (hk : ' ' ∉ k) {w cs : Word} (hw : ' ' ∉ w) :
    k ++ [' '] <+: w ++ ' ' :: cs ↔ k = w := by
  constructor
  · rintro ⟨rest, h⟩
    have hword : ∀ {w : Word}, ' ' ∉ w → ∀ cs, (w ++ ' ' :: cs).takeWhile (· ≠ ' ') = w := by
      intro w hw cs
      have hplain : ∀ c ∈ w, decide (c ≠ ' ') = true := by
        intro c hc
        simp only [decide_eq_true_eq]
        rintro rfl
        exact hw hc
      exact (Text.takeWhile_append_cons (p := (· ≠ ' ')) hplain (by decide)).1
    rw [List.append_assoc, List.singleton_append] at h
    rw [← hword hk rest, h, hword hw]
  · rintro rfl
    exact ⟨cs, by simp⟩

private theorem sub_cons {key : Word} {c : Char} {cs : Word} (h : ¬ key <+: c :: cs) :
    sub key repl 0 (c :: cs) = c :: sub key repl 0 cs := by
  rw [← List.isPrefixOf_iff_prefix, Bool.not_eq_true] at h
  rw [sub, h, Bool.false_and]
  exact if_neg Bool.false_ne_true

theorem sub_skip (key : Word) (n : ℕ) (cs : List Char) :
    sub key repl n cs = sub key repl 0 (cs.drop n) := by
  induction cs generalizing n with
  | nil => cases n <;> rfl
  | cons c cs ih =>
    cases n with
    | zero => rfl
    | succ n => rw [sub, ih, List.drop_succ_cons]

theorem sub_word (hk : ' ' ∉ k) {w : Word} (hw : ' ' ∉ w) (hend : ¬ k <:+ w) (cs : List Char) :
    sub (k ++ [' ']) repl 0 (w ++ ' ' :: cs) = w ++ ' ' :: sub (k ++ [' ']) repl 0 cs := by
  have hkey : ¬ k ++ [' '] <+: w ++ ' ' :: cs := by
    rw [prefix_key hk hw]
    rintro rfl
    exact hend (List.suffix_refl _)
  induction w with
  | nil => exact sub_cons hkey
  | cons c w ih =>
    have hw' : ' ' ∉ w := fun h ↦ hw (List.mem_cons_of_mem _ h)
    have hend' : ¬ k <:+ w := fun h ↦ hend (h.trans (List.suffix_cons _ _))
    have hkey' : ¬ k ++ [' '] <+: w ++ ' ' :: cs := by
      rw [prefix_key hk hw']
      rintro rfl
      exact hend' (List.suffix_refl _)
    rw [List.cons_append] at hkey ⊢
    rw [sub_cons hkey, ih hw' hend' hkey', List.cons_append]

theorem sub_last {w : Word} (hw : ' ' ∉ w) : sub (k ++ [' ']) repl 0 w = w := by
  induction w with
  | nil => rfl
  | cons c w ih =>
    rw [sub_cons, ih fun h ↦ hw (List.mem_cons_of_mem _ h)]
    intro h
    exact hw (h.subset (List.mem_append_right _ (List.mem_singleton_self _)))

theorem sub_number (hne : k ≠ []) (n : ℕ) {cs : List Char}
    (hcs : ∀ c ∈ cs.head?, c.isDigit = false) :
    sub (k ++ [' ']) repl 0 (k ++ ' ' :: (str n ++ cs)) =
      k ++ ' ' :: (repl (str n) ++ sub (k ++ [' ']) repl 0 cs) := by
  obtain ⟨c, w, rfl⟩ := List.exists_cons_of_ne_nil hne
  have htext : (c :: w) ++ ' ' :: (str n ++ cs) = (c :: w ++ [' ']) ++ (str n ++ cs) := by simp
  have hnumber : (((c :: w) ++ ' ' :: (str n ++ cs)).drop (c :: w ++ [' ']).length).takeWhile
      Char.isDigit = str n := by
    rw [htext, List.drop_left, (takeWhile_str n _ hcs).1]
  have hprefix : (c :: w ++ [' ']).isPrefixOf ((c :: w) ++ ' ' :: (str n ++ cs)) = true := by
    rw [List.isPrefixOf_iff_prefix, htext]
    exact List.prefix_append _ _
  have hsome : (str n).isEmpty = false := by
    rw [Bool.eq_false_iff, Ne, List.isEmpty_iff]
    exact str_ne_nil n
  have hskip : ((c :: w ++ [' ']).length + (str n).length - 1) = (w ++ ' ' :: str n).length := by
    simp
    omega
  have hrest : (w ++ ' ' :: (str n ++ cs)).drop (w ++ ' ' :: str n).length = cs := by
    rw [show w ++ ' ' :: (str n ++ cs) = (w ++ ' ' :: str n) ++ cs by simp, List.drop_left]
  simp only [List.cons_append] at hnumber hprefix hskip ⊢
  rw [sub]
  simp only [hnumber, hprefix, hsome, Bool.not_false, Bool.and_self, if_true]
  rw [sub_skip, hskip, hrest]
  simp

end Substitution

/-! ## The lines of a trace -/

theorem splitOn_pair {u w : Word} (hu : ' ' ∉ u) (hw : ' ' ∉ w) :
    (u ++ ' ' :: w).splitOn ' ' = [u, w] := by
  rw [List.splitOn_append_cons_self_of_not_mem hu, List.splitOn_eq_singleton hw]

section Lines

variable {n : ℕ} (g : TrGate n)

def TrGate.line : Word := [' '].intercalate g.tokens

theorem TrGate.notMem_tokens : ∀ w ∈ g.tokens, ' ' ∉ w := by
  have hstr : ∀ m : ℕ, ' ' ∉ str m := fun m ↦ notMem_str rfl
  have hend : ∀ m : ℕ, ' ' ∉ str m ++ ['\n'] := fun m h ↦
    (List.mem_append.mp h).elim (hstr m) (by simp)
  intro w hw
  rw [TrGate.tokens] at hw
  cases hdst : g.dst with
  | none =>
    simp only [hdst, List.mem_append, List.mem_cons, List.not_mem_nil, or_false] at hw
    rcases hw with (rfl | rfl | rfl | rfl | rfl) | rfl
    exacts [by simp, hstr _, by simp, g.blank, by simp, hend _]
  | some dst =>
    simp only [hdst, List.mem_append, List.mem_cons, List.not_mem_nil, or_false] at hw
    rcases hw with (rfl | rfl | rfl | rfl | rfl) | rfl | rfl | rfl
    exacts [by simp, hstr _, by simp, g.blank, by simp, hstr _, by simp, hend _]

theorem TrGate.splitOn_line : g.line.splitOn ' ' = g.tokens :=
  List.splitOn_intercalate ' ' g.notMem_tokens (List.append_ne_nil_of_left_ne_nil
    (List.cons_ne_nil _ _) _)

theorem TrGate.line_eq : g.line = "ID:".toList ++ ' ' :: (str g.seq ++ ' ' :: ("TYPE:".toList ++
    ' ' :: (g.opType ++ ' ' :: ("SRC:".toList ++ ' ' :: (str g.src ++
      match g.dst with
      | none => ['\n']
      | some dst => ' ' :: ("DST:".toList ++ ' ' :: (str dst ++ ['\n']))))))) := by
  rw [TrGate.line, TrGate.tokens]
  cases g.dst <;> simp [List.intercalate]

theorem TrGate.find_line :
    find "SRC".toList g.line = true ∧ find "DST:".toList g.line = g.dst.isSome := by
  have hsrc : ∀ u cs, find "SRC".toList (u ++ ' ' :: cs) =
      (find "SRC".toList u || find "SRC".toList cs) :=
    find_append_space (by decide) (by decide)
  have hdst : ∀ u cs, find "DST:".toList (u ++ ' ' :: cs) =
      (find "DST:".toList u || find "DST:".toList cs) :=
    find_append_space (by decide) (by decide)
  have hcolon : ∀ {u : Word}, ':' ∉ u → find "DST:".toList u = false := find_eq_false (by decide)
  have hnum : ∀ m : ℕ, ':' ∉ str m := fun m ↦ notMem_str rfl
  rw [g.line_eq]
  constructor
  · rw [hsrc, hsrc, hsrc, hsrc, hsrc, show find "SRC".toList "SRC:".toList = true from rfl]
    simp only [Bool.true_or, Bool.or_true]
  · rw [hdst, hdst, hdst, hdst, hdst, hcolon (hnum g.seq), hcolon g.colon,
      show find "DST:".toList "ID:".toList = false from rfl,
      show find "DST:".toList "TYPE:".toList = false from rfl,
      show find "DST:".toList "SRC:".toList = false from rfl]
    simp only [Bool.false_or]
    cases g.dst with
    | none =>
      refine hcolon fun h ↦ ?_
      rcases List.mem_append.mp h with h | h
      · exact hnum _ h
      · exact absurd h (by simp)
    | some dst =>
      change find "DST:".toList (str g.src ++ ' ' :: _) = true
      rw [hdst, hdst, show find "DST:".toList "DST:".toList = true from rfl]
      simp only [Bool.true_or, Bool.or_true]

theorem TrGate.prefix_line : "ID:".toList.isPrefixOf g.line = true ∧
    "module:".toList.isPrefixOf g.line = false ∧
    "num_nodes:".toList.isPrefixOf g.line = false ∧
    "module: ".toList.isPrefixOf g.line = false := by
  rw [g.line_eq]
  exact ⟨rfl, rfl, rfl, rfl⟩

private theorem TrGate.sub_head {k : Word} (repl : Word → Word) (hk : ' ' ∉ k) (hcolon : ':' ∈ k)
    (hid : ¬ k <:+ "ID:".toList) (htype : ¬ k <:+ "TYPE:".toList) (cs : List Char) :
    sub (k ++ [' ']) repl 0 ("ID:".toList ++ ' ' :: (str g.seq ++ ' ' :: ("TYPE:".toList ++
      ' ' :: (g.opType ++ ' ' :: cs)))) =
    "ID:".toList ++ ' ' :: (str g.seq ++ ' ' :: ("TYPE:".toList ++
      ' ' :: (g.opType ++ ' ' :: sub (k ++ [' ']) repl 0 cs))) := by
  have hnum : ':' ∉ str g.seq := notMem_str rfl
  rw [sub_word hk (by simp) hid, sub_word hk (notMem_str rfl) fun h ↦ hnum (h.subset hcolon),
    sub_word hk (by simp) htype, sub_word hk g.blank fun h ↦ g.colon (h.subset hcolon)]

/-- **The line of a gate with its numbers replaced.** -/
theorem TrGate.sub_line {repl : Word → Word} {f : Fin n → Fin n}
    (hrepl : ∀ i : Fin n, repl (str i) = str (f i)) :
    sub "DST: ".toList repl 0 (sub "SRC: ".toList repl 0 g.line) =
      TrGate.line { g with src := f g.src, dst := g.dst.map f } := by
  have hsrc : ∀ cs, sub "SRC: ".toList repl 0 cs = sub ("SRC:".toList ++ [' ']) repl 0 cs :=
    fun _ ↦ rfl
  have hdst : ∀ cs, sub "DST: ".toList repl 0 cs = sub ("DST:".toList ++ [' ']) repl 0 cs :=
    fun _ ↦ rfl
  have hend : ∀ m : ℕ, ' ' ∉ str m ++ ['\n'] := fun m h ↦
    (List.mem_append.mp h).elim (notMem_str rfl) (by simp)
  have hlast : ∀ k : Word, sub (k ++ [' ']) repl 0 ['\n'] = ['\n'] := fun k ↦
    sub_last (List.not_mem_cons_of_ne_of_not_mem (by decide) List.not_mem_nil)
  rw [hsrc, hdst, g.line_eq, TrGate.line_eq]
  rw [g.sub_head repl (by simp) (by simp) (by decide) (by decide)]
  cases hg : g.dst with
  | none =>
    simp only [Option.map_none]
    rw [sub_number (by simp) _ (by simp), hrepl, hlast,
      g.sub_head repl (by simp) (by simp) (by decide) (by decide),
      sub_word (by simp) (by simp) (by decide), sub_last (hend _)]
  | some dst =>
    have hnum : ':' ∉ str (f g.src) := notMem_str rfl
    simp only [Option.map_some]
    have htail : sub ("SRC:".toList ++ [' ']) repl 0
        (' ' :: ("DST:".toList ++ ' ' :: (str dst ++ ['\n']))) =
        ' ' :: ("DST:".toList ++ ' ' :: (str dst ++ ['\n'])) := by
      have hkey : ' ' ∉ "SRC:".toList := by simp
      have hempty : sub ("SRC:".toList ++ [' ']) repl 0 _ = _ := sub_word hkey List.not_mem_nil
        (by decide) ("DST:".toList ++ ' ' :: (str dst ++ ['\n']))
      rw [List.nil_append] at hempty
      rw [hempty, sub_word (by simp) (by simp) (by decide), sub_last (hend _), List.nil_append]
    rw [sub_number (by simp) _ (by simp), hrepl, htail]
    rw [g.sub_head repl (by simp) (by simp) (by decide) (by decide),
      sub_word (by simp) (by simp) (by decide),
      sub_word (by simp) (notMem_str rfl) fun h ↦ hnum (h.subset (by simp)),
      sub_number (by simp) _ (by simp), hrepl, hlast]

end Lines

/-! ## The graphs of a trace -/

def edges {n : ℕ} (gates : List (TrGate n)) : List (Fin n × Fin n) :=
  gates.filterMap fun g ↦ g.dst.map (g.src, ·)

def edgeLine (src dst : ℕ) : Word :=
  str src ++ ' ' :: (str dst ++ ['\n'])

def TrModule.graph (m : TrModule) : List Word :=
  ("module: ".toList ++ (m.name ++ ['\n'])) :: (str m.numNodes ++ ['\n']) ::
    (edges m.gates).map fun e ↦ edgeLine e.1 e.2

theorem notMem_newline {w : Word} (hw : ' ' ∉ w) : ' ' ∉ w ++ ['\n'] := fun h ↦
  (List.mem_append.mp h).elim hw (by simp)

theorem splitOn_module {name : Word} (h : ' ' ∉ name) :
    ("module: ".toList ++ (name ++ ['\n'])).splitOn ' ' = ["module:".toList, name ++ ['\n']] :=
  splitOn_pair (u := "module:".toList) (by simp) (notMem_newline h)

theorem splitOn_numNodes (n : ℕ) :
    ("num_nodes: ".toList ++ (str n ++ ['\n'])).splitOn ' ' =
      ["num_nodes:".toList, str n ++ ['\n']] :=
  splitOn_pair (u := "num_nodes:".toList) (by simp) (notMem_newline (notMem_str rfl))

theorem traceToGraph_gates {n : ℕ} (gates : List (TrGate n)) (rest : List Word) :
    traceToGraph (some n) (gates.map TrGate.line ++ rest) =
      (traceToGraph (some n) rest).map (((edges gates).map fun e ↦ edgeLine e.1 e.2) ++ ·) := by
  induction gates with
  | nil => simp [edges]
  | cons g gates ih =>
    obtain ⟨hid, hmodule, hnum, -⟩ := g.prefix_line
    have hdst := g.find_line.2
    rw [List.map_cons, List.cons_append, traceToGraph]
    simp only [hid, hmodule, hnum, hdst, g.splitOn_line, Bool.false_eq_true, if_false]
    cases hg : g.dst with
    | none =>
      simp only [Option.isSome_none, Bool.not_false, Bool.or_true, if_true, ih]
      simp [edges, hg]
    | some dst =>
      simp only [hg, Option.isSome_some, Bool.not_true, Bool.or_self, Bool.false_eq_true, if_false,
        TrGate.tokens, ih]
      cases h : traceToGraph (some n) rest <;>
        simp [edges, hg, int_str, int_str_newline, edgeLine, guard]

theorem traceToGraph_head {name : Word} (hname : ' ' ∉ name) (n : ℕ) (q : Option ℕ)
    (rest : List Word) :
    traceToGraph q (("module: ".toList ++ (name ++ ['\n'])) ::
      ("num_nodes: ".toList ++ (str n ++ ['\n'])) :: rest) =
    (traceToGraph (some n) rest).map fun graph ↦
      ("module: ".toList ++ (name ++ ['\n'])) :: (str n ++ ['\n']) :: graph := by
  have hmodule : ∀ w : Word, "module:".toList.isPrefixOf ("module: ".toList ++ w) = true :=
    fun _ ↦ rfl
  have hother : ∀ w : Word, ¬ "module:".toList.isPrefixOf ("num_nodes: ".toList ++ w) = true :=
    fun _ ↦ Bool.false_ne_true
  have hnum : ∀ w : Word, "num_nodes:".toList.isPrefixOf ("num_nodes: ".toList ++ w) = true :=
    fun _ ↦ rfl
  rw [traceToGraph, splitOn_module hname, if_pos (hmodule _), traceToGraph, splitOn_numNodes,
    if_neg (hother _), if_pos (hnum _)]
  simp only [List.getElem?_cons_succ, List.getElem?_cons_zero, Option.bind_some, int_str_newline,
    Option.bind_eq_bind, Option.pure_def]
  cases traceToGraph (some n) rest <;> rfl

theorem traceToGraph_module (m : TrModule) (q : Option ℕ) (rest : List Word) :
    traceToGraph q (m.lines ++ rest) =
      (traceToGraph (some m.numNodes) rest).map (m.graph ++ ·) := by
  rw [TrModule.lines, List.cons_append, List.cons_append, traceToGraph_head m.blank]
  change (traceToGraph (some m.numNodes) (m.gates.map TrGate.line ++ rest)).map _ = _
  rw [traceToGraph_gates, Option.map_map]
  rfl

/-- **The graphs of a trace.** -/
theorem traceToGraph_lines (ms : List TrModule) (q : Option ℕ) :
    traceToGraph q (ms.flatMap TrModule.lines) = some (ms.flatMap TrModule.graph) := by
  induction ms generalizing q with
  | nil => rfl
  | cons m ms ih =>
    rw [List.flatMap_cons, traceToGraph_module, ih, List.flatMap_cons, Option.map_some]

/-! ## Reading the graphs -/

/-- What is known of a module of the trace. -/
structure Reads (e : Entry) (m : TrModule) : Prop where
  name : e.name = m.name ++ ['\n']
  nodes : e.nodes.map Node.index = List.range m.numNodes
  tl : e.tl = ⟨0, 0⟩
  br : e.br = ⟨squareSize m.numNodes - 1, squareSize m.numNodes - 1⟩

theorem addEdge_eq {nodes : List Node} {src dst : ℕ} (hsrc : src < nodes.length)
    (hdst : dst < nodes.length) :
    ∃ nodes', addEdge src dst nodes = some nodes' ∧
      nodes'.map Node.index = nodes.map Node.index := by
  refine ⟨_, if_pos ⟨hsrc, hdst⟩, ?_⟩
  have hmodify : ∀ (nodes : List Node) (i j : ℕ), (nodes.modify i fun node ↦
      { node with weights := node.weights.modify j (· + 1) }).map Node.index =
        nodes.map Node.index := by
    intro nodes i j
    refine List.ext_getElem (by simp) fun k hk hk' ↦ ?_
    simp only [List.getElem_map, List.getElem_modify]
    split_ifs <;> rfl
  rw [hmodify, hmodify]

theorem parser_edge (dic : List Entry) {e : Entry} {m : TrModule} (h : Reads e m)
    (src dst : Fin m.numNodes) (rest : List Word) :
    ∃ e', Reads e' m ∧
      parser dic (.body e) (edgeLine src dst :: rest) = parser dic (.body e') rest := by
  have hlen : e.nodes.length = m.numNodes := by
    rw [← List.length_map Node.index, h.nodes, List.length_range]
  have hsrc : src < e.nodes.length := src.isLt.trans_eq hlen.symm
  have hdst : dst < e.nodes.length := dst.isLt.trans_eq hlen.symm
  obtain ⟨nodes, hadd, hindex⟩ := addEdge_eq hsrc hdst
  refine ⟨{ e with nodes }, ⟨h.name, hindex.trans h.nodes, h.tl, h.br⟩, ?_⟩
  have htokens : (edgeLine src dst).splitOn ' ' = [str src, str dst ++ ['\n']] :=
    splitOn_pair (notMem_str rfl) (notMem_newline (notMem_str rfl))
  have hline : ¬ "module:".toList.isPrefixOf (edgeLine src dst) = true := by
    rw [List.isPrefixOf_iff_prefix]
    intro hprefix
    have hcolon : ':' ∈ edgeLine src dst := hprefix.subset (by simp)
    have hnum : ∀ n : ℕ, ':' ∉ str n := fun _ ↦ notMem_str rfl
    simp [edgeLine, hnum] at hcolon
  rw [parser, htokens, if_neg hline]
  · simp [int_str, int_str_newline, hadd, guard]
  · exact fun _ h ↦ nomatch h

theorem parser_edges (dic : List Entry) {e : Entry} {m : TrModule} (h : Reads e m)
    (es : List (Fin m.numNodes × Fin m.numNodes)) (rest : List Word) :
    ∃ e', Reads e' m ∧ parser dic (.body e) ((es.map fun p ↦ edgeLine p.1 p.2) ++ rest) =
      parser dic (.body e') rest := by
  induction es generalizing e with
  | nil => exact ⟨e, h, rfl⟩
  | cons p es ih =>
    obtain ⟨e', h', heq⟩ := parser_edge dic h p.1 p.2 ((es.map fun p ↦ edgeLine p.1 p.2) ++ rest)
    obtain ⟨e'', h'', heq'⟩ := ih h'
    exact ⟨e'', h'', heq.trans heq'⟩

/-- The number of nodes of a module, and its edges. -/
theorem parser_head (dic : List Entry) (m : TrModule) (rest : List Word) :
    ∃ e, Reads e m ∧ parser dic (.head (m.name ++ ['\n'])) ((str m.numNodes ++ ['\n']) ::
      (edges m.gates).map (fun p ↦ edgeLine p.1 p.2) ++ rest) = parser dic (.body e) rest := by
  obtain ⟨e, h, heq⟩ := parser_edges (m := m) (e :=
    { name := m.name ++ ['\n']
      nodes := (List.range m.numNodes).map fun i ↦ ⟨i, List.replicate m.numNodes 0⟩
      tl := ⟨0, 0⟩
      br := ⟨squareSize m.numNodes - 1, squareSize m.numNodes - 1⟩ }) dic
    ⟨rfl, by simp [Function.comp_def], rfl, rfl⟩ (edges m.gates) rest
  refine ⟨e, h, ?_⟩
  rw [List.cons_append, parser, int_str_newline]
  exact heq

theorem parser_module (dic : List Entry) (e : Entry) (m : TrModule) (rest : List Word) :
    ∃ e', Reads e' m ∧
      parser dic (.body e) (m.graph ++ rest) = parser (save dic e) (.body e') rest := by
  obtain ⟨e', h', heq⟩ := parser_head (save dic e) m rest
  refine ⟨e', h', ?_⟩
  have hmodule : ∀ w : Word, "module:".toList.isPrefixOf ("module: ".toList ++ w) = true :=
    fun _ ↦ rfl
  rw [TrModule.graph, List.cons_append, parser, splitOn_module m.blank, if_pos (hmodule _)]
  · exact heq
  · exact fun _ h ↦ nomatch h

theorem save_eq {dic : List Entry} {e : Entry} {m : TrModule} (h : Reads e m)
    (hname : e.name ∉ dic.map Entry.name) : save dic e = e :: dic := by
  have hne : e.name.isEmpty = false := by
    rw [h.name, Bool.eq_false_iff, Ne, List.isEmpty_iff]
    simp
  rw [save, hne]
  simp only [Bool.false_eq_true, if_false]
  rw [List.filter_eq_self.mpr]
  intro e' he'
  refine decide_eq_true fun heq ↦ hname ?_
  rw [← heq]
  exact List.mem_map_of_mem he'

theorem names_eq {dic : List Entry} {ms : List TrModule} (h : List.Forall₂ Reads dic ms) :
    dic.map Entry.name = (ms.map TrModule.name).map (· ++ ['\n']) := by
  induction h with
  | nil => rfl
  | cons h _ ih => rw [List.map_cons, ih, h.name, List.map_cons, List.map_cons]

theorem nodup_names {dic : List Entry} {ms : List TrModule} (h : List.Forall₂ Reads dic ms)
    (hnodup : (ms.map TrModule.name).Nodup) : (dic.map Entry.name).Nodup := by
  rw [names_eq h]
  exact hnodup.map (List.append_left_injective ['\n'])

private theorem parser_modules {ms seen : List TrModule} {m : TrModule} {dic : List Entry}
    {e : Entry} (h : Reads e m) (hdic : List.Forall₂ Reads dic seen)
    (hnodup : ((ms.reverse ++ m :: seen).map TrModule.name).Nodup) :
    ∃ dic', parser dic (.body e) (ms.flatMap TrModule.graph) = some dic' ∧
      List.Forall₂ Reads dic' (ms.reverse ++ m :: seen) := by
  induction ms generalizing m seen dic e with
  | nil =>
    have hsave := save_eq h (List.nodup_cons.mp (nodup_names (.cons h hdic) hnodup)).1
    exact ⟨e :: dic, by rw [List.flatMap_nil, parser, hsave], .cons h hdic⟩
  | cons m' ms ih =>
    rw [List.reverse_cons, List.append_assoc, List.singleton_append] at hnodup ⊢
    have hseen : ((m :: seen).map TrModule.name).Nodup := by
      refine hnodup.sublist (List.Sublist.map _ ?_)
      exact (List.sublist_cons_self m' _).trans (List.sublist_append_right _ _)
    have hsave := save_eq h (List.nodup_cons.mp (nodup_names (.cons h hdic) hseen)).1
    obtain ⟨e', h', heq⟩ := parser_module dic e m' (ms.flatMap TrModule.graph)
    obtain ⟨dic', heq', hdic'⟩ := ih h' (.cons h hdic) hnodup
    exact ⟨dic', by rw [List.flatMap_cons, heq, hsave, heq'], hdic'⟩

/-- **All modules are read.** -/
theorem parser_graph {ms : List TrModule} (hne : ms ≠ [])
    (hnodup : (ms.map TrModule.name).Nodup) :
    ∃ dic, parser [] .start (ms.flatMap TrModule.graph) = some dic ∧
      List.Forall₂ Reads dic ms.reverse := by
  obtain ⟨m, ms, rfl⟩ := List.exists_cons_of_ne_nil hne
  obtain ⟨e, h, heq⟩ := parser_head [] m (ms.flatMap TrModule.graph)
  have hrev : ((ms.reverse ++ [m]).map TrModule.name).Nodup := by
    rw [← List.reverse_cons, List.map_reverse]
    exact List.nodup_reverse.mpr hnodup
  obtain ⟨dic, heq', hdic⟩ := parser_modules h .nil hrev
  refine ⟨dic, ?_, by rwa [List.reverse_cons]⟩
  have hmodule : ∀ w : Word, "module:".toList.isPrefixOf ("module: ".toList ++ w) = true :=
    fun _ ↦ rfl
  rw [List.flatMap_cons, TrModule.graph, List.cons_append, parser, splitOn_module m.blank,
    if_pos (hmodule _)]
  · exact heq.trans heq'
  · exact fun _ h ↦ nomatch h

/-! ## The places -/

theorem le_squareSize (n : ℕ) : n ≤ squareSize n * squareSize n := by
  rw [squareSize]
  split_ifs with h
  · exact h.ge
  · exact (Nat.lt_succ_sqrt n).le

theorem Reads.getLocations {e : Entry} {m : TrModule} (h : Reads e m)
    (metis : Point → Point → ℕ → Bool) {fuel : ℕ} (hfuel : m.numNodes + 1 < fuel) :
    ∃ locations, getLocations metis fuel e.nodes e.tl e.br = some locations ∧
      Placed e.nodes e.tl e.br locations := by
  have hlen : e.nodes.length = m.numNodes := by
    rw [← List.length_map Node.index, h.nodes, List.length_range]
  rw [h.tl, h.br]
  refine getLocations_placed metis (by rwa [hlen]) (by dsimp only; omega) (by dsimp only; omega) ?_
  simp only [sub_add_cancel, hlen]
  exact_mod_cast le_squareSize m.numNodes

private def rows (br : Point) : List Point :=
  (range 0 (br.y + 1)).flatMap fun y ↦ (range 0 (br.x + 1)).map fun x ↦ ⟨x, y⟩

private theorem nodup_rows (br : Point) : (rows br).Nodup := by
  rw [rows, List.nodup_flatMap]
  constructor
  · intro y _
    exact (nodup_range _ _).map fun x x' h ↦ congrArg Point.x h
  · refine (nodup_range _ _).imp fun {y y'} hne p hp hp' ↦ hne ?_
    obtain ⟨x, -, rfl⟩ := List.mem_map.mp hp
    obtain ⟨x', -, h⟩ := List.mem_map.mp hp'
    exact (congrArg Point.y h).symm

private theorem mem_rows {br p : Point} : p ∈ rows br ↔ Point.Inside ⟨0, 0⟩ br p := by
  simp only [rows, List.mem_flatMap, List.mem_map, mem_range, Point.Inside]
  constructor
  · rintro ⟨y, hy, x, hx, rfl⟩
    exact ⟨hx.1, Int.lt_add_one_iff.mp hx.2, hy.1, Int.lt_add_one_iff.mp hy.2⟩
  · rintro ⟨hx₀, hx₁, hy₀, hy₁⟩
    exact ⟨p.y, ⟨hy₀, Int.lt_add_one_iff.mpr hy₁⟩, p.x, ⟨hx₀, Int.lt_add_one_iff.mpr hx₁⟩, rfl⟩

private def nodeAt (locations : List (Node × Point)) (p : Point) : Option (Node × Point) :=
  locations.reverse.find? fun l ↦ decide (l.2 = p)

private theorem nodeAt_eq_some {locations : List (Node × Point)}
    (h : (locations.map Prod.snd).Nodup) {l : Node × Point} {p : Point} :
    nodeAt locations p = some l ↔ l ∈ locations ∧ l.2 = p := by
  constructor
  · intro hl
    have hp := List.find?_some (p := fun l : Node × Point ↦ decide (l.2 = p)) hl
    exact ⟨List.mem_reverse.mp (List.mem_of_find?_eq_some hl), of_decide_eq_true hp⟩
  · rintro ⟨hl, rfl⟩
    have hrev : (locations.reverse.map Prod.snd).Nodup := by
      rw [List.map_reverse]
      exact List.nodup_reverse.mpr h
    exact Memory.find?_key hrev (List.mem_reverse.mpr hl) rfl

theorem mapping_perm {e : Entry} {locations : List (Node × Point)} (htl : e.tl = ⟨0, 0⟩)
    (h : Placed e.nodes e.tl e.br locations) (hindex : (e.nodes.map Node.index).Nodup) :
    (mapping e locations).Perm (e.nodes.map Node.index) := by
  have hperm : (locations.map fun l ↦ l.1.index).Perm (e.nodes.map Node.index) := by
    have hmap := h.perm.map Node.index
    rwa [List.map_map] at hmap
  have hnodup : (locations.map fun l ↦ l.1.index).Nodup := hperm.nodup_iff.mpr hindex
  have hmapping : mapping e locations =
      (rows e.br).filterMap fun p ↦ (nodeAt locations p).map fun l ↦ l.1.index := by
    rw [rows, List.filterMap_flatMap]
    simp only [List.filterMap_map]
    rfl
  refine List.Perm.trans ?_ hperm
  rw [hmapping, List.perm_ext_iff_of_nodup _ hnodup]
  · intro i
    simp only [List.mem_filterMap, Option.map_eq_some_iff, nodeAt_eq_some h.nodup, List.mem_map]
    constructor
    · rintro ⟨p, -, l, ⟨hl, -⟩, rfl⟩
      exact ⟨l, hl, rfl⟩
    · rintro ⟨l, hl, rfl⟩
      exact ⟨l.2, mem_rows.mpr (htl ▸ h.inside l hl), l, ⟨hl, rfl⟩, rfl⟩
  · refine (nodup_rows e.br).filterMap fun p p' i hp hp' ↦ ?_
    obtain ⟨l, hl, rfl⟩ := Option.map_eq_some_iff.mp hp
    obtain ⟨l', hl', heq⟩ := Option.map_eq_some_iff.mp hp'
    obtain ⟨hmem, rfl⟩ := (nodeAt_eq_some h.nodup).mp hl
    obtain ⟨hmem', rfl⟩ := (nodeAt_eq_some h.nodup).mp hl'
    have hkeys : (locations.map fun l : Node × Point ↦ l.1.index).Nodup := hnodup
    rw [Memory.eq_of_key_eq hkeys hmem hmem' heq.symm]

/-! ## The permutation -/

theorem place_eq {items : List ℕ} (h : items.Nodup) {i : ℕ} (hi : i ∈ items) :
    place items.zipIdx (str i) = str (items.idxOf i) := by
  have hmem : (i, items.idxOf i) ∈ items.zipIdx := by
    rw [List.mk_mem_zipIdx_iff_getElem?, List.getElem?_idxOf hi]
  have hkeys : (items.zipIdx.reverse.map Prod.fst).Nodup := by
    rw [List.map_reverse, List.zipIdx_map_fst]
    exact List.nodup_reverse.mpr h
  have hfind := Memory.find?_key hkeys (List.mem_reverse.mpr hmem)
    (k := Nat.ofDigitChars 10 (str i) 0) Nat.ofDigitChars_ten_toDigits.symm
  rw [place, hfind]

/-- **The places are a permutation.** -/
theorem exists_perm {n : ℕ} {items : List ℕ} (h : items.Perm (List.range n)) :
    ∃ σ : Equiv.Perm (Fin n), ∀ i : Fin n, place items.zipIdx (str i) = str (σ i) := by
  have hnodup : items.Nodup := h.nodup_iff.mpr List.nodup_range
  have hmem : ∀ i : Fin n, (i : ℕ) ∈ items := fun i ↦
    h.mem_iff.mpr (List.mem_range.mpr i.isLt)
  have hlt : ∀ i : Fin n, items.idxOf (i : ℕ) < n := fun i ↦ by
    have hidx := List.idxOf_lt_length_of_mem (hmem i)
    rwa [h.length_eq, List.length_range] at hidx
  have hinj : Function.Injective fun i : Fin n ↦ (⟨items.idxOf (i : ℕ), hlt i⟩ : Fin n) := by
    intro i j hij
    exact Fin.ext ((List.idxOf_inj (hmem i)).mp (congrArg Fin.val hij))
  refine ⟨Equiv.ofBijective _ (Finite.injective_iff_bijective.mp hinj), fun i ↦ ?_⟩
  exact place_eq hnodup (hmem i)

/-! ## The optimised trace -/

theorem replace_gates (mappingDic : List (Word × List ℕ)) {n : ℕ} {d : List (ℕ × ℕ)}
    {σ : Equiv.Perm (Fin n)} (hd : ∀ i : Fin n, place d (str i) = str (σ i))
    (gates : List (TrGate n)) (rest : List Word) :
    replace mappingDic (some d) (gates.map TrGate.line ++ rest) =
      (replace mappingDic (some d) rest).map
        (((gates.map (TrGate.rename σ)).map TrGate.line) ++ ·) := by
  induction gates with
  | nil => simp
  | cons g gates ih =>
    obtain ⟨-, -, -, hmodule⟩ := g.prefix_line
    rw [List.map_cons, List.cons_append, replace]
    simp only [hmodule, g.find_line.1, g.sub_line hd, ih, Bool.false_eq_true, if_false,
      Bool.not_true, pure, Option.bind_eq_bind, Option.bind_some]
    cases replace mappingDic (some d) rest <;> rfl

/-- A line whose words are no keys is written as it is. -/
theorem sub_module {name : Word} (hname : ' ' ∉ name) (repl : Word → Word) :
    sub "DST: ".toList repl 0 (sub "SRC: ".toList repl 0 ("module: ".toList ++ (name ++ ['\n']))) =
      "module: ".toList ++ (name ++ ['\n']) := by
  have hline : ∀ {k : Word}, ' ' ∉ k → ¬ k <:+ "module:".toList →
      sub (k ++ [' ']) repl 0 ("module:".toList ++ ' ' :: (name ++ ['\n'])) =
        "module:".toList ++ ' ' :: (name ++ ['\n']) := by
    intro k hk hend
    rw [sub_word hk (by simp) hend, sub_last (notMem_newline hname)]
  have hsrc := hline (k := "SRC:".toList) (by simp) (by decide)
  have hdst := hline (k := "DST:".toList) (by simp) (by decide)
  exact (congrArg _ hsrc).trans hdst

private theorem replace_other {mappingDic : List (Word × List ℕ)} {line : Word}
    (hmodule : "module: ".toList.isPrefixOf line = false) (hsrc : find "SRC".toList line = false)
    (d : Option (List (ℕ × ℕ))) (lines : List Word) :
    replace mappingDic d (line :: lines) = (replace mappingDic d lines).map (line :: ·) := by
  rw [replace]
  simp only [hmodule, hsrc, Bool.false_eq_true, if_false, Bool.not_false, if_true, pure,
    Option.bind_eq_bind, Option.bind_some]
  cases replace mappingDic d lines <;> rfl

/-- The line that starts a module; its name may have the word in it that is searched for. -/
private theorem replace_name {mappingDic : List (Word × List ℕ)} {name : Word} {items : List ℕ}
    (hname : ' ' ∉ name) (hfind : mappingDic.find? (fun e ↦ decide (e.1 = name ++ ['\n'])) =
      some (name ++ ['\n'], items)) (d : Option (List (ℕ × ℕ))) (lines : List Word) :
    replace mappingDic d (("module: ".toList ++ (name ++ ['\n'])) :: lines) =
      (replace mappingDic (some items.zipIdx) lines).map
        (("module: ".toList ++ (name ++ ['\n'])) :: ·) := by
  have hmodule : ∀ w : Word, "module: ".toList.isPrefixOf ("module: ".toList ++ w) = true :=
    fun _ ↦ rfl
  rw [replace]
  simp only [hmodule, splitOn_module hname, hfind, sub_module hname, if_true,
    List.getElem?_cons_succ, List.getElem?_cons_zero, Option.bind_eq_bind, Option.bind_some, pure]
  cases replace mappingDic (some items.zipIdx) lines <;> exact ite_self _

theorem replace_module {mappingDic : List (Word × List ℕ)} {m : TrModule} {items : List ℕ}
    (hfind : mappingDic.find? (fun e ↦ decide (e.1 = m.name ++ ['\n'])) =
      some (m.name ++ ['\n'], items))
    {σ : (m : TrModule) → Equiv.Perm (Fin m.numNodes)}
    (hσ : ∀ i : Fin m.numNodes, place items.zipIdx (str i) = str (σ m i))
    (d : Option (List (ℕ × ℕ))) (rest : List Word) :
    replace mappingDic d (m.lines ++ rest) =
      (replace mappingDic (some items.zipIdx) rest).map ((m.rename σ).lines ++ ·) := by
  have hnum : find "SRC".toList ("num_nodes: ".toList ++ (str m.numNodes ++ ['\n'])) = false := by
    have hdigit : 'S' ∉ str m.numNodes := notMem_str rfl
    exact find_eq_false (c := 'S') (by simp) (by simp [hdigit])
  have hgates := replace_gates mappingDic (n := m.numNodes) (σ := σ m) hσ m.gates rest
  rw [TrModule.lines, List.cons_append, List.cons_append, replace_name m.blank hfind,
    replace_other rfl hnum]
  change ((replace mappingDic (some items.zipIdx)
    (m.gates.map TrGate.line ++ rest)).map _).map _ = _
  rw [hgates, Option.map_map, Option.map_map]
  rfl

/-- What the optimiser knows of a module: the nodes are the qubits, and they are placed. -/
structure Located (l : Entry × List (Node × Point)) (m : TrModule) : Prop where
  reads : Reads l.1 m
  placed : Placed l.1.nodes l.1.tl l.1.br l.2

theorem exists_located {dic : List Entry} {ms : List TrModule} (h : List.Forall₂ Reads dic ms)
    (metis : Word → Point → Point → ℕ → Bool) {fuel : ℕ}
    (hfuel : ∀ m ∈ ms, m.numNodes + 1 < fuel) :
    ∃ located, dic.mapM (fun e ↦
        (getLocations (metis e.name) fuel e.nodes e.tl e.br).map (e, ·)) = some located ∧
      List.Forall₂ Located located ms := by
  induction h with
  | nil => exact ⟨[], rfl, .nil⟩
  | @cons e m dic ms hreads _ ih =>
    obtain ⟨hm, hms⟩ := List.forall_mem_cons.mp hfuel
    obtain ⟨located, heq, hlocated⟩ := ih hms
    obtain ⟨locations, hlocations, hplaced⟩ := hreads.getLocations (metis e.name) hm
    refine ⟨(e, locations) :: located, ?_, .cons ⟨hreads, hplaced⟩ hlocated⟩
    rw [List.mapM_cons, hlocations, heq]
    rfl

/-- The modules of a trace are written one after the other. -/
theorem replace_lines {mappingDic : List (Word × List ℕ)}
    {σ : (m : TrModule) → Equiv.Perm (Fin m.numNodes)} {ms : List TrModule}
    (h : ∀ m ∈ ms, ∃ items, mappingDic.find? (fun e ↦ decide (e.1 = m.name ++ ['\n'])) =
        some (m.name ++ ['\n'], items) ∧
      ∀ i : Fin m.numNodes, place items.zipIdx (str i) = str (σ m i))
    (d : Option (List (ℕ × ℕ))) :
    replace mappingDic d (ms.flatMap TrModule.lines) =
      some ((ms.map (TrModule.rename σ)).flatMap TrModule.lines) := by
  induction ms generalizing d with
  | nil => rfl
  | cons m ms ih =>
    obtain ⟨⟨items, hfind, hσ⟩, hms⟩ := List.forall_mem_cons.mp h
    rw [List.flatMap_cons, replace_module hfind hσ, ih hms, List.map_cons, List.flatMap_cons,
      Option.map_some]

theorem Located.exists_perm {l : Entry × List (Node × Point)} {m : TrModule} (h : Located l m) :
    ∃ σ : Equiv.Perm (Fin m.numNodes), ∀ i : Fin m.numNodes,
      place (mapping l.1 l.2).zipIdx (str i) = str (σ i) := by
  have hnodup : (l.1.nodes.map Node.index).Nodup := by
    rw [h.reads.nodes]
    exact List.nodup_range
  have hperm := mapping_perm h.reads.tl h.placed hnodup
  rw [h.reads.nodes] at hperm
  exact Arrange.exists_perm hperm

private theorem exists_mem_left {α β : Type*} {R : α → β → Prop} {l : List α} {l' : List β}
    (h : List.Forall₂ R l l') {b : β} (hb : b ∈ l') : ∃ a ∈ l, R a b := by
  induction h with
  | nil => exact absurd hb List.not_mem_nil
  | @cons a b' l l' hab _ ih =>
    rcases List.mem_cons.mp hb with rfl | hb
    · exact ⟨a, List.mem_cons_self, hab⟩
    · obtain ⟨a', ha', hab'⟩ := ih hb
      exact ⟨a', List.mem_cons_of_mem _ ha', hab'⟩

private theorem reads_of_located {located : List (Entry × List (Node × Point))}
    {ms : List TrModule} (h : List.Forall₂ Located located ms) :
    List.Forall₂ Reads (located.map Prod.fst) ms :=
  List.forall₂_map_left_iff.mpr (h.imp fun _ _ hl ↦ hl.reads)

/-- **The optimiser renames.** Whatever the partitioner answers, the nodes of every module are the
qubits of that module and have different places in its rectangle, and the trace is written with the
qubits of every module permuted. Nothing is written for a trace without modules. -/
theorem arrange_eq (t : Trace) (metis : Word → Point → Point → ℕ → Bool) :
    ∃ N, ∀ fuel ≥ N, (t.modules = [] ∧ arrange metis fuel t.lines = none) ∨
      ∃ (located : List (Entry × List (Node × Point)))
        (σ : (m : TrModule) → Equiv.Perm (Fin m.numNodes)),
        locate metis fuel t.lines = some located ∧
        List.Forall₂ Located located t.modules.reverse ∧
        arrange metis fuel t.lines = some (t.rename σ).lines := by
  refine ⟨(t.modules.map TrModule.numNodes).sum + 2, fun fuel hfuel ↦ ?_⟩
  have hgraph : traceToGraph none t.lines = some (t.modules.flatMap TrModule.graph) :=
    traceToGraph_lines t.modules none
  rcases eq_or_ne t.modules [] with hnil | hne
  · refine .inl ⟨hnil, ?_⟩
    rw [arrange, locate, hgraph, hnil]
    rfl
  · obtain ⟨dic, hdic, hreads⟩ := parser_graph hne t.nodup
    -- the fuel is enough for every module
    have hnodes : ∀ m ∈ t.modules.reverse, m.numNodes + 1 < fuel := by
      intro m hm
      have hle : m.numNodes ≤ (t.modules.map TrModule.numNodes).sum :=
        List.single_le_sum (fun _ _ ↦ Nat.zero_le _) _
          (List.mem_map_of_mem (List.mem_reverse.mp hm))
      omega
    obtain ⟨located, hmapM, hlocated⟩ := exists_located hreads metis hnodes
    have hlocate : locate metis fuel t.lines = some located := by
      rw [locate, hgraph]
      simp only [Option.bind_eq_bind, Option.bind_some, hdic, hmapM]
    -- METIS is arbitrary, but the places are taken once each
    have hperm : ∀ m : TrModule, ∃ σ : Equiv.Perm (Fin m.numNodes), m ∈ t.modules →
        ∃ l ∈ located, Located l m ∧
          ∀ i : Fin m.numNodes, place (mapping l.1 l.2).zipIdx (str i) = str (σ i) := by
      intro m
      by_cases hm : m ∈ t.modules
      · obtain ⟨l, hl, hloc⟩ := exists_mem_left hlocated (List.mem_reverse.mpr hm)
        obtain ⟨σ, hσ⟩ := hloc.exists_perm
        exact ⟨σ, fun _ ↦ ⟨l, hl, hloc, hσ⟩⟩
      · exact ⟨1, fun h ↦ absurd h hm⟩
    choose σ hσ using hperm
    refine .inr ⟨located, σ, hlocate, hlocated, ?_⟩
    rw [arrange, hlocate]
    refine replace_lines (fun m hm ↦ ?_) none
    obtain ⟨l, hl, hloc, hplace⟩ := hσ m hm
    refine ⟨mapping l.1 l.2, ?_, hplace⟩
    have hkeys : ((located.map fun l ↦ (l.1.name, mapping l.1 l.2)).map Prod.fst).Nodup := by
      rw [List.map_map]
      have hnames := nodup_names (reads_of_located hlocated)
        (by rw [List.map_reverse]; exact List.nodup_reverse.mpr t.nodup)
      rwa [List.map_map] at hnames
    rw [Memory.find?_key hkeys (List.mem_map_of_mem hl) hloc.reads.name, hloc.reads.name]

end ScaffCC.Arrange
