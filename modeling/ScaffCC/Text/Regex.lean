import Mathlib.Data.List.Basic
import Mathlib.Data.List.Induction
import Mathlib.Order.Nat

/-!
# Regular expressions

A matcher that backtracks goes through the ways in which an expression can read on from a place, and
takes the first. A search tries one place after the other and goes on behind what was matched, so a
match is found unless an earlier one that is found reaches over its start. Where a match that begins
inside another one does not reach over its end, the earlier one need not be found itself.
-/

namespace Regex

/-! ## Expressions -/

/-- A place in a text: what is before it, the last character first, and what is ahead. -/
structure Cursor where
  before : List Char
  ahead : List Char

/-- An expression. A repetition is of characters and takes as many as it can. -/
inductive Pattern
  | lineStart
  | notAhead (word : List Char)
  | word (word : List Char)
  | char (p : Char → Bool)
  | star (p : Char → Bool)
  | optional (r : Pattern)
  | group (r : Pattern)
  | seq (r r' : Pattern)

/-- One expression after the other. -/
def concat (rs : List Pattern) : Pattern := rs.foldr .seq (.word [])

/-- One character or more. -/
def plus (p : Char → Bool) : Pattern := .seq (.char p) (.star p)

/-- Whether a line begins behind these characters, the last one first. -/
def atLineStart : List Char → Bool
  | [] => true
  | c :: _ => c == '\n'

/-- The places that a repetition gets to, the farthest first. -/
def spans (p : Char → Bool) : List Char → List Char → List Cursor
  | before, [] => [⟨before, []⟩]
  | before, c :: ahead =>
    if p c then spans p (c :: before) ahead ++ [⟨before, c :: ahead⟩] else [⟨before, c :: ahead⟩]

/-- What is between two places. -/
def consumed (cur cur' : Cursor) : List Char :=
  (cur'.before.take (cur'.before.length - cur.before.length)).reverse

/-- The ways to read on from a place, in the order in which they are tried, with the groups. -/
def runs : Pattern → Cursor → List (Cursor × List (List Char))
  | .lineStart, cur => if atLineStart cur.before then [(cur, [])] else []
  | .notAhead word, cur => if word.isPrefixOf cur.ahead then [] else [(cur, [])]
  | .word word, cur =>
    if word.isPrefixOf cur.ahead then
      [(⟨word.reverse ++ cur.before, cur.ahead.drop word.length⟩, [])]
    else []
  | .char p, cur =>
    match cur.ahead with
    | [] => []
    | c :: ahead => if p c then [(⟨c :: cur.before, ahead⟩, [])] else []
  | .star p, cur => (spans p cur.before cur.ahead).map fun cur' ↦ (cur', [])
  -- the longer run comes first, as the search prefers it
  | .optional r, cur => runs r cur ++ [(cur, [])]
  | .group r, cur => (runs r cur).map fun run ↦ (run.1, consumed cur run.1 :: run.2)
  | .seq r r', cur =>
    (runs r cur).flatMap fun run ↦ (runs r' run.1).map fun run' ↦ (run'.1, run.2 ++ run'.2)

/-! ## What an expression reads -/

/-- An expression reads a text between what is before and what is behind. -/
def Reads : Pattern → List Char → List Char → List Char → List (List Char) → Prop
  | .lineStart, before, s, _, groups => s = [] ∧ groups = [] ∧ atLineStart before
  | .notAhead word, _, s, behind, groups => s = [] ∧ groups = [] ∧ ¬ word <+: behind
  | .word word, _, s, _, groups => s = word ∧ groups = []
  | .char p, _, s, _, groups => ∃ c, p c ∧ s = [c] ∧ groups = []
  | .star p, _, s, _, groups => (∀ c ∈ s, p c) ∧ groups = []
  | .optional r, before, s, behind, groups =>
    Reads r before s behind groups ∨ s = [] ∧ groups = []
  | .group r, before, s, behind, groups =>
    ∃ inner, Reads r before s behind inner ∧ groups = s :: inner
  | .seq r r', before, s, behind, groups => ∃ s₁ s₂ groups₁ groups₂, s = s₁ ++ s₂ ∧
      groups = groups₁ ++ groups₂ ∧ Reads r before s₁ (s₂ ++ behind) groups₁ ∧
      Reads r' (s₁.reverse ++ before) s₂ behind groups₂

theorem mem_spans_iff {p : Char → Bool} {before ahead : List Char} {cur : Cursor} :
    cur ∈ spans p before ahead ↔
      ∃ s, ahead = s ++ cur.ahead ∧ cur.before = s.reverse ++ before ∧ ∀ c ∈ s, p c := by
  induction ahead generalizing before with
  | nil =>
    rw [spans, List.mem_singleton]
    constructor
    · rintro rfl
      exact ⟨[], rfl, rfl, List.forall_mem_nil _⟩
    · rintro ⟨s, hs, hbefore, -⟩
      obtain ⟨rfl, hnil⟩ := List.append_eq_nil_iff.mp hs.symm
      obtain ⟨b, a⟩ := cur
      rw [Cursor.mk.injEq]
      exact ⟨hbefore, hnil⟩
  | cons c ahead ih =>
    have hstay : cur = ⟨before, c :: ahead⟩ →
        ∃ s, c :: ahead = s ++ cur.ahead ∧ cur.before = s.reverse ++ before ∧ ∀ c ∈ s, p c := by
      rintro rfl
      exact ⟨[], rfl, rfl, List.forall_mem_nil _⟩
    -- a cursor that is not at the start has read this character
    have hleave : ∀ s, c :: ahead = s ++ cur.ahead → cur.before = s.reverse ++ before →
        cur ≠ ⟨before, c :: ahead⟩ → ∃ s', s = c :: s' ∧ ahead = s' ++ cur.ahead ∧
          cur.before = s'.reverse ++ c :: before := by
      intro s hs hbefore hne
      cases s with
      | nil =>
        obtain ⟨b, a⟩ := cur
        exact absurd (by rw [Cursor.mk.injEq]; exact ⟨hbefore, hs.symm⟩) hne
      | cons c' s' =>
        obtain ⟨rfl, htail⟩ := List.cons.inj hs
        exact ⟨s', rfl, htail, by rw [hbefore, List.reverse_cons, List.append_assoc]; rfl⟩
    rw [spans]
    split_ifs with hp
    · rw [List.mem_append, List.mem_singleton, ih]
      constructor
      · rintro (⟨s, rfl, hbefore, hall⟩ | h)
        · exact ⟨c :: s, rfl, by rw [hbefore, List.reverse_cons, List.append_assoc]; rfl,
            List.forall_mem_cons.mpr ⟨hp, hall⟩⟩
        · exact hstay h
      · rintro ⟨s, hs, hbefore, hall⟩
        by_cases hcur : cur = ⟨before, c :: ahead⟩
        · exact .inr hcur
        · obtain ⟨s', rfl, htail, hbefore'⟩ := hleave s hs hbefore hcur
          exact .inl ⟨s', htail, hbefore', (List.forall_mem_cons.mp hall).2⟩
    · rw [List.mem_singleton]
      refine ⟨hstay, ?_⟩
      rintro ⟨s, hs, hbefore, hall⟩
      by_contra hcur
      obtain ⟨s', rfl, -⟩ := hleave s hs hbefore hcur
      exact hp (List.forall_mem_cons.mp hall).1

/-- The ways to read on without taking a character. -/
theorem stays_iff {cur cur' : Cursor} :
    cur' = cur ↔
      ∃ s, cur.ahead = s ++ cur'.ahead ∧ cur'.before = s.reverse ++ cur.before ∧ s = [] := by
  obtain ⟨b, a⟩ := cur
  obtain ⟨b', a'⟩ := cur'
  rw [Cursor.mk.injEq]
  constructor
  · rintro ⟨rfl, rfl⟩
    exact ⟨[], rfl, rfl, rfl⟩
  · rintro ⟨s, ha, hb, rfl⟩
    exact ⟨hb, ha.symm⟩

/-- **A way to read on** takes a text that the expression reads. -/
theorem mem_runs_iff {r : Pattern} {cur cur' : Cursor} {groups : List (List Char)} :
    (cur', groups) ∈ runs r cur ↔ ∃ s, cur.ahead = s ++ cur'.ahead ∧
      cur'.before = s.reverse ++ cur.before ∧ Reads r cur.before s cur'.ahead groups := by
  induction r generalizing cur cur' groups with
  | lineStart =>
    rw [runs]
    split_ifs with h
    · rw [List.mem_singleton, Prod.mk.injEq, stays_iff]
      constructor
      · rintro ⟨⟨s, ha, hb, hs⟩, hgroups⟩
        exact ⟨s, ha, hb, hs, hgroups, h⟩
      · rintro ⟨s, ha, hb, hs, hgroups, -⟩
        exact ⟨⟨s, ha, hb, hs⟩, hgroups⟩
    · refine iff_of_false List.not_mem_nil ?_
      rintro ⟨s, -, -, -, -, hline⟩
      exact h hline
  | notAhead word =>
    rw [runs]
    split_ifs with h
    · refine iff_of_false List.not_mem_nil ?_
      rintro ⟨s, ha, -, rfl, -, hnot⟩
      rw [List.nil_append] at ha
      exact hnot (ha ▸ List.isPrefixOf_iff_prefix.mp h)
    · rw [List.mem_singleton, Prod.mk.injEq]
      rw [List.isPrefixOf_iff_prefix] at h
      constructor
      · rintro ⟨rfl, hgroups⟩
        exact ⟨[], rfl, rfl, rfl, hgroups, h⟩
      · rintro ⟨s, ha, hb, hs, hgroups, -⟩
        exact ⟨stays_iff.mpr ⟨s, ha, hb, hs⟩, hgroups⟩
  | word word =>
    rw [runs]
    split_ifs with h
    · obtain ⟨behind, hbehind⟩ := List.isPrefixOf_iff_prefix.mp h
      rw [List.mem_singleton, Prod.mk.injEq, ← hbehind, List.drop_left]
      constructor
      · rintro ⟨rfl, hgroups⟩
        exact ⟨word, rfl, rfl, rfl, hgroups⟩
      · rintro ⟨s, ha, hb, rfl, hgroups⟩
        obtain ⟨b', a'⟩ := cur'
        rw [Cursor.mk.injEq]
        exact ⟨⟨hb, (List.append_cancel_left ha).symm⟩, hgroups⟩
    · refine iff_of_false List.not_mem_nil ?_
      rintro ⟨s, ha, -, rfl, -⟩
      exact h (List.isPrefixOf_iff_prefix.mpr ⟨_, ha.symm⟩)
  | char p =>
    obtain ⟨b, ahead⟩ := cur
    obtain ⟨b', a'⟩ := cur'
    cases ahead with
    | nil =>
      refine iff_of_false List.not_mem_nil ?_
      rintro ⟨s, ha, -, c, -, rfl, -⟩
      exact List.cons_ne_nil _ _ ha.symm
    | cons c ahead =>
      show _ ∈ (if p c then _ else _) ↔ _
      split_ifs with h
      · rw [List.mem_singleton, Prod.mk.injEq, Cursor.mk.injEq]
        constructor
        · rintro ⟨⟨rfl, rfl⟩, hgroups⟩
          exact ⟨[c], rfl, rfl, c, h, rfl, hgroups⟩
        · rintro ⟨s, ha, hb, c', -, rfl, hgroups⟩
          obtain ⟨rfl, rfl⟩ := List.cons.inj ha
          exact ⟨⟨hb, rfl⟩, hgroups⟩
      · refine iff_of_false List.not_mem_nil ?_
        rintro ⟨s, ha, -, c', hc', rfl, -⟩
        obtain ⟨rfl, -⟩ := List.cons.inj ha
        exact h hc'
  | star p =>
    rw [runs, List.mem_map]
    constructor
    · rintro ⟨cur'', hmem, heq⟩
      obtain ⟨rfl, rfl⟩ := Prod.mk.inj heq
      obtain ⟨s, ha, hb, hall⟩ := mem_spans_iff.mp hmem
      exact ⟨s, ha, hb, hall, rfl⟩
    · rintro ⟨s, ha, hb, hall, rfl⟩
      exact ⟨cur', mem_spans_iff.mpr ⟨s, ha, hb, hall⟩, rfl⟩
  | optional r ih =>
    rw [runs, List.mem_append, List.mem_singleton, Prod.mk.injEq, ih]
    constructor
    · rintro (⟨s, ha, hb, hreads⟩ | ⟨rfl, hgroups⟩)
      · exact ⟨s, ha, hb, .inl hreads⟩
      · exact ⟨[], rfl, rfl, .inr ⟨rfl, hgroups⟩⟩
    · rintro ⟨s, ha, hb, hreads | ⟨hs, hgroups⟩⟩
      · exact .inl ⟨s, ha, hb, hreads⟩
      · exact .inr ⟨stays_iff.mpr ⟨s, ha, hb, hs⟩, hgroups⟩
  | group r ih =>
    -- the cursors tell what was read between them
    have htaken : ∀ s, cur'.before = s.reverse ++ cur.before → consumed cur cur' = s := by
      intro s hb
      rw [consumed, hb, List.length_append, Nat.add_sub_cancel, List.take_left,
        List.reverse_reverse]
    rw [runs, List.mem_map]
    constructor
    · rintro ⟨⟨cur'', inner⟩, hmem, heq⟩
      obtain ⟨rfl, rfl⟩ := Prod.mk.inj heq
      obtain ⟨s, ha, hb, hreads⟩ := ih.mp hmem
      exact ⟨s, ha, hb, inner, hreads, by rw [htaken s hb]⟩
    · rintro ⟨s, ha, hb, inner, hreads, rfl⟩
      exact ⟨(cur', inner), ih.mpr ⟨s, ha, hb, hreads⟩, by rw [htaken s hb]⟩
  | seq r r' ih ih' =>
    rw [runs, List.mem_flatMap]
    constructor
    · rintro ⟨⟨mid, groups₁⟩, hmem, hmem'⟩
      obtain ⟨⟨last, groups₂⟩, hlast, heq⟩ := List.mem_map.mp hmem'
      obtain ⟨rfl, rfl⟩ := Prod.mk.inj heq
      obtain ⟨s₁, ha, hb, hreads⟩ := ih.mp hmem
      obtain ⟨s₂, ha', hb', hreads'⟩ := ih'.mp hlast
      refine ⟨s₁ ++ s₂, ?_, ?_, s₁, s₂, groups₁, groups₂, rfl, rfl, ha' ▸ hreads, hb ▸ hreads'⟩
      · rw [ha, ha', List.append_assoc]
      · rw [hb', hb, List.reverse_append, List.append_assoc]
    · rintro ⟨s, ha, hb, s₁, s₂, groups₁, groups₂, rfl, rfl, hreads, hreads'⟩
      -- the cursor between the two parts is known from what the first part reads
      refine ⟨(⟨s₁.reverse ++ cur.before, s₂ ++ cur'.ahead⟩, groups₁), ih.mpr ⟨s₁, ?_, rfl, hreads⟩,
        List.mem_map.mpr ⟨(cur', groups₂), ih'.mpr ⟨s₂, rfl, ?_, hreads'⟩, rfl⟩⟩
      · rw [ha, List.append_assoc]
      · rw [hb, List.reverse_append, List.append_assoc]

/-! ## One part after the other -/

section Parts

variable {r r' : Pattern} {word before s behind : List Char} {p : Char → Bool}
  {groups : List (List Char)}

theorem reads_lineStart_seq :
    Reads (.seq .lineStart r) before s behind groups ↔
      atLineStart before ∧ Reads r before s behind groups := by
  constructor
  · rintro ⟨-, s₂, -, groups₂, rfl, rfl, ⟨rfl, rfl, hline⟩, hreads⟩
    exact ⟨hline, hreads⟩
  · rintro ⟨hline, hreads⟩
    exact ⟨[], s, [], groups, rfl, rfl, ⟨rfl, rfl, hline⟩, hreads⟩

theorem reads_notAhead_seq :
    Reads (.seq (.notAhead word) r) before s behind groups ↔
      ¬ word <+: s ++ behind ∧ Reads r before s behind groups := by
  constructor
  · rintro ⟨-, s₂, -, groups₂, rfl, rfl, ⟨rfl, rfl, hnot⟩, hreads⟩
    exact ⟨hnot, hreads⟩
  · rintro ⟨hnot, hreads⟩
    exact ⟨[], s, [], groups, rfl, rfl, ⟨rfl, rfl, hnot⟩, hreads⟩

theorem reads_word_seq :
    Reads (.seq (.word word) r) before s behind groups ↔
      ∃ s', s = word ++ s' ∧ Reads r (word.reverse ++ before) s' behind groups := by
  constructor
  · rintro ⟨s₁, s₂, groups₁, groups₂, rfl, rfl, ⟨rfl, rfl⟩, hreads⟩
    exact ⟨s₂, rfl, hreads⟩
  · rintro ⟨s', rfl, hreads⟩
    exact ⟨word, s', [], groups, rfl, rfl, ⟨rfl, rfl⟩, hreads⟩

theorem reads_star_seq :
    Reads (.seq (.star p) r) before s behind groups ↔
      ∃ t s', s = t ++ s' ∧ (∀ c ∈ t, p c) ∧ Reads r (t.reverse ++ before) s' behind groups := by
  constructor
  · rintro ⟨t, s', -, groups₂, rfl, rfl, ⟨hall, rfl⟩, hreads⟩
    exact ⟨t, s', rfl, hall, hreads⟩
  · rintro ⟨t, s', rfl, hall, hreads⟩
    exact ⟨t, s', [], groups, rfl, rfl, ⟨hall, rfl⟩, hreads⟩

theorem reads_plus :
    Reads (plus p) before s behind groups ↔ s ≠ [] ∧ (∀ c ∈ s, p c) ∧ groups = [] := by
  constructor
  · rintro ⟨-, t, -, -, rfl, rfl, ⟨c, hc, rfl, rfl⟩, hall, rfl⟩
    exact ⟨List.cons_ne_nil _ _, List.forall_mem_cons.mpr ⟨hc, hall⟩, rfl⟩
  · rintro ⟨hne, hall, rfl⟩
    cases s with
    | nil => exact absurd rfl hne
    | cons c t =>
      obtain ⟨hc, hall⟩ := List.forall_mem_cons.mp hall
      exact ⟨[c], t, [], [], rfl, rfl, ⟨c, hc, rfl, rfl⟩, hall, rfl⟩

theorem reads_plus_seq :
    Reads (.seq (plus p) r) before s behind groups ↔
      ∃ t s', s = t ++ s' ∧ t ≠ [] ∧ (∀ c ∈ t, p c) ∧
        Reads r (t.reverse ++ before) s' behind groups := by
  constructor
  · rintro ⟨t, s', groups₁, groups₂, rfl, rfl, hplus, hreads⟩
    obtain ⟨hne, hall, rfl⟩ := reads_plus.mp hplus
    exact ⟨t, s', rfl, hne, hall, hreads⟩
  · rintro ⟨t, s', rfl, hne, hall, hreads⟩
    exact ⟨t, s', [], groups, rfl, rfl, reads_plus.mpr ⟨hne, hall, rfl⟩, hreads⟩

theorem reads_group_seq (hr : ∀ {before s behind groups}, Reads r before s behind groups →
    groups = []) :
    Reads (.seq (.group r) r') before s behind groups ↔
      ∃ t s' rest, s = t ++ s' ∧ groups = t :: rest ∧ Reads r before t (s' ++ behind) [] ∧
        Reads r' (t.reverse ++ before) s' behind rest := by
  constructor
  · rintro ⟨t, s', -, rest, rfl, rfl, ⟨inner, hinner, rfl⟩, hreads⟩
    obtain rfl := hr hinner
    exact ⟨t, s', rest, rfl, rfl, hinner, hreads⟩
  · rintro ⟨t, s', rest, rfl, rfl, hinner, hreads⟩
    exact ⟨t, s', [t], rest, rfl, rfl, ⟨[], hinner, rfl⟩, hreads⟩

end Parts

theorem run_unique {p : Char → Bool} {s t u v : List Char} (hs : ∀ c ∈ s, p c) (ht : ∀ c ∈ t, p c)
    (hu : ∀ c ∈ u.head?, ¬ p c) (hv : ∀ c ∈ v.head?, ¬ p c) (h : s ++ u = t ++ v) :
    s = t ∧ u = v := by
  induction s generalizing t with
  | nil =>
    cases t with
    | nil => exact ⟨rfl, h⟩
    | cons d t =>
      rw [List.nil_append] at h
      exact absurd (ht d List.mem_cons_self) (hu d (h ▸ rfl))
  | cons c s ih =>
    cases t with
    | nil =>
      rw [List.nil_append] at h
      exact absurd (hs c List.mem_cons_self) (hv c (h ▸ rfl))
    | cons d t =>
      obtain ⟨rfl, htail⟩ := List.cons.inj h
      obtain ⟨rfl, hrest⟩ := ih (List.forall_mem_cons.mp hs).2 (List.forall_mem_cons.mp ht).2 htail
      exact ⟨rfl, hrest⟩

/-! ## Searching -/

/-- The first way to read on from a position: the position it gets to and the groups. -/
def first (r : Pattern) (text : List Char) (i : ℕ) : Option (ℕ × List (List Char)) :=
  (runs r ⟨(text.take i).reverse, text.drop i⟩).head?.map fun run ↦ (run.1.before.length, run.2)

section Search

variable {α : Type*}

/-- What is found at the next `k` positions from `i`, with its position. Nothing is looked for
before `next`, and after something is found the next position is the one it gets to. -/
def search (find : ℕ → Option (ℕ × α)) : ℕ → ℕ → ℕ → List (ℕ × α)
  | 0, _, _ => []
  | k + 1, i, next =>
    if i < next then search find k (i + 1) next
    else
      match find i with
      | some (j, a) => (i, a) :: search find k (i + 1) j
      | none => search find k (i + 1) next

/-- What begins inside something else reaches over nothing more than that. -/
def Nested (find : ℕ → Option (ℕ × α)) : Prop :=
  ∀ i j a i' j' a' k, find i = some (j, a) → find i' = some (j', a') → (find k).isSome → i < i' →
    i' < j → k < j' → k < j

/-- Something is at a position, and nothing before gets further than that. -/
def Uncovered (find : ℕ → Option (ℕ × α)) (start i : ℕ) (a : α) : Prop :=
  (∃ j, find i = some (j, a)) ∧
    ∀ i' j' a', start ≤ i' → i' < i → find i' = some (j', a') → j' ≤ i

variable {find : ℕ → Option (ℕ × α)} {k p next i : ℕ} {a : α}

/-- **What a search finds** is what nothing before it reaches over, found or not. -/
theorem mem_search_iff (h : Nested find) :
    (i, a) ∈ search find k p next ↔
      p ≤ i ∧ i < p + k ∧ next ≤ i ∧ Uncovered find (max p next) i a := by
  induction k generalizing p next with
  | zero => exact iff_of_false List.not_mem_nil fun ⟨hp, hk, _⟩ ↦ by omega
  | succ k ih =>
    rw [search]
    -- a place that is covered by the last hit is passed over
    split_ifs with hnext
    · rw [ih, max_eq_right hnext, max_eq_right hnext.le]
      constructor
      · rintro ⟨hp, hk, hi, hfound⟩
        exact ⟨by omega, by omega, hi, hfound⟩
      · rintro ⟨hp, hk, hi, hfound⟩
        exact ⟨by omega, by omega, hi, hfound⟩
    · rw [not_lt] at hnext
      rw [max_eq_left hnext]
      cases hp : find p with
      | none =>
        show _ ∈ search find k (p + 1) next ↔ _
        rw [ih, max_eq_left (by omega)]
        constructor
        · rintro ⟨hpi, hk, hi, hsome, hbefore⟩
          refine ⟨by omega, by omega, hi, hsome, fun i' j' a' hstart hlt hfind ↦ ?_⟩
          rcases hstart.eq_or_lt with rfl | hlt'
          · rw [hp] at hfind
            exact absurd hfind.symm (Option.some_ne_none _)
          · exact hbefore i' j' a' hlt' hlt hfind
        · rintro ⟨hpi, hk, hi, ⟨j, hj⟩, hbefore⟩
          have hne : i ≠ p := by
            rintro rfl
            rw [hp] at hj
            exact Option.some_ne_none _ hj.symm
          exact ⟨by omega, by omega, hi, ⟨j, hj⟩, fun i' j' a' hstart ↦
            hbefore i' j' a' (Nat.le_of_succ_le hstart)⟩
      | some found =>
        obtain ⟨j, b⟩ := found
        show _ ∈ (p, b) :: search find k (p + 1) j ↔ _
        rw [List.mem_cons, Prod.mk.injEq, ih]
        constructor
        · rintro (⟨rfl, rfl⟩ | ⟨hpi, hk, hi, ⟨j₁, hj₁⟩, hbefore⟩)
          · exact ⟨le_rfl, by omega, hnext, ⟨j, hp⟩, fun i' _ _ hstart hlt ↦ by omega⟩
          · refine ⟨by omega, by omega, by omega, ⟨j₁, hj₁⟩, fun i' j' a' hstart hlt hfind ↦ ?_⟩
            rcases hstart.eq_or_lt with rfl | hlt'
            · rw [hp] at hfind
              obtain ⟨rfl, -⟩ := Prod.mk.inj (Option.some.inj hfind)
              exact hi
            · rcases lt_or_ge i' j with hin | hout
              · -- a hit inside the last one would end in it, since hits are nested
                by_contra hover
                have hsome : (find i).isSome := Option.isSome_iff_exists.mpr ⟨_, hj₁⟩
                exact hi.not_gt (h _ _ _ _ _ _ _ hp hfind hsome hlt' hin (not_le.mp hover))
              · exact hbefore i' j' a' (max_le hlt' hout) hlt hfind
        · rintro ⟨hpi, hk, -, ⟨j₁, hj₁⟩, hbefore⟩
          rcases hpi.eq_or_lt with rfl | hlt
          · rw [hp] at hj₁
            exact .inl ⟨rfl, (Prod.mk.inj (Option.some.inj hj₁)).2.symm⟩
          · exact .inr ⟨hlt, by omega, hbefore p j b le_rfl hlt hp, ⟨j₁, hj₁⟩,
              fun i' j' a' hstart ↦ hbefore i' j' a'
                ((Nat.le_succ p).trans ((le_max_left _ _).trans hstart))⟩

theorem le_of_mem_search (h : (i, a) ∈ search find k p next) : p ≤ i := by
  induction k generalizing p next with
  | zero => exact absurd h List.not_mem_nil
  | succ k ih =>
    rw [search] at h
    split_ifs at h
    · exact Nat.le_of_succ_le (ih h)
    · cases hp : find p with
      | none =>
        rw [hp] at h
        exact Nat.le_of_succ_le (ih h)
      | some found =>
        rw [hp] at h
        rcases List.mem_cons.mp h with heq | hmem
        · exact (Prod.mk.inj heq).1.ge
        · exact Nat.le_of_succ_le (ih hmem)

theorem pairwise_search : (search find k p next).Pairwise fun x y ↦ x.1 < y.1 := by
  induction k generalizing p next with
  | zero => exact List.Pairwise.nil
  | succ k ih =>
    rw [search]
    split_ifs
    · exact ih
    · cases find p with
      | none => exact ih
      | some found => exact List.pairwise_cons.mpr ⟨fun x hx ↦ le_of_mem_search hx, ih⟩

end Search

theorem exists_of_first {r : Pattern} {text : List Char} {i j : ℕ} {groups : List (List Char)}
    (hi : i ≤ text.length) (h : first r text i = some (j, groups)) :
    ∃ pre s behind, text = pre ++ (s ++ behind) ∧ i = pre.length ∧
      j + behind.length = text.length ∧ Reads r pre.reverse s behind groups := by
  obtain ⟨⟨cur', groups'⟩, hhead, heq⟩ := Option.map_eq_some_iff.mp h
  obtain ⟨rfl, rfl⟩ := Prod.mk.inj heq
  obtain ⟨s, ha, hb, hreads⟩ := mem_runs_iff.mp (List.mem_of_mem_head? hhead)
  have htext : text = text.take i ++ (s ++ cur'.ahead) := by rw [← ha, List.take_append_drop]
  refine ⟨text.take i, s, cur'.ahead, htext, (List.length_take_of_le hi).symm, ?_, hreads⟩
  have hlen := congrArg List.length htext
  rw [List.length_append, List.length_append] at hlen
  rw [hb, List.length_append, List.length_reverse, List.length_reverse]
  omega

theorem first_isSome {r : Pattern} {pre s behind : List Char} {groups : List (List Char)}
    (h : Reads r pre.reverse s behind groups) :
    (first r (pre ++ (s ++ behind)) pre.length).isSome := by
  have hmem : ((⟨s.reverse ++ pre.reverse, behind⟩ : Cursor), groups) ∈
      runs r ⟨pre.reverse, s ++ behind⟩ := mem_runs_iff.mpr ⟨s, rfl, rfl, h⟩
  rw [first, List.take_left, List.drop_left, Option.isSome_map, List.isSome_head?]
  exact List.ne_nil_of_mem hmem

theorem le_of_first {r : Pattern} {text : List Char} {i j : ℕ} {groups : List (List Char)}
    (h : first r text i = some (j, groups)) : j ≤ text.length := by
  obtain ⟨⟨cur', groups'⟩, hhead, heq⟩ := Option.map_eq_some_iff.mp h
  obtain ⟨rfl, rfl⟩ := Prod.mk.inj heq
  obtain ⟨s, ha, hb, -⟩ := mem_runs_iff.mp (List.mem_of_mem_head? hhead)
  have hlen : text.length = (text.take i ++ (s ++ cur'.ahead)).length := by
    rw [← ha, List.take_append_drop]
  rw [List.length_append, List.length_append] at hlen
  rw [hb, List.length_append, List.length_reverse, List.length_reverse]
  omega

/-- The matches of an expression in a text, with their positions. -/
def finditer (r : Pattern) (text : List Char) : List (ℕ × List (List Char)) :=
  search (first r text) (text.length + 1) 0 0

/-- The groups of the matches. -/
def findall (r : Pattern) (text : List Char) : List (List (List Char)) :=
  (finditer r text).map Prod.snd

theorem pairwise_finditer {r : Pattern} {text : List Char} :
    (finditer r text).Pairwise fun x y ↦ x.1 < y.1 :=
  pairwise_search

theorem mem_finditer_iff {r : Pattern} {text : List Char} {i : ℕ} {groups : List (List Char)}
    (h : Nested (first r text)) :
    (i, groups) ∈ finditer r text ↔ i ≤ text.length ∧ Uncovered (first r text) 0 i groups := by
  rw [finditer, mem_search_iff h, Nat.max_self]
  constructor
  · rintro ⟨-, hi, -, hfound⟩
    exact ⟨by omega, hfound⟩
  · rintro ⟨hi, hfound⟩
    exact ⟨by omega, by omega, by omega, hfound⟩

/-! ## The last match for a key -/

section Table

variable {α β γ : Type*} [DecidableEq β] {key : α → β} {val : α → γ} {l : List (ℕ × α)}

/-- A table that is filled in the order of a list. -/
def table (key : α → β) (val : α → γ) (l : List α) : β → Option γ :=
  l.foldl (fun d a ↦ Function.update d (key a) (some (val a))) fun _ ↦ none

theorem table_append_singleton (l : List α) (a : α) :
    table key val (l ++ [a]) = Function.update (table key val l) (key a) (some (val a)) := by
  rw [table, List.foldl_append]
  rfl

theorem table_eq_none_iff {l : List α} {b : β} :
    table key val l b = none ↔ ∀ a ∈ l, key a ≠ b := by
  induction l using List.reverseRecOn with
  | nil => exact iff_of_true rfl (List.forall_mem_nil _)
  | append_singleton l a ih =>
    rw [table_append_singleton, List.forall_mem_append, List.forall_mem_singleton]
    rcases eq_or_ne (key a) b with rfl | hne
    · rw [Function.update_self]
      exact iff_of_false (Option.some_ne_none _) fun h ↦ h.2 rfl
    · rw [Function.update_of_ne hne.symm, ih]
      exact ⟨fun h ↦ ⟨h, hne⟩, fun h ↦ h.1⟩

/-- **The entry of a key** comes from the last element with it. -/
theorem table_eq_some_iff (hl : l.Pairwise fun x y ↦ x.1 < y.1) {b : β} {c : γ} :
    table key val (l.map Prod.snd) b = some c ↔
      ∃ i a, (i, a) ∈ l ∧ key a = b ∧ val a = c ∧
        ∀ i' a', (i', a') ∈ l → key a' = b → i' ≤ i := by
  induction l using List.reverseRecOn with
  | nil =>
    refine iff_of_false (Option.some_ne_none c).symm ?_
    rintro ⟨i, a, hmem, -⟩
    exact List.not_mem_nil hmem
  | append_singleton l x ih =>
    obtain ⟨hl', -, hlt⟩ := List.pairwise_append.mp hl
    rw [List.map_append, List.map_singleton, table_append_singleton]
    rcases eq_or_ne (key x.2) b with hkey | hne
    · rw [hkey, Function.update_self]
      constructor
      · rintro h
        refine ⟨x.1, x.2, List.mem_append_right _ List.mem_cons_self, hkey, Option.some.inj h,
          fun i' a' hmem _ ↦ ?_⟩
        rcases List.mem_append.mp hmem with hmem | hmem
        · exact (hlt _ hmem _ List.mem_cons_self).le
        · rw [← List.mem_singleton.mp hmem]
      · rintro ⟨i, a, hmem, -, rfl, hlast⟩
        rcases List.mem_append.mp hmem with hmem | hmem
        · have hle := hlast x.1 x.2 (List.mem_append_right _ List.mem_cons_self) hkey
          exact absurd (hlt _ hmem _ List.mem_cons_self) hle.not_gt
        · rw [← List.mem_singleton.mp hmem]
    · rw [Function.update_of_ne hne.symm, ih hl']
      have hmem_iff : ∀ i a, key a = b → ((i, a) ∈ l ++ [x] ↔ (i, a) ∈ l) := by
        intro i a hkey
        rw [List.mem_append, List.mem_singleton, or_iff_left]
        rintro rfl
        exact hne hkey
      constructor
      · rintro ⟨i, a, hmem, hkey, hval, hlast⟩
        exact ⟨i, a, (hmem_iff i a hkey).mpr hmem, hkey, hval, fun i' a' hmem' hkey' ↦
          hlast i' a' ((hmem_iff i' a' hkey').mp hmem') hkey'⟩
      · rintro ⟨i, a, hmem, hkey, hval, hlast⟩
        exact ⟨i, a, (hmem_iff i a hkey).mp hmem, hkey, hval, fun i' a' hmem' hkey' ↦
          hlast i' a' ((hmem_iff i' a' hkey').mpr hmem') hkey'⟩

end Table

end Regex
