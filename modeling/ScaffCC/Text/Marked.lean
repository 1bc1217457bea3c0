import Mathlib.Data.List.Infix
import Mathlib.Data.List.TakeWhile

/-!
# Fields after a marker

A text has fields, each of them after a marker: the field has the characters of a class that follow,
and the next marker is searched after the field. A marker begins with a separator that is in no
other place of the marker and in no field, so that texts can be read one after the other.

Everything is stated over an arbitrary type of characters.
-/

namespace Marked

variable {α : Type*}

/-- A separator and a tag without it. -/
structure Marker (α : Type*) where
  sep : α
  tag : List α
  sep_notMem : sep ∉ tag

def Marker.pattern (m : Marker α) : List α := m.sep :: m.tag

/-- Slots, each after a marker. -/
def write (m : Marker α) (slots : List (List α)) : List α := slots.flatMap (m.pattern ++ ·)

variable [DecidableEq α]

/-- The text before the first marker and the text after it. -/
def split (m : Marker α) : List α → Option (List α × List α)
  | [] => none
  | c :: cs =>
    if m.pattern.isPrefixOf (c :: cs) then some ([], (c :: cs).drop m.pattern.length)
    else (split m cs).map fun parts ↦ (c :: parts.1, parts.2)

variable {m : Marker α} {p : α → Bool} {text pre rest before after : List α}

/-! ## The first marker -/

theorem eq_of_split (h : split m text = some (before, after)) :
    text = before ++ m.pattern ++ after := by
  induction text generalizing before with
  | nil => cases h
  | cons c cs ih =>
    rw [split] at h
    split_ifs at h with hmatch
    · obtain ⟨rfl, rfl⟩ := Prod.mk.inj (Option.some.inj h)
      obtain ⟨s, hs⟩ := List.isPrefixOf_iff_prefix.mp hmatch
      rw [← hs, List.drop_left, List.nil_append]
    · obtain ⟨⟨before', after'⟩, hsplit, heq⟩ := Option.map_eq_some_iff.mp h
      obtain ⟨rfl, rfl⟩ := Prod.mk.inj heq
      rw [List.cons_append, List.cons_append, ← ih hsplit]

theorem split_eq_none_iff : split m text = none ↔ ¬ m.pattern <:+: text := by
  induction text with
  | nil => exact iff_of_true rfl fun h ↦ List.cons_ne_nil _ _ (List.infix_nil.mp h)
  | cons c cs ih =>
    rw [split, List.infix_cons_iff, not_or, ← List.isPrefixOf_iff_prefix]
    split_ifs with hmatch
    · exact iff_of_false nofun fun h ↦ h.1 hmatch
    · rw [Option.map_eq_none_iff, ih]
      exact (and_iff_right hmatch).symm

theorem not_infix_before (h : split m text = some (before, after)) :
    ¬ m.pattern <:+: before := by
  induction text generalizing before with
  | nil => cases h
  | cons c cs ih =>
    rw [split] at h
    split_ifs at h with hmatch
    · obtain ⟨rfl, -⟩ := Prod.mk.inj (Option.some.inj h)
      exact fun hinfix ↦ List.cons_ne_nil _ _ (List.infix_nil.mp hinfix)
    · obtain ⟨⟨before', after'⟩, hsplit, heq⟩ := Option.map_eq_some_iff.mp h
      obtain ⟨rfl, rfl⟩ := Prod.mk.inj heq
      rw [List.infix_cons_iff, not_or]
      refine ⟨fun hbefore ↦ hmatch (List.isPrefixOf_iff_prefix.mpr (hbefore.trans ?_)), ih hsplit⟩
      rw [eq_of_split hsplit, List.append_assoc]
      exact ⟨_, rfl⟩

theorem length_after_lt (h : split m text = some (before, after)) :
    after.length < text.length := by
  rw [eq_of_split h, List.length_append, List.length_append, Marker.pattern, List.length_cons]
  omega

omit [DecidableEq α] in
theorem prefix_append_sep_iff {c : α} {cs : List α} :
    m.pattern <+: c :: cs ++ m.sep :: rest ↔ m.pattern <+: c :: cs := by
  refine ⟨fun h ↦ ?_, fun h ↦ h.trans (List.prefix_append _ _)⟩
  rcases le_or_gt m.pattern.length (c :: cs).length with hle | hlt
  · exact List.prefix_of_prefix_length_le h (List.prefix_append _ _) hle
  · -- Otherwise the separator would be in the tag.
    have hsep : c :: cs ++ [m.sep] <+: m.pattern := by
      refine List.prefix_of_prefix_length_le ?_ h (by rw [List.length_append]; exact hlt)
      rw [List.append_cons _ m.sep rest]
      exact List.prefix_append _ _
    have htag : cs ++ [m.sep] <+: m.tag := (List.cons_prefix_cons.mp hsep).2
    exact absurd (htag.subset (List.mem_append_right cs (List.mem_singleton_self _))) m.sep_notMem

/-- The first marker of a text with a separator after it is in the text, or after it. -/
theorem split_append_sep (pre rest : List α) :
    split m (pre ++ m.sep :: rest) =
      match split m pre with
      | some (before, after) => some (before, after ++ m.sep :: rest)
      | none => (split m (m.sep :: rest)).map fun parts ↦ (pre ++ parts.1, parts.2) := by
  induction pre with
  | nil =>
    show split m (m.sep :: rest) = (split m (m.sep :: rest)).map id
    rw [Option.map_id, id]
  | cons c cs ih =>
    have hmatch : m.pattern.isPrefixOf (c :: cs ++ m.sep :: rest) =
        m.pattern.isPrefixOf (c :: cs) := by
      rw [Bool.eq_iff_iff, List.isPrefixOf_iff_prefix, List.isPrefixOf_iff_prefix]
      exact prefix_append_sep_iff
    rw [List.cons_append, split, split, ← List.cons_append, hmatch]
    split_ifs with h
    · have hle := (List.isPrefixOf_iff_prefix.mp h).length_le
      rw [List.drop_append_of_le_length hle]
    · rw [ih]
      cases split m cs with
      | some parts => rfl
      | none => cases split m (m.sep :: rest) <;> rfl

/-! ## The fields -/

/-- The fields: after each marker as many characters of a class as there are, and the next marker is
searched after them. -/
def fields (m : Marker α) (p : α → Bool) (text : List α) : List (List α) :=
  match _h : split m text with
  | none => []
  | some (_, rest) => rest.takeWhile p :: fields m p (rest.dropWhile p)
termination_by text.length
decreasing_by
  have hdrop : (rest.dropWhile p).length ≤ rest.length := (List.dropWhile_suffix p).length_le
  have hlt := length_after_lt _h
  omega

theorem fields_of_none (h : split m text = none) : fields m p text = [] := by
  rw [fields]
  split
  · rfl
  · next heq => rw [h] at heq; cases heq

theorem fields_of_some (h : split m text = some (before, after)) :
    fields m p text = after.takeWhile p :: fields m p (after.dropWhile p) := by
  rw [fields]
  split
  · next heq => rw [h] at heq; cases heq
  · next heq =>
    rw [h] at heq
    obtain ⟨rfl, rfl⟩ := Prod.mk.inj (Option.some.inj heq)
    rfl

theorem fields_eq_nil_iff : fields m p text = [] ↔ ¬ m.pattern <:+: text := by
  rw [← split_eq_none_iff]
  cases h : split m text with
  | none => exact iff_of_true (fields_of_none h) rfl
  | some parts =>
    rw [fields_of_some h]
    exact iff_of_false (List.cons_ne_nil _ _) nofun

theorem fields_of_notMem {c : α} (hc : c ∈ m.pattern) (htext : c ∉ text) :
    fields m p text = [] :=
  fields_eq_nil_iff.mpr fun h ↦ htext (h.subset hc)

theorem mem_field {field : List α} (h : field ∈ fields m p text) {c : α} (hc : c ∈ field) :
    p c := by
  induction text using fields.induct m p with
  | case1 text hsplit =>
    rw [fields_of_none hsplit] at h
    exact absurd h List.not_mem_nil
  | case2 text before rest hsplit ih =>
    rw [fields_of_some hsplit] at h
    rcases List.mem_cons.mp h with rfl | h
    · exact List.mem_takeWhile_imp hc
    · exact ih h

omit [DecidableEq α] in
theorem takeWhile_append_sep (hp : p m.sep = false) (text rest : List α) :
    (text ++ m.sep :: rest).takeWhile p = text.takeWhile p ∧
      (text ++ m.sep :: rest).dropWhile p = text.dropWhile p ++ m.sep :: rest := by
  induction text with
  | nil => simp [hp]
  | cons c cs ih =>
    cases hc : p c with
    | false => simp [hc]
    | true => simpa [hc] using ih

/-- **Texts are read one after the other**, if the second one begins with a separator. -/
theorem fields_append_sep (hp : p m.sep = false) (pre rest : List α) :
    fields m p (pre ++ m.sep :: rest) = fields m p pre ++ fields m p (m.sep :: rest) := by
  induction pre using fields.induct m p with
  | case1 pre hsplit =>
    have happend := split_append_sep (m := m) pre rest
    rw [hsplit] at happend
    rw [fields_of_none hsplit, List.nil_append]
    cases hrest : split m (m.sep :: rest) with
    | none =>
      rw [hrest] at happend
      rw [fields_of_none happend, fields_of_none hrest]
    | some parts =>
      rw [hrest] at happend
      rw [fields_of_some happend, fields_of_some hrest]
  | case2 pre before after hsplit ih =>
    have happend := split_append_sep (m := m) pre rest
    rw [hsplit] at happend
    obtain ⟨htake, hdrop⟩ := takeWhile_append_sep hp after rest
    rw [fields_of_some happend, fields_of_some hsplit, htake, hdrop, ih, List.cons_append]

/-! ## Writing -/

theorem fields_pattern_append (slot : List α) :
    fields m p (m.pattern ++ slot) = slot.takeWhile p :: fields m p (slot.dropWhile p) := by
  have hsplit : split m (m.pattern ++ slot) = some ([], slot) := by
    have hprefix : m.pattern.isPrefixOf (m.pattern ++ slot) :=
      List.isPrefixOf_iff_prefix.mpr (List.prefix_append _ _)
    have hcons : m.pattern ++ slot = m.sep :: (m.tag ++ slot) := rfl
    rw [hcons] at hprefix ⊢
    rw [split, if_pos hprefix, ← hcons, List.drop_left]
  exact fields_of_some hsplit

/-- **What is read from slots that were written**: of each slot the characters of the class at its
start, if no slot has all the characters of the marker. -/
theorem fields_write (hp : p m.sep = false) {slots : List (List α)} {c : α} (hc : c ∈ m.pattern)
    (hslots : ∀ slot ∈ slots, c ∉ slot) :
    fields m p (write m slots) = slots.map (List.takeWhile p) := by
  induction slots with
  | nil => exact fields_of_none rfl
  | cons slot slots ih =>
    obtain ⟨hslot, hslots⟩ := List.forall_mem_cons.mp hslots
    have hfirst : fields m p (m.pattern ++ slot) = [slot.takeWhile p] := by
      rw [fields_pattern_append]
      rw [fields_of_notMem hc fun h ↦ hslot ((List.dropWhile_suffix p).subset h)]
    have hwrite : write m (slot :: slots) = m.pattern ++ slot ++ write m slots := rfl
    rw [hwrite, List.map_cons, ← ih hslots]
    cases slots with
    | nil =>
      have hnil : fields m p (write m []) = [] := fields_of_none rfl
      rw [hnil, write, List.flatMap_nil, List.append_nil, hfirst]
    | cons slot' slots =>
      show fields m p (m.pattern ++ slot ++ m.sep :: _) = _
      rw [fields_append_sep hp, hfirst]
      rfl

theorem fields_append_write {m' : Marker α} (hsep : m'.sep = m.sep) (hp : p m.sep = false)
    (pre : List α) (slots : List (List α)) :
    fields m p (pre ++ write m' slots) = fields m p pre ++ fields m p (write m' slots) := by
  cases slots with
  | nil =>
    have hnil : fields m p (write m' []) = [] := fields_of_none rfl
    rw [hnil, List.append_nil]
    exact congrArg (fields m p) (List.append_nil pre)
  | cons slot slots =>
    have hwrite : write m' (slot :: slots) = m.sep :: (m'.tag ++ slot ++ write m' slots) := by
      rw [← hsep]
      rfl
    rw [hwrite]
    exact fields_append_sep hp pre _

omit [DecidableEq α] in
theorem notMem_write {m : Marker α} {slots : List (List α)} {c : α} (hc : c ∉ m.pattern)
    (hslots : ∀ slot ∈ slots, c ∉ slot) : c ∉ write m slots := by
  rw [write, List.mem_flatMap]
  rintro ⟨slot, hslot, hmem⟩
  exact (List.mem_append.mp hmem).elim hc (hslots slot hslot)

omit [DecidableEq α] in
theorem infix_write {m : Marker α} {slots : List (List α)} (h : slots ≠ []) :
    m.pattern <:+: write m slots := by
  obtain ⟨slot, slots, rfl⟩ := List.exists_cons_of_ne_nil h
  exact ⟨[], slot ++ write m slots, by simp [write]⟩

end Marked
