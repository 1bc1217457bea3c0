import ScaffCC.Text.Marked
import ScaffCC.Text.Numeral

/-!
# Names of clones

A function that is cloned for constant arguments gets the constants into its name: four slots for
integers and four for doubles, each after a marker, with a letter in the slots that are empty. The
next run reads the slots back from the name. The digit 8 is missing among the characters of an
integer, and points and signs of doubles have been replaced by characters that do not belong to a
slot.
-/

namespace ScaffCC.Clone

open Marked
open Text (showInt showDouble)

/-! ## The source -/

abbrev Slot := List Char

def IP : Marker Char := ⟨'_', ['I', 'P'], by decide⟩

def DP : Marker Char := ⟨'_', ['D', 'P'], by decide⟩

def isIntChar (c : Char) : Bool := c ∈ ['0', '1', '2', '3', '4', '5', '6', '7', '9', '-', 'x']

def isDoubleChar (c : Char) : Bool :=
  c ∈ ['0', '1', '2', '3', '4', '5', '6', '7', '8', '9', 'e', '.', '-', 'x']

/-- The name without the slots. -/
def originalCore (originalName : List Char) : List Char :=
  match split IP originalName with
  | some (core, _) => core
  | none =>
    match split DP originalName with
    | some (core, _) => core
    | none => originalName

/-- Four empty slots of each kind. -/
def padding : List Char := write IP (List.replicate 4 ['x']) ++ write DP (List.replicate 4 ['x'])

/-- A name that has no slots gets empty ones. -/
def padded (originalName : List Char) : List Char :=
  if originalName = originalCore originalName then originalCore originalName ++ padding
  else originalName

def originalInts (originalName : List Char) : List Slot := fields IP isIntChar (padded originalName)

def originalDoubles (originalName : List Char) : List Slot :=
  fields DP isDoubleChar (padded originalName)

/-- The constants are written over the slots of their parameters. Nothing comes out of a write to a
slot that is not there. -/
def fill {α : Type*} (text : α → Slot) : List Slot → List (Option α) → Option (List Slot)
  | slots, [] => some slots
  | [], none :: values => fill text [] values
  | [], some _ :: _ => none
  | slot :: slots, value :: values => (fill text slots values).map (value.elim slot text :: ·)

/-- Points and signs become separators. -/
def replaced (slot : Slot) : Slot :=
  (slot.map fun c ↦ if c = '.' then '_' else c).map fun c ↦ if c = '-' then '_' else c

def specializedName (core : List Char) (ints doubles : List Slot) : List Char :=
  core ++ (write IP ints ++ write DP (doubles.map replaced))

/-- The slots when the name of the clone is made from constant arguments, by their places among the
integers and among the doubles. -/
def slots (originalName : List Char) (ints : List (Option ℤ)) (doubles : List (Option ℚ)) :
    Option (List Slot × List Slot) := do
  let filledInts ← fill showInt (originalInts originalName) ints
  let filledDoubles ← fill showDouble (originalDoubles originalName) doubles
  return (filledInts, filledDoubles)

/-- The next run reads the slots from the name of the clone. -/
def Survives (originalName : List Char) (ints : List (Option ℤ)) (doubles : List (Option ℚ)) :
    Prop :=
  ∃ filledInts filledDoubles, slots originalName ints doubles = some (filledInts, filledDoubles) ∧
    let clone := specializedName (originalCore originalName) filledInts filledDoubles
    originalInts clone = filledInts ∧ originalDoubles clone = filledDoubles

/-! ## When the slots are read back -/

/-- Each constant has a slot, integers have no digit 8, doubles have only digits, and what else is
in the name does not look like a slot for a double that is not read back. -/
structure Survivable (originalName : List Char) (ints : List (Option ℤ))
    (doubles : List (Option ℚ)) : Prop where
  ints_fit : ∀ (k : ℕ) z, ints[k]? = some (some z) → k < (originalInts originalName).length
  doubles_fit : ∀ (k : ℕ) q, doubles[k]? = some (some q) → k < (originalDoubles originalName).length
  notMem_eight : ∀ z, some z ∈ ints → '8' ∉ showInt z
  digits : ∀ q, some q ∈ doubles → ∀ c ∈ showDouble q, c.isDigit
  core : ¬ DP.pattern <:+: originalCore originalName
  kept : ∀ (k : ℕ) (slot : Slot), (originalDoubles originalName)[k]? = some slot →
    (∀ q, doubles[k]? ≠ some (some q)) → '.' ∉ slot ∧ '-' ∉ slot

/-! ## Filling -/

section Fill

variable {α : Type*} {text : α → Slot} {table filled : List Slot} {values : List (Option α)}

theorem fill_isSome_iff :
    (fill text table values).isSome ↔
      ∀ (k : ℕ) v, values[k]? = some (some v) → k < table.length := by
  induction values generalizing table with
  | nil => simp [fill]
  | cons value values ih =>
    cases table with
    | nil =>
      cases value with
      | none =>
        rw [fill, ih]
        constructor
        · rintro h (_ | k) v hk
          · cases hk
          · exact absurd (h k v hk) (Nat.not_lt_zero k)
        · intro h k v hk
          exact absurd (h (k + 1) v hk) (Nat.not_lt_zero _)
      | some v => exact iff_of_false nofun fun h ↦ Nat.not_lt_zero 0 (h 0 v rfl)
    | cons slot table =>
      rw [fill, Option.isSome_map, ih]
      constructor
      · rintro h (_ | k) v hk
        · exact Nat.succ_pos _
        · exact Nat.succ_lt_succ (h k v hk)
      · intro h k v hk
        exact Nat.lt_of_succ_lt_succ (h (k + 1) v hk)

theorem length_fill (h : fill text table values = some filled) : filled.length = table.length := by
  induction values generalizing table filled with
  | nil =>
    rw [fill] at h
    rw [Option.some.inj h]
  | cons value values ih =>
    cases table with
    | nil =>
      cases value with
      | none => exact ih h
      | some v => cases h
    | cons slot table =>
      rw [fill] at h
      obtain ⟨filled', hfill, rfl⟩ := Option.map_eq_some_iff.mp h
      exact congrArg Nat.succ (ih hfill)

/-- **What holds of the filled slots**: it holds of the texts of the constants and of the slots that
stay. -/
theorem forall_mem_fill_iff {P : Slot → Prop} (h : fill text table values = some filled) :
    (∀ slot ∈ filled, P slot) ↔ (∀ v, some v ∈ values → P (text v)) ∧
      ∀ (k : ℕ) slot, table[k]? = some slot → (∀ v, values[k]? ≠ some (some v)) → P slot := by
  induction values generalizing table filled with
  | nil =>
    rw [fill] at h
    obtain rfl := Option.some.inj h
    simp only [List.mem_iff_getElem?]
    constructor
    · exact fun hall ↦ ⟨by simp, fun k slot hk _ ↦ hall slot ⟨k, hk⟩⟩
    · rintro ⟨-, hall⟩ slot ⟨k, hk⟩
      exact hall k slot hk (by simp)
  | cons value values ih =>
    cases table with
    | nil =>
      cases value with
      | none =>
        rw [ih h]
        simp
      | some v => cases h
    | cons slot table =>
      rw [fill] at h
      obtain ⟨filled', hfill, rfl⟩ := Option.map_eq_some_iff.mp h
      rw [List.forall_mem_cons, ih hfill]
      -- The tables go on in the same way; what is left is the first slot.
      have hstays : (∀ (k : ℕ) slot', (slot :: table)[k]? = some slot' →
          (∀ v, (value :: values)[k]? ≠ some (some v)) → P slot') ↔
          ((∀ v, value ≠ some v) → P slot) ∧ ∀ (k : ℕ) slot', table[k]? = some slot' →
            (∀ v, values[k]? ≠ some (some v)) → P slot' := by
        constructor
        · intro hall
          exact ⟨fun hne ↦ hall 0 slot rfl fun v hv ↦ hne v (Option.some.inj hv),
            fun k slot' hk hne ↦ hall (k + 1) slot' hk hne⟩
        · rintro ⟨hfirst, hall⟩ (_ | k) slot' hk hne
          · rw [← Option.some.inj hk]
            exact hfirst fun v hv ↦ hne v (congrArg some hv)
          · exact hall k slot' hk hne
      rw [hstays]
      cases value with
      | none => simp [and_left_comm]
      | some v => simp [and_assoc]

end Fill

/-! ## The texts of the constants -/

theorem mem_of_isDigit {c : Char} (h : c.isDigit) :
    c ∈ ['0', '1', '2', '3', '4', '5', '6', '7', '8', '9'] := by
  simp only [Char.isDigit, Bool.and_eq_true, decide_eq_true_eq, ge_iff_le,
    UInt32.le_iff_toNat_le] at h
  obtain ⟨hlow, hhigh⟩ : 48 ≤ c.toNat ∧ c.toNat ≤ 57 := h
  have hdigits : ∀ k < 10, Char.ofNat (48 + k) ∈
      ['0', '1', '2', '3', '4', '5', '6', '7', '8', '9'] := by decide
  have hc := hdigits (c.toNat - 48) (by omega)
  rwa [show 48 + (c.toNat - 48) = c.toNat by omega, Char.ofNat_toNat] at hc

def IntSlot (slot : Slot) : Prop := ∀ c ∈ slot, isIntChar c

def DoubleSlot (slot : Slot) : Prop := ∀ c ∈ slot, isDoubleChar c ∧ c ≠ '.' ∧ c ≠ '-'

theorem intSlot_showInt_iff (z : ℤ) : IntSlot (showInt z) ↔ '8' ∉ showInt z := by
  constructor
  · exact fun h h8 ↦ absurd (h '8' h8) (by decide)
  · intro h c hc
    rcases Text.mem_showInt hc with hdigit | rfl
    · have hne : c ≠ '8' := fun h8 ↦ h (h8 ▸ hc)
      have hmem := mem_of_isDigit hdigit
      simp only [List.mem_cons, List.not_mem_nil, or_false] at hmem
      rcases hmem with rfl | rfl | rfl | rfl | rfl | rfl | rfl | rfl | rfl | rfl <;>
        first | decide | exact absurd rfl hne
    · decide

theorem sign_mem_of_e_mem {q : ℚ} (h : 'e' ∈ showDouble q) :
    '+' ∈ showDouble q ∨ '-' ∈ showDouble q := by
  have hdigits : ∀ {ds : List Char} {e : ℤ}, (∀ c ∈ ds, c.isDigit) →
      'e' ∈ Text.showDigits ds e → '+' ∈ Text.showDigits ds e ∨ '-' ∈ Text.showDigits ds e := by
    intro ds e hds he
    have hfraction : ∀ {ds' : List Char}, (∀ c ∈ ds', c.isDigit) → 'e' ∉ Text.fraction ds' := by
      intro ds' hds' hmem
      rcases Text.mem_fraction hmem with hmem | heq
      · exact absurd (hds' _ hmem) (by decide)
      · exact absurd heq (by decide)
    have hno : 'e' ∉ ds := fun hmem ↦ absurd (hds _ hmem) (by decide)
    rw [Text.showDigits] at he ⊢
    split_ifs at he ⊢ with hexp hneg
    · have hsign : '+' ∈ Text.exponent e ∨ '-' ∈ Text.exponent e := by
        rw [Text.exponent]
        by_cases hneg : e < 0 <;> simp [hneg]
      exact hsign.imp (List.mem_append_right _) (List.mem_append_right _)
    · exfalso
      rcases List.mem_cons.mp he with he | he
      · exact absurd he (by decide)
      · refine hfraction (fun c hc ↦ ?_) he
        rcases List.mem_append.mp hc with hc | hc
        · rw [List.eq_of_mem_replicate hc]
          decide
        · exact hds c hc
    · exfalso
      rcases List.mem_append.mp he with he | he
      · exact hno (List.mem_of_mem_take he)
      · exact hfraction (fun c hc ↦ hds c (List.mem_of_mem_drop hc)) he
  have hsig : ∀ c ∈ Nat.toDigits 10 (Text.significand |q|).1, c.isDigit := fun c hc ↦
    Nat.isDigit_of_mem_toDigits (by decide) le_rfl hc
  rw [showDouble] at h ⊢
  split_ifs at h ⊢ with hzero hneg
  · exact absurd h (by decide)
  · exact .inr List.mem_cons_self
  · exact hdigits hsig h

theorem doubleSlot_showDouble_iff (q : ℚ) :
    DoubleSlot (showDouble q) ↔ ∀ c ∈ showDouble q, c.isDigit := by
  constructor
  · intro h c hc
    have hminus : '-' ∉ showDouble q := fun hmem ↦ (h _ hmem).2.2 rfl
    have hplus : '+' ∉ showDouble q := fun hmem ↦ absurd (h _ hmem).1 (by decide)
    rcases Text.mem_showDouble hc with hdigit | rfl | rfl | rfl | rfl
    · exact hdigit
    · exact absurd hc hminus
    · exact absurd hc hplus
    · exact absurd rfl (h _ hc).2.1
    · exact absurd (sign_mem_of_e_mem hc) (not_or.mpr ⟨hplus, hminus⟩)
  · intro h c hc
    have hmem := mem_of_isDigit (h c hc)
    simp only [List.mem_cons, List.not_mem_nil, or_false] at hmem
    rcases hmem with rfl | rfl | rfl | rfl | rfl | rfl | rfl | rfl | rfl | rfl <;> decide

theorem replaced_eq_self_iff (slot : Slot) : replaced slot = slot ↔ '.' ∉ slot ∧ '-' ∉ slot := by
  induction slot with
  | nil => simp [replaced]
  | cons c cs ih =>
    have hcons : replaced (c :: cs) =
        (if (if c = '.' then '_' else c) = '-' then '_' else if c = '.' then '_' else c) ::
          replaced cs := rfl
    rw [hcons, List.cons.injEq, ih, List.mem_cons, List.mem_cons, not_or, not_or]
    by_cases hpoint : c = '.'
    · subst hpoint
      exact iff_of_false (fun h ↦ absurd h.1 (by decide)) fun h ↦ h.1.1 rfl
    · by_cases hminus : c = '-'
      · subst hminus
        exact iff_of_false (fun h ↦ absurd h.1 (by decide)) fun h ↦ h.2.1 rfl
      · rw [if_neg hpoint, if_neg hminus]
        constructor
        · exact fun h ↦ ⟨⟨Ne.symm hpoint, h.2.1⟩, Ne.symm hminus, h.2.2⟩
        · exact fun h ↦ ⟨rfl, h.1.2, h.2.2⟩

theorem takeWhile_replaced_iff (slot : Slot) :
    (replaced slot).takeWhile isDoubleChar = slot ↔ DoubleSlot slot := by
  have hlen : (replaced slot).length = slot.length := by simp [replaced]
  constructor
  · intro h
    have hall : (replaced slot).takeWhile isDoubleChar = replaced slot :=
      (List.takeWhile_prefix _).eq_of_length (by rw [h, hlen])
    rw [hall] at h
    obtain ⟨hpoint, hminus⟩ := (replaced_eq_self_iff slot).mp h
    rw [h, List.takeWhile_eq_self_iff] at hall
    exact fun c hc ↦ ⟨hall c hc, fun heq ↦ hpoint (heq ▸ hc), fun heq ↦ hminus (heq ▸ hc)⟩
  · intro h
    have heq := (replaced_eq_self_iff slot).mpr
      ⟨fun hc ↦ (h _ hc).2.1 rfl, fun hc ↦ (h _ hc).2.2 rfl⟩
    rw [heq, List.takeWhile_eq_self_iff]
    exact fun c hc ↦ (h c hc).1

/-! ## The name -/

def HasSlot (name : List Char) : Prop := IP.pattern <:+: name ∨ DP.pattern <:+: name

variable {name : List Char}

theorem eq_originalCore_iff : name = originalCore name ↔ ¬ HasSlot name := by
  have hshort : ∀ {m : Marker Char} {core rest : List Char}, split m name = some (core, rest) →
      name ≠ core := by
    intro m core rest h heq
    have hlen := congrArg List.length (eq_of_split h)
    rw [List.length_append, List.length_append, Marker.pattern, List.length_cons, ← heq] at hlen
    omega
  rw [HasSlot, not_or, ← split_eq_none_iff, ← split_eq_none_iff, originalCore]
  cases hIP : split IP name with
  | some parts => exact iff_of_false (hshort hIP) fun h ↦ Option.some_ne_none _ h.1
  | none =>
    cases hDP : split DP name with
    | some parts => exact iff_of_false (hshort hDP) fun h ↦ Option.some_ne_none _ h.2
    | none => exact iff_of_true rfl ⟨rfl, rfl⟩

theorem not_infix_originalCore (name : List Char) : ¬ IP.pattern <:+: originalCore name := by
  rw [originalCore]
  cases hIP : split IP name with
  | some parts => exact not_infix_before hIP
  | none =>
    have hname := split_eq_none_iff.mp hIP
    cases hDP : split DP name with
    | some parts =>
      refine fun h ↦ hname (h.trans ?_)
      rw [eq_of_split hDP, List.append_assoc]
      exact (List.prefix_append _ _).isInfix
    | none => exact hname

theorem padded_of_hasSlot (h : HasSlot name) : padded name = name :=
  if_neg fun heq ↦ eq_originalCore_iff.mp heq h

theorem hasSlot_padded (name : List Char) : HasSlot (padded name) := by
  by_cases h : HasSlot name
  · rwa [padded_of_hasSlot h]
  · rw [padded, if_pos (eq_originalCore_iff.mpr h)]
    have hpadding : IP.pattern <:+: padding :=
      (infix_write (by decide)).trans (List.prefix_append _ _).isInfix
    exact .inl (hpadding.trans (List.suffix_append _ _).isInfix)

theorem slots_ne_nil (name : List Char) :
    originalInts name ≠ [] ∨ originalDoubles name ≠ [] :=
  (hasSlot_padded name).imp (fun h heq ↦ fields_eq_nil_iff.mp heq h)
    fun h heq ↦ fields_eq_nil_iff.mp heq h

/-! ## Reading the name of a clone -/

/-- No letters of the markers are in the slot. -/
def Plain (slot : Slot) : Prop := 'I' ∉ slot ∧ 'D' ∉ slot

theorem plain_of_isNumeralChar {slot : Slot} (h : ∀ c ∈ slot, Text.IsNumeralChar c) :
    Plain slot := by
  constructor <;> intro hc <;> rcases h _ hc with hc | hc | hc | hc | hc <;>
    exact absurd hc (by decide)

theorem plain_replaced {slot : Slot} (h : Plain slot) : Plain (replaced slot) := by
  have hmem : ∀ c ∈ replaced slot, c ∈ slot ∨ c = '_' := by
    intro c hc
    obtain ⟨c', hc', rfl⟩ := List.mem_map.mp hc
    obtain ⟨c'', hslot, rfl⟩ := List.mem_map.mp hc'
    split_ifs
    exacts [.inr rfl, .inr rfl, .inr rfl, .inl hslot]
  exact ⟨fun hI ↦ (hmem _ hI).elim h.1 (by decide), fun hD ↦ (hmem _ hD).elim h.2 (by decide)⟩

variable {ints : List (Option ℤ)} {doubles : List (Option ℚ)} {filledInts filledDoubles : List Slot}

/-- Numerals, and what is read of the slots of a name, are free of the letters of the markers. -/
theorem plain_filled {α : Type*} {show' : α → Slot} {m : Marker Char} {p : Char → Bool}
    {values : List (Option α)} {filled : List Slot} (hI : p 'I' = false) (hD : p 'D' = false)
    (hshow : ∀ a, ∀ c ∈ show' a, Text.IsNumeralChar c)
    (h : fill show' (fields m p name) values = some filled) : ∀ slot ∈ filled, Plain slot := by
  refine (forall_mem_fill_iff h).mpr ⟨fun a _ ↦ plain_of_isNumeralChar (hshow a),
    fun k slot hk _ ↦ ?_⟩
  have hmem := List.mem_of_getElem? hk
  exact ⟨fun hmemI ↦ Bool.false_ne_true (hI ▸ mem_field hmem hmemI),
    fun hmemD ↦ Bool.false_ne_true (hD ▸ mem_field hmem hmemD)⟩

theorem plain_filledInts (h : fill showInt (originalInts name) ints = some filledInts) :
    ∀ slot ∈ filledInts, Plain slot :=
  plain_filled rfl rfl (fun _ _ hc ↦ (Text.mem_showInt hc).imp_right .inl) h

theorem plain_filledDoubles
    (h : fill showDouble (originalDoubles name) doubles = some filledDoubles) :
    ∀ slot ∈ filledDoubles, Plain slot :=
  plain_filled rfl rfl (fun _ _ hc ↦ Text.mem_showDouble hc) h

theorem fields_parts {m : Marker Char} {p : Char → Bool} (hm : m.sep = '_') (hp : p '_' = false)
    (core : List Char) (ints doubles : List Slot) :
    fields m p (core ++ write IP ints ++ write DP doubles) =
      fields m p core ++ fields m p (write IP ints) ++ fields m p (write DP doubles) := by
  have hsep : p m.sep = false := by rw [hm, hp]
  rw [fields_append_write (show DP.sep = m.sep from hm.symm) hsep,
    fields_append_write (show IP.sep = m.sep from hm.symm) hsep]

/-- **What the next run reads.** -/
theorem read_specializedName (core : List Char) (hcore : ¬ IP.pattern <:+: core)
    (hints : ∀ slot ∈ filledInts, Plain slot) (hdoubles : ∀ slot ∈ filledDoubles, Plain slot)
    (hne : filledInts ≠ [] ∨ filledDoubles ≠ []) :
    originalInts (specializedName core filledInts filledDoubles) =
        filledInts.map (List.takeWhile isIntChar) ∧
      originalDoubles (specializedName core filledInts filledDoubles) =
        fields DP isDoubleChar core ++
          filledDoubles.map fun slot ↦ (replaced slot).takeWhile isDoubleChar := by
  have hreplaced : ∀ slot ∈ filledDoubles.map replaced, Plain slot := by
    rw [List.forall_mem_map]
    exact fun slot hslot ↦ plain_replaced (hdoubles slot hslot)
  have hassoc : specializedName core filledInts filledDoubles =
      core ++ write IP filledInts ++ write DP (filledDoubles.map replaced) :=
    (List.append_assoc ..).symm
  have hslot : HasSlot (specializedName core filledInts filledDoubles) := by
    rw [hassoc]
    rcases hne with hne | hne
    · exact .inl ((infix_write hne).trans ⟨core, write DP (filledDoubles.map replaced), rfl⟩)
    · have hmap : filledDoubles.map replaced ≠ [] := fun h ↦ hne (List.map_eq_nil_iff.mp h)
      exact .inr ((infix_write hmap).trans (List.suffix_append _ _).isInfix)
  rw [originalInts, originalDoubles, padded_of_hasSlot hslot, hassoc]
  constructor
  · have hread : fields IP isIntChar (write IP filledInts) =
        filledInts.map (List.takeWhile isIntChar) :=
      fields_write rfl (show 'I' ∈ IP.pattern by decide) fun slot hs ↦ (hints slot hs).1
    have hnone : fields IP isIntChar (write DP (filledDoubles.map replaced)) = [] :=
      fields_of_notMem (show 'I' ∈ IP.pattern by decide)
        (notMem_write (by decide) fun slot hs ↦ (hreplaced slot hs).1)
    rw [fields_parts rfl rfl, fields_eq_nil_iff.mpr hcore, hread, hnone, List.nil_append,
      List.append_nil]
  · have hread : fields DP isDoubleChar (write DP (filledDoubles.map replaced)) =
        (filledDoubles.map replaced).map (List.takeWhile isDoubleChar) :=
      fields_write rfl (show 'D' ∈ DP.pattern by decide) fun slot hs ↦ (hreplaced slot hs).2
    have hnone : fields DP isDoubleChar (write IP filledInts) = [] :=
      fields_of_notMem (show 'D' ∈ DP.pattern by decide)
        (notMem_write (by decide) fun slot hs ↦ (hints slot hs).2)
    rw [fields_parts rfl rfl, hread, hnone, List.append_nil, List.map_map]
    rfl

/-! ## The result -/

theorem map_eq_self_iff {f : Slot → Slot} (l : List Slot) :
    l.map f = l ↔ ∀ slot ∈ l, f slot = slot := by
  induction l with
  | nil => exact iff_of_true rfl nofun
  | cons slot l ih => rw [List.map_cons, List.cons.injEq, ih, List.forall_mem_cons]

theorem read_eq_iff (hints : fill showInt (originalInts name) ints = some filledInts)
    (hdoubles : fill showDouble (originalDoubles name) doubles = some filledDoubles) :
    (originalInts (specializedName (originalCore name) filledInts filledDoubles) = filledInts ∧
      originalDoubles (specializedName (originalCore name) filledInts filledDoubles) =
        filledDoubles) ↔
      (∀ slot ∈ filledInts, IntSlot slot) ∧ ¬ DP.pattern <:+: originalCore name ∧
        ∀ slot ∈ filledDoubles, DoubleSlot slot := by
  have hne : filledInts ≠ [] ∨ filledDoubles ≠ [] := by
    refine (slots_ne_nil name).imp (fun h heq ↦ h ?_) fun h heq ↦ h ?_
    · exact List.eq_nil_of_length_eq_zero (by rw [← length_fill hints, heq, List.length_nil])
    · exact List.eq_nil_of_length_eq_zero (by rw [← length_fill hdoubles, heq, List.length_nil])
  obtain ⟨hreadInts, hreadDoubles⟩ := read_specializedName (originalCore name)
    (not_infix_originalCore name) (plain_filledInts hints) (plain_filledDoubles hdoubles) hne
  rw [hreadInts, hreadDoubles, map_eq_self_iff]
  simp only [List.takeWhile_eq_self_iff]
  refine and_congr_right fun _ ↦ ?_
  rw [← fields_eq_nil_iff (p := isDoubleChar)]
  constructor
  · intro h
    -- A slot before the slots would be one too many.
    have hcore : fields DP isDoubleChar (originalCore name) = [] := by
      have hlen := congrArg List.length h
      rw [List.length_append, List.length_map] at hlen
      exact List.eq_nil_of_length_eq_zero (by omega)
    rw [hcore, List.nil_append, map_eq_self_iff] at h
    exact ⟨hcore, fun slot hslot ↦ (takeWhile_replaced_iff slot).mp (h slot hslot)⟩
  · rintro ⟨hcore, h⟩
    rw [hcore, List.nil_append, map_eq_self_iff]
    exact fun slot hslot ↦ (takeWhile_replaced_iff slot).mpr (h slot hslot)

/-- **When the slots survive** the name. -/
theorem survives_iff (name : List Char) (ints : List (Option ℤ)) (doubles : List (Option ℚ)) :
    Survives name ints doubles ↔ Survivable name ints doubles := by
  have hkeptInts : ∀ (k : ℕ) slot, (originalInts name)[k]? = some slot →
      (∀ z, ints[k]? ≠ some (some z)) → IntSlot slot :=
    fun k slot hk _ c hc ↦ mem_field (List.mem_of_getElem? hk) hc
  have hkeptDoubles : (∀ (k : ℕ) slot, (originalDoubles name)[k]? = some slot →
      (∀ q, doubles[k]? ≠ some (some q)) → DoubleSlot slot) ↔
      ∀ (k : ℕ) slot, (originalDoubles name)[k]? = some slot →
        (∀ q, doubles[k]? ≠ some (some q)) → '.' ∉ slot ∧ '-' ∉ slot := by
    refine forall₄_congr fun k slot hk _ ↦ ⟨fun h ↦ ?_, fun h c hc ↦ ?_⟩
    · exact ⟨fun hc ↦ (h _ hc).2.1 rfl, fun hc ↦ (h _ hc).2.2 rfl⟩
    · exact ⟨mem_field (List.mem_of_getElem? hk) hc, fun heq ↦ h.1 (heq ▸ hc),
        fun heq ↦ h.2 (heq ▸ hc)⟩
  constructor
  · rintro ⟨filledInts, filledDoubles, hslots, hread⟩
    obtain ⟨_, hints, hrest⟩ := Option.bind_eq_some_iff.mp hslots
    obtain ⟨_, hdoubles, heq⟩ := Option.bind_eq_some_iff.mp hrest
    obtain ⟨rfl, rfl⟩ := Prod.mk.inj (Option.some.inj heq)
    obtain ⟨hallInts, hcore, hallDoubles⟩ := (read_eq_iff hints hdoubles).mp hread
    obtain ⟨hconsts, -⟩ := (forall_mem_fill_iff hints).mp hallInts
    obtain ⟨hconsts', hkept⟩ := (forall_mem_fill_iff hdoubles).mp hallDoubles
    exact ⟨fill_isSome_iff.mp (Option.isSome_of_eq_some hints),
      fill_isSome_iff.mp (Option.isSome_of_eq_some hdoubles),
      fun z hz ↦ (intSlot_showInt_iff z).mp (hconsts z hz),
      fun q hq ↦ (doubleSlot_showDouble_iff q).mp (hconsts' q hq), hcore, hkeptDoubles.mp hkept⟩
  · intro h
    obtain ⟨filledInts, hints⟩ := Option.isSome_iff_exists.mp (fill_isSome_iff.mpr h.ints_fit)
    obtain ⟨filledDoubles, hdoubles⟩ :=
      Option.isSome_iff_exists.mp (fill_isSome_iff.mpr h.doubles_fit)
    refine ⟨filledInts, filledDoubles, ?_, (read_eq_iff hints hdoubles).mpr ⟨?_, h.core, ?_⟩⟩
    · rw [slots, hints, hdoubles]
      rfl
    · exact (forall_mem_fill_iff hints).mpr
        ⟨fun z hz ↦ (intSlot_showInt_iff z).mpr (h.notMem_eight z hz), hkeptInts⟩
    · exact (forall_mem_fill_iff hdoubles).mpr
        ⟨fun q hq ↦ (doubleSlot_showDouble_iff q).mpr (h.digits q hq), hkeptDoubles.mpr h.kept⟩

/-- The digit 8 is not read back. -/
theorem not_survives_eight : ¬ Survives ['f'] [some 8] [] := by
  rintro ⟨filledInts, filledDoubles, hslots, hread⟩
  obtain ⟨_, hints, hrest⟩ := Option.bind_eq_some_iff.mp hslots
  obtain ⟨_, hdoubles, heq⟩ := Option.bind_eq_some_iff.mp hrest
  obtain ⟨rfl, rfl⟩ := Prod.mk.inj (Option.some.inj heq)
  obtain ⟨hall, -⟩ := (read_eq_iff hints hdoubles).mp hread
  have height := ((forall_mem_fill_iff hints).mp hall).1 8 List.mem_cons_self '8' (by decide)
  exact absurd height (by decide)

/-! ## Names that have no slots yet -/

theorem slots_of_not_hasSlot (h : ¬ HasSlot name) :
    originalInts name = List.replicate 4 ['x'] ∧ originalDoubles name = List.replicate 4 ['x'] := by
  have hname := eq_originalCore_iff.mpr h
  obtain ⟨hIP, hDP⟩ := not_or.mp h
  have hpadded : padded name = name ++ write IP (List.replicate 4 ['x']) ++
      write DP (List.replicate 4 ['x']) := by
    rw [padded, if_pos hname, ← hname, padding, List.append_assoc]
  have hplain : ∀ slot ∈ List.replicate 4 ['x'], Plain slot := by
    intro slot hslot
    rw [List.eq_of_mem_replicate hslot]
    exact ⟨by decide, by decide⟩
  rw [originalInts, originalDoubles, hpadded]
  constructor
  · rw [fields_parts rfl rfl, fields_eq_nil_iff.mpr hIP,
      fields_write rfl (show 'I' ∈ IP.pattern by decide) fun slot hs ↦ (hplain slot hs).1,
      fields_of_notMem (show 'I' ∈ IP.pattern by decide)
        (notMem_write (by decide) fun slot hs ↦ (hplain slot hs).1)]
    rfl
  · rw [fields_parts rfl rfl, fields_eq_nil_iff.mpr hDP,
      fields_write rfl (show 'D' ∈ DP.pattern by decide) fun slot hs ↦ (hplain slot hs).2,
      fields_of_notMem (show 'D' ∈ DP.pattern by decide)
        (notMem_write (by decide) fun slot hs ↦ (hplain slot hs).2)]
    rfl

/-- **For a name without slots** it is the constants that decide. -/
theorem survivable_iff (h : ¬ HasSlot name) (hints : ints.length ≤ 4)
    (hdoubles : doubles.length ≤ 4) : Survivable name ints doubles ↔
      (∀ z, some z ∈ ints → '8' ∉ showInt z) ∧
        ∀ q, some q ∈ doubles → ∀ c ∈ showDouble q, c.isDigit := by
  obtain ⟨hIP, hDP⟩ := slots_of_not_hasSlot h
  have hfit : ∀ {α : Type} {values : List (Option α)}, values.length ≤ 4 →
      ∀ (k : ℕ) v, values[k]? = some (some v) → k < (List.replicate 4 ['x']).length := by
    intro α values hlen k v hk
    obtain ⟨hlt, -⟩ := List.getElem?_eq_some_iff.mp hk
    rw [List.length_replicate]
    omega
  refine ⟨fun hs ↦ ⟨hs.notMem_eight, hs.digits⟩, fun hs ↦ ⟨?_, ?_, hs.1, hs.2, ?_, ?_⟩⟩
  · rw [hIP]
    exact hfit hints
  · rw [hDP]
    exact hfit hdoubles
  · rw [← eq_originalCore_iff.mpr h]
    exact (not_or.mp h).2
  · rw [hDP]
    intro k slot hk _
    rw [List.eq_of_mem_replicate (List.mem_of_getElem? hk)]
    exact ⟨by decide, by decide⟩

end ScaffCC.Clone
