import ScaffCC.IR.Gate
import ScaffCC.OpenQasm.Print
import ScaffCC.Text.Decimal

/-!
# Decomposed rotations

The pass `Rotations` replaces each call of `Rz` with a constant angle by a call of a function that
has a sequence of gates in its place. There is one such function for each name, and the name is the
angle in scientific notation, with the characters replaced that an identifier cannot have. The gates
come from a program outside the compiler, which is given the angle as a text.

Both texts are rounded. So one function serves all the angles that agree in seven significant
digits, and the program is asked for a rounded angle. The function is made before the program is
looked for: without one the first call with a name stays as it is, and the later ones are replaced
by calls of a function without gates.
-/

namespace ScaffCC.Rotations

open OpenQasm (Word find)
open Text

/-! ## Angles -/

inductive Double
  | finite (q : ℚ)
  | inf (negative : Bool)
  | nan
  deriving DecidableEq

/-- The text of a double on a stream of the compiler. -/
def rawText : Double → Word
  | .finite q => showExp q
  | .inf _ => "INF".toList
  | .nan => "nan".toList

/-- The text of a double on a stream of the standard library, where `show_` writes the finite
ones. -/
def streamText (show_ : ℚ → Word) : Double → Word
  | .finite q => show_ q
  | .inf false => "inf".toList
  | .inf true => "-inf".toList
  | .nan => "nan".toList

def readAngle (w : Word) : Double :=
  if w = "inf".toList then .inf false
  else if w = "-inf".toList then .inf true
  else if w = "nan".toList then .nan
  else .finite (readDecimal w)

/-! ## Names -/

/-- A character of a name, if it is kept. -/
def sanitizeChar : Char → Option Char
  | '-' => some 'n'
  | '+' => none
  | '.' => some '_'
  | '"' => none
  | c => some c

def sanitize (w : Word) : Word := w.filterMap sanitizeChar

def FuncName (Angle : Double) : Word :=
  sanitize ("DecomposeRotation_".toList ++ rawText Angle)

/-! ## The program that decomposes -/

/-- The programs the pass can call. -/
inductive Decomposer
  | gridsynth
  | sqct
  deriving DecidableEq

/-- The environment variables and the option the pass reads. -/
structure Environment where
  ROTATIONPATH : Option Word
  PRECISION : Option Word
  SqctLevels : ℕ

/-- The path of the program, and which one it is. -/
def Environment.decomposer (env : Environment) : Option (Word × Decomposer) :=
  match env.ROTATIONPATH with
  | none => none
  | some path =>
    if find "gridsynth".toList path then some (path, .gridsynth)
    else if find "sqct".toList path then some (path, .sqct)
    else none

def Decomposer.angleText : Decomposer → Double → Word
  | .gridsynth => streamText showFixed
  | .sqct => streamText showDouble

/-- The command for a text of an angle. -/
def Environment.command (env : Environment) (path : Word) (angle : Word) : Decomposer → Word
  | .gridsynth =>
    path ++ " \"(".toList ++ angle ++ ")\"".toList ++ " -d ".toList ++ env.PRECISION.getD []
  | .sqct => path ++ " ".toList ++ angle ++ " Z ".toList ++ Nat.toDigits 10 env.SqctLevels

/-- The gate for a letter of the output. -/
def gate : Char → Option Gate1
  | 'T' => some .T
  | 't' => some .Tdag
  | 'S' => some .S
  | 's' => some .Sdag
  | 'H' => some .H
  | 'X' => some .X
  | 'Y' => some .Y
  | 'Z' => some .Z
  | _ => none

/-- The gates for the output, whose last character is not read, from its end. -/
def gates (circuit : Word) : List Gate1 := circuit.dropLast.reverse.filterMap gate

/-! ## The pass -/

structure RzCall (ι : Type*) where
  Target : ι
  Angle : Option Double

/-- What a call becomes. -/
inductive Result (ι : Type*)
  | kept
  | erased
  | call (FuncName : Word) (Target : ι)

/-- A function the pass has made, with the text of the angle it was decomposed for. There is none,
and no gate, where no program was found. -/
structure Decomposed where
  name : Word
  angle : Option Word
  body : List Gate1

variable {ι : Type*}

/-- A call is visited in a module that has functions with the names `declared`, and those the pass
has made so far. The output of a command is `exec`. -/
def visitCallInst (env : Environment) (exec : Word → Word) (declared : List Word)
    (made : List Decomposed) (I : RzCall ι) : List Decomposed × Result ι :=
  match I.Angle with
  | none => (made, .kept)
  | some Angle =>
    if Angle = .finite 0 then (made, .erased)
    else if declared.contains (FuncName Angle) ||
      (made.map Decomposed.name).contains (FuncName Angle)
    then (made, .call (FuncName Angle) I.Target)
    else
      match env.decomposer with
      -- the empty function stays in the module, and the call stays as it is
      | none => (made ++ [⟨FuncName Angle, none, []⟩], .kept)
      | some (path, d) =>
        let angle := d.angleText Angle
        (made ++ [⟨FuncName Angle, some angle, gates (exec (env.command path angle d))⟩],
          .call (FuncName Angle) I.Target)

/-- The calls of a module are visited in their order. -/
def runOnModule (env : Environment) (exec : Word → Word) (declared : List Word) :
    List Decomposed → List (RzCall ι) → List Decomposed × List (Result ι)
  | made, [] => (made, [])
  | made, I :: calls =>
    let (made', r) := visitCallInst env exec declared made I
    let (made'', rs) := runOnModule env exec declared made' calls
    (made'', r :: rs)

/-! ## What is read from the texts -/

/-- An angle as the text for a program has it. -/
def Decomposer.rounded : Decomposer → Double → Double
  | .gridsynth, .finite q => .finite (sixDecimals q)
  | .sqct, .finite q => .finite (sixDigits q)
  | _, a => a

/-- An angle as a name has it. Both infinities have the same name. -/
def keyed : Double → Double
  | .finite q => .finite (sevenDigits q)
  | .inf _ => .inf false
  | .nan => .nan

private theorem n_notMem {w : Word} (h : ∀ c ∈ w, IsNumeralChar c) : 'n' ∉ w := fun hn ↦
  absurd (h 'n' hn) (by unfold IsNumeralChar; decide)

private theorem readAngle_of_notMem {w : Word} (h : 'n' ∉ w) :
    readAngle w = .finite (readDecimal w) := by
  have hne : ∀ {v : Word}, 'n' ∈ v → w ≠ v := fun hv heq ↦ h (heq ▸ hv)
  rw [readAngle, if_neg (hne (by decide)), if_neg (hne (by decide)), if_neg (hne (by decide))]

theorem readAngle_streamText {show_ : ℚ → Word} (hshow : ∀ q, ∀ c ∈ show_ q, IsNumeralChar c)
    (a : Double) : readAngle (streamText show_ a) = match a with
      | .finite q => .finite (readDecimal (show_ q))
      | a => a := by
  cases a with
  | finite q => exact readAngle_of_notMem (n_notMem (hshow q))
  | inf negative => cases negative <;> rfl
  | nan => rfl

theorem readAngle_angleText (d : Decomposer) (a : Double) :
    readAngle (d.angleText a) = d.rounded a := by
  cases d with
  | gridsynth =>
    rw [Decomposer.angleText, readAngle_streamText]
    · cases a with
      | finite q => exact congrArg Double.finite (readDecimal_showFixed q)
      | inf negative => rfl
      | nan => rfl
    · intro q c hc
      rcases mem_showFixed hc with h | h | h
      · exact .inl h
      · exact .inr (.inl h)
      · exact .inr (.inr (.inr (.inl h)))
  | sqct =>
    rw [Decomposer.angleText, readAngle_streamText fun _ _ ↦ mem_showDouble]
    cases a with
    | finite q => exact congrArg Double.finite (readDecimal_showDouble q)
    | inf negative => rfl
    | nan => rfl

/-! ## The same name -/

theorem sanitizeChar_of_isDigit {c : Char} (hc : c.isDigit) : sanitizeChar c = some c := by
  rw [sanitizeChar] <;> rintro rfl <;> exact absurd hc (by decide)

/-- The character that is replaced in a name. -/
def unsanitizeChar : Char → Char
  | 'n' => '-'
  | '_' => '.'
  | c => c

theorem unsanitizeChar_of_isDigit {c : Char} (hc : c.isDigit) : unsanitizeChar c = c := by
  rw [unsanitizeChar] <;> rintro rfl <;> exact absurd hc (by decide)

/-- Only the signs `+` are lost in the name of a numeral. -/
theorem unsanitize_sanitize {w : Word} (h : ∀ c ∈ w, IsNumeralChar c) :
    (sanitize w).map unsanitizeChar = w.filter (· ≠ '+') := by
  rw [sanitize]
  induction w with
  | nil => rfl
  | cons c w ih =>
    obtain ⟨hc, hw⟩ := List.forall_mem_cons.mp h
    rcases hc with hc | rfl | rfl | rfl | rfl
    · rw [List.filterMap_cons_some (sanitizeChar_of_isDigit hc), List.map_cons, ih hw,
        unsanitizeChar_of_isDigit hc, List.filter_cons_of_pos]
      exact decide_eq_true (ne_of_isDigit hc (by decide))
    · exact congrArg ('-' :: ·) (ih hw)
    · exact ih hw
    · exact congrArg ('.' :: ·) (ih hw)
    · exact congrArg ('e' :: ·) (ih hw)

theorem readExponent_of_isDigit {ds : Word} (h : ∀ c ∈ ds, c.isDigit) :
    readExponent ds = readExponent ('+' :: ds) := by
  rw [readExponent, readExponent]
  all_goals
    rintro ds' rfl
    exact absurd (h _ List.mem_cons_self) (by decide)

theorem readDecimal_append_e {w u u' : Word} (hw : 'e' ∉ w) (h : readExponent u = readExponent u') :
    readDecimal (w ++ 'e' :: u) = readDecimal (w ++ 'e' :: u') := by
  have hunsigned : ∀ {w : Word}, 'e' ∉ w →
      readUnsigned (w ++ 'e' :: u) = readUnsigned (w ++ 'e' :: u') := by
    intro w hw
    have hne : ∀ c ∈ w, decide (c ≠ 'e') := fun c hc ↦ decide_eq_true fun h ↦ hw (h ▸ hc)
    obtain ⟨htake, hdrop⟩ := takeWhile_append_cons (c := 'e') (w := u) hne (by decide)
    obtain ⟨htake', hdrop'⟩ := takeWhile_append_cons (c := 'e') (w := u') hne (by decide)
    rw [readUnsigned, readUnsigned, htake, hdrop, htake', hdrop', List.drop_succ_cons,
      List.drop_succ_cons, List.drop_zero, List.drop_zero, h]
  cases w with
  | nil => exact hunsigned hw
  | cons c w =>
    by_cases hc : c = '-'
    · rw [hc, List.cons_append, List.cons_append, readDecimal, readDecimal,
        hunsigned fun h ↦ hw (List.mem_cons_of_mem _ h)]
    · rw [List.cons_append, readDecimal, List.cons_append, readDecimal]
      · exact hunsigned hw
      all_goals exact fun w' h ↦ hc (List.cons.inj h).1

theorem readDecimal_filter_append {w : Word} (he : 'e' ∉ w) (hplus : '+' ∉ w) (e : ℤ) :
    readDecimal ((w ++ exponent e).filter (· ≠ '+')) = readDecimal (w ++ exponent e) := by
  have hdigits : ∀ c ∈ (exponent e).drop 2, c.isDigit := by
    intro c hc
    rw [exponent, List.drop_succ_cons, List.drop_succ_cons, List.drop_zero] at hc
    split_ifs at hc
    · rcases List.mem_cons.mp hc with rfl | hc
      · decide
      · exact Nat.isDigit_of_mem_toDigits (by decide) le_rfl hc
    · exact Nat.isDigit_of_mem_toDigits (by decide) le_rfl hc
  have hfilter : ∀ {v : Word}, '+' ∉ v → v.filter (· ≠ '+') = v := fun hv ↦
    List.filter_eq_self.mpr fun c hc ↦ decide_eq_true fun h ↦ hv (h ▸ hc)
  have hrest := hfilter fun h ↦ absurd (hdigits '+' h) (by decide)
  rw [List.filter_append, hfilter hplus]
  rcases lt_or_ge e 0 with hneg | hnonneg
  · have hexp : exponent e = 'e' :: '-' :: (exponent e).drop 2 := by
      rw [exponent, if_pos hneg]
      rfl
    rw [hexp]
    exact congrArg (fun v ↦ readDecimal (w ++ 'e' :: '-' :: v)) hrest
  · have hexp : exponent e = 'e' :: '+' :: (exponent e).drop 2 := by
      rw [exponent, if_neg hnonneg.not_gt]
      rfl
    rw [hexp]
    refine (congrArg (fun v ↦ readDecimal (w ++ 'e' :: v)) hrest).trans ?_
    exact readDecimal_append_e he (readExponent_of_isDigit hdigits)

/-- **What a name says about a finite angle.** -/
theorem readDecimal_unsanitize (q : ℚ) :
    readDecimal ((sanitize (showExp q)).map unsanitizeChar) = sevenDigits q := by
  obtain ⟨w, e, he, hplus, heq⟩ : ∃ w e, 'e' ∉ w ∧ '+' ∉ w ∧ showExp q = w ++ exponent e := by
    have hdigits : ∀ n, ∀ c ∈ padDigits n 7, c.isDigit := fun _ _ ↦ isDigit_of_mem_padDigits
    have hnot : ∀ c : Char, ¬ c.isDigit → c ≠ '-' → c ≠ '.' → ∀ n,
        c ∉ (if q < 0 then ['-'] else []) ++
          ((padDigits n 7).take 1 ++ '.' :: (padDigits n 7).drop 1) := by
      intro c hc hminus hpoint n h
      rcases List.mem_append.mp h with h | h
      · split_ifs at h
        · exact hminus (List.mem_singleton.mp h)
        · cases h
      · rcases List.mem_append.mp h with h | h
        · exact hc (hdigits n c (List.mem_of_mem_take h))
        · rcases List.mem_cons.mp h with h | h
          · exact hpoint h
          · exact hc (hdigits n c (List.mem_of_mem_drop h))
    obtain ⟨m, e, hdigits⟩ : ∃ m e, (if q = 0 then (0, 0) else significandTo 6 |q|) = (m, e) :=
      ⟨_, _, rfl⟩
    refine ⟨_, e, hnot 'e' (by decide) (by decide) (by decide) m,
      hnot '+' (by decide) (by decide) (by decide) m, ?_⟩
    rw [showExp, hdigits]
    exact (List.append_assoc ..).symm
  rw [unsanitize_sanitize fun _ ↦ mem_showExp, ← readDecimal_showExp, heq,
    readDecimal_filter_append he hplus]

theorem mem_sanitize {w : Word} (h : ∀ c ∈ w, IsNumeralChar c) {c : Char} (hc : c ∈ sanitize w) :
    c.isDigit ∨ c = 'n' ∨ c = '_' ∨ c = 'e' := by
  obtain ⟨d, hd, hdc⟩ := List.mem_filterMap.mp hc
  rcases h d hd with hdigit | rfl | rfl | rfl | rfl
  · rw [sanitizeChar_of_isDigit hdigit] at hdc
    exact .inl (Option.some.inj hdc ▸ hdigit)
  · exact .inr (.inl (Option.some.inj hdc).symm)
  · cases hdc
  · exact .inr (.inr (.inl (Option.some.inj hdc).symm))
  · exact .inr (.inr (.inr (Option.some.inj hdc).symm))

private theorem sanitize_showExp_ne {q : ℚ} {w : Word}
    (h : ∃ c ∈ w, ¬ (c.isDigit ∨ c = 'n' ∨ c = '_' ∨ c = 'e')) : sanitize (showExp q) ≠ w := by
  obtain ⟨c, hc, hnot⟩ := h
  exact fun heq ↦ hnot (mem_sanitize (fun _ ↦ mem_showExp) (heq ▸ hc))

/-- **Two angles have the same name exactly if** they agree in seven significant digits, or both are
infinite. -/
theorem FuncName_eq_iff (a b : Double) : FuncName a = FuncName b ↔ keyed a = keyed b := by
  have hINF : ∃ c ∈ sanitize "INF".toList, ¬ (c.isDigit ∨ c = 'n' ∨ c = '_' ∨ c = 'e') :=
    ⟨'I', by decide, by decide⟩
  have hnan : ∃ c ∈ sanitize "nan".toList, ¬ (c.isDigit ∨ c = 'n' ∨ c = '_' ∨ c = 'e') :=
    ⟨'a', by decide, by decide⟩
  have hdiffer : sanitize "INF".toList ≠ sanitize "nan".toList := by decide
  rw [FuncName, FuncName, sanitize, sanitize, List.filterMap_append, List.filterMap_append,
    List.append_cancel_left_eq, ← sanitize, ← sanitize]
  cases a with
  | finite q =>
    cases b with
    | finite q' =>
      rw [keyed, keyed, Double.finite.injEq]
      constructor
      · intro h
        rw [← readDecimal_unsanitize, ← readDecimal_unsanitize q']
        exact congrArg (fun w ↦ readDecimal (w.map unsanitizeChar)) h
      · exact fun h ↦ congrArg sanitize (showExp_eq_iff.mpr h)
    | inf negative => exact iff_of_false (sanitize_showExp_ne hINF) nofun
    | nan => exact iff_of_false (sanitize_showExp_ne hnan) nofun
  | inf negative =>
    cases b with
    | finite q' => exact iff_of_false (sanitize_showExp_ne hINF).symm nofun
    | inf negative' => exact iff_of_true rfl rfl
    | nan => exact iff_of_false hdiffer nofun
  | nan =>
    cases b with
    | finite q' => exact iff_of_false (sanitize_showExp_ne hnan).symm nofun
    | inf negative' => exact iff_of_false hdiffer.symm nofun
    | nan => exact iff_of_true rfl rfl

/-! ## A run of the pass -/

/-- The call is one to decompose: its angle is a constant other than zero, and the module has not
declared its name. -/
structure RzCall.Decomposes (I : RzCall ι) (declared : List Word) (a : Double) : Prop where
  angle : I.Angle = some a
  ne_zero : a ≠ .finite 0
  notMem : FuncName a ∉ declared

section Run

variable {env : Environment} {exec : Word → Word} {declared : List Word} {path : Word}
  {d : Decomposer} {made : List Decomposed} {calls : List (RzCall ι)}

private theorem visitCallInst_some {I : RzCall ι} {a : Double} (h : I.Angle = some a) :
    visitCallInst env exec declared made I =
      if a = .finite 0 then (made, .erased)
      else if declared.contains (FuncName a) || (made.map Decomposed.name).contains (FuncName a)
      then (made, .call (FuncName a) I.Target)
      else match env.decomposer with
        | none => (made ++ [⟨FuncName a, none, []⟩], .kept)
        | some (path, d) =>
          (made ++ [⟨FuncName a, some (d.angleText a),
            gates (exec (env.command path (d.angleText a) d))⟩], .call (FuncName a) I.Target) := by
  rw [visitCallInst, h]

theorem visitCallInst_made (exec : Word → Word) (declared : List Word)
    (hd : env.decomposer = some (path, d)) (made : List Decomposed) (I : RzCall ι) :
    ((visitCallInst env exec declared made I).1 = made ∧
        ∀ a, I.Decomposes declared a → FuncName a ∈ made.map Decomposed.name) ∨
      ∃ a F, I.Decomposes declared a ∧ F.name = FuncName a ∧ F.angle = some (d.angleText a) ∧
        (visitCallInst env exec declared made I).1 = made ++ [F] := by
  rcases hI : I.Angle with _ | a
  · refine .inl ⟨by rw [visitCallInst, hI], fun a h ↦ ?_⟩
    exact absurd (hI.symm.trans h.angle) nofun
  by_cases hzero : a = .finite 0
  · refine .inl ⟨by rw [visitCallInst_some hI, if_pos hzero], fun b h ↦ ?_⟩
    exact absurd hzero (Option.some.inj (hI.symm.trans h.angle) ▸ h.ne_zero)
  by_cases hfound : declared.contains (FuncName a) ||
      (made.map Decomposed.name).contains (FuncName a)
  · refine .inl ⟨by rw [visitCallInst_some hI, if_neg hzero, if_pos hfound], fun b h ↦ ?_⟩
    obtain rfl : a = b := Option.some.inj (hI.symm.trans h.angle)
    rcases Bool.or_eq_true_iff.mp hfound with hmem | hmem
    · exact absurd (List.contains_iff_mem.mp hmem) h.notMem
    · exact List.contains_iff_mem.mp hmem
  · have hnot : FuncName a ∉ declared := fun h ↦
      hfound (Bool.or_eq_true_iff.mpr (.inl (List.contains_iff_mem.mpr h)))
    refine .inr ⟨a, ⟨FuncName a, some (d.angleText a),
      gates (exec (env.command path (d.angleText a) d))⟩, ⟨hI, hzero, hnot⟩, rfl, rfl, ?_⟩
    rw [visitCallInst_some hI, if_neg hzero, if_neg hfound, hd]

theorem visitCallInst_call {I : RzCall ι} {name : Word} {t : ι}
    (h : (visitCallInst env exec declared made I).2 = .call name t) :
    ∃ a, I.Angle = some a ∧ a ≠ .finite 0 ∧ name = FuncName a := by
  rcases hI : I.Angle with _ | a
  · rw [visitCallInst, hI] at h
    cases h
  rw [visitCallInst_some hI] at h
  split_ifs at h with hzero
  · cases h
    exact ⟨a, rfl, hzero, rfl⟩
  · cases hd : env.decomposer <;> rw [hd] at h <;> cases h
    exact ⟨a, rfl, hzero, rfl⟩

theorem visitCallInst_result (hd : env.decomposer = some (path, d)) {I : RzCall ι} {a : Double}
    (h : I.Decomposes declared a) :
    (visitCallInst env exec declared made I).2 = .call (FuncName a) I.Target := by
  rw [visitCallInst_some h.angle, if_neg h.ne_zero, hd]
  split_ifs <;> rfl

theorem visitCallInst_names {I : RzCall ι} {n : Word} :
    n ∈ (visitCallInst env exec declared made I).1.map Decomposed.name ↔
      n ∈ made.map Decomposed.name ∨ ∃ a, I.Decomposes declared a ∧ n = FuncName a := by
  rcases hI : I.Angle with _ | a
  · rw [visitCallInst, hI]
    exact (or_iff_left fun ⟨a, ha, _⟩ ↦ absurd (hI.symm.trans ha.angle) nofun).symm
  have hunique : ∀ {b}, I.Decomposes declared b → a = b := fun h ↦
    Option.some.inj (hI.symm.trans h.angle)
  rw [visitCallInst_some hI]
  split_ifs with hzero hfound
  · exact (or_iff_left fun ⟨b, hb, _⟩ ↦ hb.ne_zero (hunique hb ▸ hzero)).symm
  · refine (or_iff_left_of_imp ?_).symm
    rintro ⟨b, hb, rfl⟩
    obtain rfl := hunique hb
    rcases Bool.or_eq_true_iff.mp hfound with hmem | hmem
    · exact absurd (List.contains_iff_mem.mp hmem) hb.notMem
    · exact List.contains_iff_mem.mp hmem
  · have hnot : FuncName a ∉ declared := fun h ↦
      hfound (Bool.or_eq_true_iff.mpr (.inl (List.contains_iff_mem.mpr h)))
    have hsingle : n = FuncName a ↔ ∃ b, I.Decomposes declared b ∧ n = FuncName b :=
      ⟨fun h ↦ ⟨a, ⟨hI, hzero, hnot⟩, h⟩, fun ⟨b, hb, h⟩ ↦ hunique hb ▸ h⟩
    rw [← hsingle]
    cases env.decomposer <;> simp

theorem visitCallInst_call_iff (hd : env.decomposer = none) {I : RzCall ι} {a : Double}
    (hI : I.Angle = some a) (ha : FuncName a ∉ declared) :
    (visitCallInst env exec declared made I).2 = .call (FuncName a) I.Target ↔
      I.Decomposes declared a ∧ FuncName a ∈ made.map Decomposed.name := by
  rw [visitCallInst_some hI, hd]
  split_ifs with hzero hfound
  · exact iff_of_false nofun fun h ↦ h.1.ne_zero hzero
  · refine iff_of_true rfl ⟨⟨hI, hzero, ha⟩, ?_⟩
    rcases Bool.or_eq_true_iff.mp hfound with hmem | hmem
    · exact absurd (List.contains_iff_mem.mp hmem) ha
    · exact List.contains_iff_mem.mp hmem
  · refine iff_of_false nofun fun h ↦ hfound ?_
    exact Bool.or_eq_true_iff.mpr (.inr (List.contains_iff_mem.mpr h.2))

/-- Without a program no function has a text of an angle. -/
theorem visitCallInst_none (hd : env.decomposer = none) (hmade : ∀ F ∈ made, F.angle = none)
    (I : RzCall ι) : ∀ F ∈ (visitCallInst env exec declared made I).1, F.angle = none := by
  rcases hI : I.Angle with _ | a
  · rw [visitCallInst, hI]
    exact hmade
  rw [visitCallInst_some hI, hd]
  split_ifs
  · exact hmade
  · exact hmade
  · exact List.forall_mem_append.mpr ⟨hmade, List.forall_mem_singleton.mpr rfl⟩

theorem runOnModule_cons (I : RzCall ι) : runOnModule env exec declared made (I :: calls) =
    ((runOnModule env exec declared (visitCallInst env exec declared made I).1 calls).1,
      (visitCallInst env exec declared made I).2 ::
        (runOnModule env exec declared (visitCallInst env exec declared made I).1 calls).2) := rfl

theorem runOnModule_made (hd : env.decomposer = some (path, d)) {F : Decomposed}
    (hF : F ∈ (runOnModule env exec declared made calls).1) :
    F ∈ made ∨ ∃ I ∈ calls, ∃ a, I.Decomposes declared a ∧ F.name = FuncName a ∧
      F.angle = some (d.angleText a) := by
  induction calls generalizing made with
  | nil => exact .inl hF
  | cons I calls ih =>
    rw [runOnModule_cons] at hF
    rcases ih hF with hmade | ⟨I', hI', h⟩
    · rcases visitCallInst_made exec declared hd made I with
        ⟨heq, -⟩ | ⟨a, F', ha, hname, hangle, heq⟩
      · exact .inl (heq ▸ hmade)
      · rcases List.mem_append.mp (heq ▸ hmade) with hmade | hnew
        · exact .inl hmade
        · rw [List.mem_singleton.mp hnew]
          exact .inr ⟨I, List.mem_cons_self, a, ha, hname, hangle⟩
    · exact .inr ⟨I', List.mem_cons_of_mem _ hI', h⟩

/-- There is a function for each call to decompose, and for no other. -/
theorem runOnModule_names {n : Word} :
    n ∈ (runOnModule env exec declared made calls).1.map Decomposed.name ↔
      n ∈ made.map Decomposed.name ∨
        ∃ I ∈ calls, ∃ a, I.Decomposes declared a ∧ n = FuncName a := by
  induction calls generalizing made with
  | nil => exact (or_iff_left fun ⟨I, hI, _⟩ ↦ absurd hI List.not_mem_nil).symm
  | cons I calls ih =>
    rw [runOnModule_cons, ih, visitCallInst_names, or_assoc, List.exists_mem_cons_iff]

/-- A call with this angle becomes a call of this function. -/
def Redirects (calls : List (RzCall ι)) (rs : List (Result ι)) (a : Double) (name : Word) : Prop :=
  ∃ p ∈ calls.zip rs, p.1.Angle = some a ∧ p.2 = .call name p.1.Target

theorem Redirects.spec {a : Double} {name : Word}
    (h : Redirects calls (runOnModule env exec declared made calls).2 a name) :
    ∃ I ∈ calls, I.Angle = some a ∧ a ≠ .finite 0 ∧ name = FuncName a := by
  induction calls generalizing made with
  | nil =>
    obtain ⟨p, hp, -⟩ := h
    exact absurd hp List.not_mem_nil
  | cons I calls ih =>
    obtain ⟨p, hp, hangle, hcall⟩ := h
    rw [runOnModule_cons, List.zip_cons_cons] at hp
    rcases List.mem_cons.mp hp with rfl | hp
    · obtain ⟨b, hb, hzero, hname⟩ := visitCallInst_call hcall
      obtain rfl := Option.some.inj (hangle.symm.trans hb)
      exact ⟨I, List.mem_cons_self, hangle, hzero, hname⟩
    · obtain ⟨I', hI', hspec⟩ := ih ⟨p, hp, hangle, hcall⟩
      exact ⟨I', List.mem_cons_of_mem _ hI', hspec⟩

theorem redirects_of_decomposes (hd : env.decomposer = some (path, d)) {I : RzCall ι}
    (hI : I ∈ calls) {a : Double} (h : I.Decomposes declared a) :
    Redirects calls (runOnModule env exec declared made calls).2 a (FuncName a) := by
  induction calls generalizing made with
  | nil => exact absurd hI List.not_mem_nil
  | cons I' calls ih =>
    rw [Redirects, runOnModule_cons, List.zip_cons_cons]
    rcases List.mem_cons.mp hI with rfl | hI
    · exact ⟨_, List.mem_cons_self, h.angle, visitCallInst_result hd h⟩
    · have hlater : Redirects calls (runOnModule env exec declared
          (visitCallInst env exec declared made I').1 calls).2 a (FuncName a) := ih hI
      obtain ⟨p, hp, hspec⟩ := hlater
      exact ⟨p, List.mem_cons_of_mem _ hp, hspec⟩

theorem runOnModule_none (hd : env.decomposer = none) (hmade : ∀ F ∈ made, F.angle = none) :
    ∀ F ∈ (runOnModule env exec declared made calls).1, F.angle = none := by
  induction calls generalizing made with
  | nil => exact hmade
  | cons I calls ih => exact ih (visitCallInst_none hd hmade I)

/-- A call with this angle to decompose comes after another with its name. -/
def Repeated (declared : List Word) (calls : List (RzCall ι)) (a : Double) : Prop :=
  ∃ I I' b, [I, I'].Sublist calls ∧ I.Decomposes declared b ∧ I'.Decomposes declared a ∧
    keyed b = keyed a

theorem repeated_cons {I : RzCall ι} {a : Double} :
    Repeated declared (I :: calls) a ↔ Repeated declared calls a ∨
      ∃ I' ∈ calls, I'.Decomposes declared a ∧
        ∃ b, I.Decomposes declared b ∧ FuncName a = FuncName b := by
  simp only [Repeated, List.cons_sublist_cons', List.singleton_sublist, FuncName_eq_iff]
  constructor
  · rintro ⟨J, I', b, hsub | ⟨rfl, hI'⟩, hb, ha, hkey⟩
    · exact .inl ⟨J, I', b, hsub, hb, ha, hkey⟩
    · exact .inr ⟨I', hI', ha, b, hb, hkey.symm⟩
  · rintro (⟨J, I', b, hsub, hb, ha, hkey⟩ | ⟨I', hI', ha, b, hb, hkey⟩)
    · exact ⟨J, I', b, .inl hsub, hb, ha, hkey⟩
    · exact ⟨I, I', b, .inr ⟨rfl, hI'⟩, hb, ha, hkey.symm⟩

/-- Without a program the first call with a name is kept, and the later ones are redirected to the
function that was made for it and has no gates. -/
theorem redirects_none_iff (hd : env.decomposer = none) {a : Double} (ha : FuncName a ∉ declared) :
    Redirects calls (runOnModule env exec declared made calls).2 a (FuncName a) ↔
      (∃ I ∈ calls, I.Decomposes declared a ∧ FuncName a ∈ made.map Decomposed.name) ∨
        Repeated declared calls a := by
  induction calls generalizing made with
  | nil => simp [Redirects, Repeated]
  | cons I calls ih =>
    have hhead : I.Angle = some a ∧
        (visitCallInst env exec declared made I).2 = .call (FuncName a) I.Target ↔
          I.Decomposes declared a ∧ FuncName a ∈ made.map Decomposed.name :=
      ⟨fun h ↦ (visitCallInst_call_iff hd h.1 ha).mp h.2, fun h ↦
        ⟨h.1.angle, (visitCallInst_call_iff hd h.1.angle ha).mpr h⟩⟩
    have htail := @ih (visitCallInst env exec declared made I).1
    rw [Redirects] at htail
    rw [Redirects, runOnModule_cons, List.zip_cons_cons, List.exists_mem_cons_iff, hhead, htail,
      visitCallInst_names, List.exists_mem_cons_iff, repeated_cons]
    simp only [and_or_left, exists_or]
    exact (or_congr_right (or_assoc.trans (or_congr_right or_comm))).trans or_assoc.symm

end Run

/-! ## When the functions are the right ones -/

/-- Each function replaces the calls with one angle, and its gates, if a program was asked for them,
are those for this angle. -/
structure KeyedSoundly (env : Environment) (exec : Word → Word) (declared : List Word)
    (calls : List (RzCall ι)) : Prop where
  keyed : ∀ F ∈ (runOnModule env exec declared [] calls).1,
    ∀ a b, Redirects calls (runOnModule env exec declared [] calls).2 a F.name →
      Redirects calls (runOnModule env exec declared [] calls).2 b F.name → a = b
  handed : ∀ F ∈ (runOnModule env exec declared [] calls).1, ∀ w, F.angle = some w →
    ∀ a, Redirects calls (runOnModule env exec declared [] calls).2 a F.name → readAngle w = a

/-- The angles to decompose are not changed by rounding for the program, and those that are not
told apart by their names are equal. -/
def Distinguished (d : Decomposer) (declared : List Word) (calls : List (RzCall ι)) : Prop :=
  ∀ I ∈ calls, ∀ a, I.Decomposes declared a → d.rounded a = a ∧
    ∀ I' ∈ calls, ∀ b, I'.Decomposes declared b → Rotations.keyed a = Rotations.keyed b → a = b

/-- The repeated angles that are not told apart by their names are equal. -/
def RepeatsDistinguished (declared : List Word) (calls : List (RzCall ι)) : Prop :=
  ∀ a b, Repeated declared calls a → Repeated declared calls b →
    Rotations.keyed a = Rotations.keyed b → a = b

section Sound

variable {env : Environment} {exec : Word → Word} {declared : List Word} {path : Word}
  {d : Decomposer} {calls : List (RzCall ι)}

theorem KeyedSoundly.distinguished (h : KeyedSoundly env exec declared calls)
    (hd : env.decomposer = some (path, d)) : Distinguished d declared calls := by
  intro I hI a ha
  have hmem : FuncName a ∈ (runOnModule env exec declared [] calls).1.map Decomposed.name :=
    runOnModule_names.mpr (.inr ⟨I, hI, a, ha, rfl⟩)
  obtain ⟨F, hF, hname⟩ := List.mem_map.mp hmem
  have hredirects : ∀ I' ∈ calls, ∀ b, I'.Decomposes declared b →
      Redirects calls (runOnModule env exec declared [] calls).2 b (FuncName b) :=
    fun I' hI' b hb ↦ redirects_of_decomposes hd hI' hb
  obtain ⟨I₀, hI₀, a₀, ha₀, hname₀, hangle₀⟩ :=
    (runOnModule_made hd hF).resolve_left List.not_mem_nil
  have hself := hname ▸ hredirects I hI a ha
  -- the function was made for the angle itself
  obtain rfl := h.keyed F hF a₀ a (hname₀ ▸ hredirects I₀ hI₀ a₀ ha₀) hself
  refine ⟨(readAngle_angleText d a₀).symm.trans (h.handed F hF _ hangle₀ a₀ hself), ?_⟩
  intro I' hI' b hb hkey
  have hother := hredirects I' hI' b hb
  rw [← (FuncName_eq_iff a₀ b).mpr hkey, ← hname] at hother
  exact h.keyed F hF a₀ b hself hother

theorem Distinguished.keyedSoundly (h : Distinguished d declared calls)
    (hd : env.decomposer = some (path, d)) : KeyedSoundly env exec declared calls := by
  have hsame : ∀ F ∈ (runOnModule env exec declared [] calls).1, ∃ I ∈ calls, ∃ a,
      I.Decomposes declared a ∧ F.angle = some (d.angleText a) ∧
        ∀ b, Redirects calls (runOnModule env exec declared [] calls).2 b F.name → a = b := by
    intro F hF
    obtain ⟨I, hI, a, ha, hname, hangle⟩ :=
      (runOnModule_made hd hF).resolve_left List.not_mem_nil
    refine ⟨I, hI, a, ha, hangle, fun b hb ↦ ?_⟩
    obtain ⟨I', hI', hb, hzero, hname'⟩ := hb.spec
    have hnames : FuncName a = FuncName b := hname.symm.trans hname'
    exact (h I hI a ha).2 I' hI' b ⟨hb, hzero, hnames ▸ ha.notMem⟩
      ((FuncName_eq_iff a b).mp hnames)
  refine ⟨fun F hF a b ha hb ↦ ?_, fun F hF w hw a ha ↦ ?_⟩
  · obtain ⟨-, -, c, -, -, hc⟩ := hsame F hF
    exact (hc a ha).symm.trans (hc b hb)
  · obtain ⟨I, hI, c, hI', hangle, hc⟩ := hsame F hF
    obtain rfl := hc a ha
    rw [← Option.some.inj (hangle.symm.trans hw), readAngle_angleText]
    exact (h I hI c hI').1

/-- Without a program a function replaces the repeated calls with its name. -/
theorem keyedSoundly_none_iff (hd : env.decomposer = none) :
    KeyedSoundly env exec declared calls ↔ RepeatsDistinguished declared calls := by
  have hredirects : ∀ {a}, FuncName a ∉ declared →
      (Redirects calls (runOnModule env exec declared [] calls).2 a (FuncName a) ↔
        Repeated declared calls a) := by
    intro a ha
    rw [redirects_none_iff hd ha]
    exact or_iff_right fun ⟨_, _, _, hmem⟩ ↦ absurd hmem List.not_mem_nil
  constructor
  · intro h a b ha hb hkey
    obtain ⟨_, I', _, hsub, -, ha', -⟩ := id ha
    obtain ⟨_, _, _, -, -, hb', -⟩ := id hb
    have hmem : FuncName a ∈ (runOnModule env exec declared [] calls).1.map Decomposed.name :=
      runOnModule_names.mpr (.inr ⟨I', hsub.subset (by simp), a, ha', rfl⟩)
    obtain ⟨F, hF, hname⟩ := List.mem_map.mp hmem
    have hsame := (FuncName_eq_iff a b).mpr hkey
    refine h.keyed F hF a b (hname ▸ (hredirects ha'.notMem).mpr ha) ?_
    rw [hname, hsame]
    exact (hredirects hb'.notMem).mpr hb
  · intro h
    have hrepeated : ∀ F ∈ (runOnModule env exec declared [] calls).1, ∀ a,
        Redirects calls (runOnModule env exec declared [] calls).2 a F.name →
          F.name = FuncName a ∧ Repeated declared calls a := by
      intro F hF a ha
      obtain ⟨-, -, -, -, hname⟩ := ha.spec
      obtain ⟨I, -, b, hb, hname'⟩ := (runOnModule_names.mp (List.mem_map_of_mem hF)).resolve_left
        List.not_mem_nil
      have hnot : FuncName a ∉ declared := by
        rw [← hname, hname']
        exact hb.notMem
      exact ⟨hname, (hredirects hnot).mp (hname ▸ ha)⟩
    refine ⟨fun F hF a b ha hb ↦ ?_, fun F hF w hw ↦ ?_⟩
    · obtain ⟨hname, ha⟩ := hrepeated F hF a ha
      obtain ⟨hname', hb⟩ := hrepeated F hF b hb
      exact h a b ha hb ((FuncName_eq_iff a b).mp (hname.symm.trans hname'))
    · rw [runOnModule_none hd (List.forall_mem_nil _) F hF] at hw
      cases hw

end Sound

/-- **The functions are the right ones exactly if** the angles are not changed by rounding, or,
where no program is found, the repeated ones are told apart by their names. -/
theorem keyedSoundly_iff (env : Environment) (exec : Word → Word) (declared : List Word)
    (calls : List (RzCall ι)) : KeyedSoundly env exec declared calls ↔
      match env.decomposer with
      | none => RepeatsDistinguished declared calls
      | some (_, d) => Distinguished d declared calls := by
  rcases hd : env.decomposer with _ | ⟨path, d⟩
  · exact keyedSoundly_none_iff hd
  · exact ⟨fun h ↦ h.distinguished hd, fun h ↦ h.keyedSoundly hd⟩

/-- Two rotations by nearly the same angle. -/
def nearCalls : List (RzCall ℕ) :=
  [⟨0, some (.finite 1)⟩, ⟨1, some (.finite (1 + 1 / 2 ^ 30))⟩]

def sqctEnv : Environment := ⟨some "/opt/sqct".toList, none, 1⟩

/-- They are replaced by the same gates. -/
theorem not_keyedSoundly_nearCalls :
    ¬ KeyedSoundly sqctEnv (fun _ ↦ "THT\n".toList) [] nearCalls := by
  intro h
  have hd : sqctEnv.decomposer = some ("/opt/sqct".toList, .sqct) := by decide
  have heq := (h.distinguished hd _ List.mem_cons_self (.finite 1)
    ⟨rfl, by decide, List.not_mem_nil⟩).2 _ (List.mem_cons_of_mem _ List.mem_cons_self)
    (.finite (1 + 1 / 2 ^ 30)) ⟨rfl, by decide +kernel, List.not_mem_nil⟩ (by decide +kernel)
  exact absurd heq (by decide +kernel)

end ScaffCC.Rotations
