import Mathlib.Algebra.Order.Field.Rat
import Mathlib.Algebra.Order.Floor.Ring
import Mathlib.Data.Int.Log
import Mathlib.Data.List.DropRight
import Mathlib.Data.Rat.Floor

/-!
# Numerals

The text of an integer and of a double on an output stream with the default settings: an integer in
decimal, and a double with six significant digits, rounded to nearest with ties to even, without
trailing zeros, and in scientific notation when the exponent is below `-4` or at least `6`. Doubles
are rational numbers here, as every finite double is one.
-/

namespace ScaffCC.Text

/-! ## Integers -/

def showInt : ℤ → List Char
  | .ofNat n => Nat.toDigits 10 n
  | .negSucc n => '-' :: Nat.toDigits 10 (n + 1)

theorem showInt_ne_nil (z : ℤ) : showInt z ≠ [] := by
  cases z with
  | ofNat n => exact Nat.toDigits_ne_nil
  | negSucc n => exact List.cons_ne_nil _ _

theorem mem_showInt {z : ℤ} {c : Char} (h : c ∈ showInt z) : c.isDigit ∨ c = '-' := by
  cases z with
  | ofNat n => exact .inl (Nat.isDigit_of_mem_toDigits (by decide) le_rfl h)
  | negSucc n =>
    rcases List.mem_cons.mp h with rfl | h
    · exact .inr rfl
    · exact .inl (Nat.isDigit_of_mem_toDigits (by decide) le_rfl h)

theorem showInt_injective : Function.Injective showInt := by
  have hdigits : ∀ {m n : ℕ}, Nat.toDigits 10 m = Nat.toDigits 10 n → m = n := by
    intro m n h
    rw [← Nat.ofDigitChars_ten_toDigits (n := m), h, Nat.ofDigitChars_ten_toDigits]
  have hsign : ∀ {m : ℕ} {ds : List Char}, Nat.toDigits 10 m ≠ '-' :: ds := by
    intro m ds h
    have hdigit := Nat.isDigit_of_mem_toDigits (by decide) le_rfl (h ▸ List.mem_cons_self)
    exact absurd hdigit (by decide)
  rintro (m | m) (n | n) h
  · rw [hdigits h]
  · exact absurd h hsign
  · exact absurd h.symm hsign
  · rw [Nat.succ_injective (hdigits (List.cons.inj h).2)]

/-! ## Doubles -/

/-- The nearest integer, the even one of two. -/
def roundHalfEven (q : ℚ) : ℤ :=
  let d := q - ⌊q⌋
  if d < 1 / 2 then ⌊q⌋
  else if 1 / 2 < d then ⌊q⌋ + 1
  else if ⌊q⌋ % 2 = 0 then ⌊q⌋ else ⌊q⌋ + 1

/-- Six significant digits of a positive number, as an integer, and the exponent of the first. -/
def significand (a : ℚ) : ℕ × ℤ :=
  let e := Int.log 10 a
  let m := (roundHalfEven (a * 10 ^ (5 - e))).toNat
  if m = 1000000 then (100000, e + 1) else (m, e)

/-- A fraction without its trailing zeros, and without the point if nothing is left. -/
def fraction (ds : List Char) : List Char :=
  match ds.rdropWhile (· == '0') with
  | [] => []
  | ds => '.' :: ds

/-- An exponent: its sign and at least two digits. -/
def exponent (e : ℤ) : List Char :=
  let ds := Nat.toDigits 10 e.natAbs
  'e' :: (if e < 0 then '-' else '+') :: (if ds.length < 2 then '0' :: ds else ds)

/-- A positive number from its significant digits. -/
def showDigits (ds : List Char) (e : ℤ) : List Char :=
  if e < -4 ∨ 6 ≤ e then ds.take 1 ++ fraction (ds.drop 1) ++ exponent e
  else if e < 0 then '0' :: fraction (List.replicate (-e - 1).toNat '0' ++ ds)
  else ds.take (e.toNat + 1) ++ fraction (ds.drop (e.toNat + 1))

def showDouble (q : ℚ) : List Char :=
  if q = 0 then ['0']
  else
    (if q < 0 then ['-'] else []) ++
      showDigits (Nat.toDigits 10 (significand |q|).1) (significand |q|).2

example : showDouble (1 / 2) = "0.5".toList := by decide +kernel
example : showDouble (-1234567) = "-1.23457e+06".toList := by decide +kernel

def IsNumeralChar (c : Char) : Prop :=
  c.isDigit ∨ c = '-' ∨ c = '+' ∨ c = '.' ∨ c = 'e'

theorem mem_fraction {ds : List Char} {c : Char} (h : c ∈ fraction ds) : c ∈ ds ∨ c = '.' := by
  rw [fraction] at h
  split at h
  · exact absurd h List.not_mem_nil
  · rcases List.mem_cons.mp h with rfl | h
    · exact .inr rfl
    · exact .inl ((List.rdropWhile_prefix _ _).subset h)

theorem mem_exponent {e : ℤ} {c : Char} (h : c ∈ exponent e) : IsNumeralChar c := by
  have hdigits : ∀ c ∈ Nat.toDigits 10 e.natAbs, IsNumeralChar c := fun c hc ↦
    .inl (Nat.isDigit_of_mem_toDigits (by decide) le_rfl hc)
  simp only [exponent, List.mem_cons] at h
  rcases h with rfl | rfl | h
  · exact .inr (.inr (.inr (.inr rfl)))
  · split_ifs
    exacts [.inr (.inl rfl), .inr (.inr (.inl rfl))]
  · split_ifs at h
    · rcases List.mem_cons.mp h with rfl | h
      exacts [.inl (by decide), hdigits c h]
    · exact hdigits c h

theorem mem_showDigits {ds : List Char} (hds : ∀ c ∈ ds, c.isDigit) {e : ℤ} {c : Char}
    (h : c ∈ showDigits ds e) : IsNumeralChar c := by
  have hfraction : ∀ {ds' : List Char}, (∀ c ∈ ds', c.isDigit) → c ∈ fraction ds' →
      IsNumeralChar c := by
    intro ds' hds' hc
    rcases mem_fraction hc with hc | rfl
    · exact .inl (hds' c hc)
    · exact .inr (.inr (.inr (.inl rfl)))
  rw [showDigits] at h
  split_ifs at h
  · rcases List.mem_append.mp h with h | h
    · rcases List.mem_append.mp h with h | h
      · exact .inl (hds c (List.mem_of_mem_take h))
      · exact hfraction (fun c hc ↦ hds c (List.mem_of_mem_drop hc)) h
    · exact mem_exponent h
  · rcases List.mem_cons.mp h with rfl | h
    · exact .inl (by decide)
    · refine hfraction (fun c hc ↦ ?_) h
      rcases List.mem_append.mp hc with hc | hc
      · obtain rfl := List.eq_of_mem_replicate hc
        decide
      · exact hds c hc
  · rcases List.mem_append.mp h with h | h
    · exact .inl (hds c (List.mem_of_mem_take h))
    · exact hfraction (fun c hc ↦ hds c (List.mem_of_mem_drop hc)) h

theorem mem_showDouble {q : ℚ} {c : Char} (h : c ∈ showDouble q) : IsNumeralChar c := by
  have hdigits : ∀ c ∈ Nat.toDigits 10 (significand |q|).1, c.isDigit := fun c hc ↦
    Nat.isDigit_of_mem_toDigits (by decide) le_rfl hc
  rw [showDouble] at h
  split_ifs at h
  · obtain rfl := List.mem_singleton.mp h
    exact .inl (by decide)
  · rcases List.mem_cons.mp h with rfl | h
    · exact .inr (.inl rfl)
    · exact mem_showDigits hdigits h
  · exact mem_showDigits hdigits h

theorem showDigits_ne_nil {ds : List Char} (hds : ds ≠ []) (e : ℤ) : showDigits ds e ≠ [] := by
  rw [showDigits]
  split_ifs
  · exact List.append_ne_nil_of_right_ne_nil _ (List.cons_ne_nil _ _)
  · exact List.cons_ne_nil _ _
  · refine List.append_ne_nil_of_left_ne_nil (fun h ↦ hds ?_) _
    exact (List.take_eq_nil_iff.mp h).resolve_left (Nat.succ_ne_zero _)

theorem showDouble_ne_nil (q : ℚ) : showDouble q ≠ [] := by
  rw [showDouble]
  split_ifs
  · exact List.cons_ne_nil _ _
  · exact List.append_ne_nil_of_right_ne_nil _ (showDigits_ne_nil Nat.toDigits_ne_nil _)
  · exact showDigits_ne_nil Nat.toDigits_ne_nil _

end ScaffCC.Text
