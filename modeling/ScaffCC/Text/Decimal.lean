import Mathlib.Tactic.FieldSimp
import Mathlib.Tactic.Ring
import ScaffCC.Text.Numeral

/-!
# Values of numerals

A numeral is read as a sign, digits with or without a point, and perhaps an exponent. What is read
back from the text of a double on an output stream is the double rounded to six significant digits,
what is read back from its text with six decimals is the double rounded to these, and what is read
back from scientific notation is the double rounded to seven significant digits.
-/

namespace ScaffCC.Text

/-! ## Reading -/

/-- The value of digits with or without a point. -/
def readMantissa (w : List Char) : ℚ :=
  let fractional := (w.dropWhile (· ≠ '.')).drop 1
  (Nat.ofDigitChars 10 (w.takeWhile (· ≠ '.') ++ fractional) 0 : ℚ) / 10 ^ fractional.length

def readExponent : List Char → ℤ
  | '-' :: ds => -(Nat.ofDigitChars 10 ds 0 : ℤ)
  | '+' :: ds => Nat.ofDigitChars 10 ds 0
  | ds => Nat.ofDigitChars 10 ds 0

/-- The value of a numeral without a sign. -/
def readUnsigned (w : List Char) : ℚ :=
  readMantissa (w.takeWhile (· ≠ 'e')) * 10 ^ readExponent ((w.dropWhile (· ≠ 'e')).drop 1)

/-- The value of a numeral. -/
def readDecimal : List Char → ℚ
  | '-' :: w => -readUnsigned w
  | w => readUnsigned w

/-! ## Digits -/

variable {ds ds' w : List Char}

theorem ne_of_isDigit {c d : Char} (h : c.isDigit) (hd : ¬ d.isDigit) : c ≠ d := by
  rintro rfl
  exact hd h

theorem takeWhile_append_cons {p : Char → Bool} {c : Char} (hds : ∀ d ∈ ds, p d) (hc : ¬ p c) :
    (ds ++ c :: w).takeWhile p = ds ∧ (ds ++ c :: w).dropWhile p = c :: w := by
  induction ds with
  | nil => simp [hc]
  | cons d ds ih =>
    obtain ⟨hd, hds⟩ := List.forall_mem_cons.mp hds
    simp [hd, ih hds]

theorem takeWhile_of_forall {p : Char → Bool} (hds : ∀ d ∈ ds, p d) :
    ds.takeWhile p = ds ∧ ds.dropWhile p = [] :=
  ⟨List.takeWhile_eq_self_iff.mpr hds, List.dropWhile_eq_nil_iff.mpr hds⟩

theorem readMantissa_digits (hds : ∀ c ∈ ds, c.isDigit) :
    readMantissa ds = Nat.ofDigitChars 10 ds 0 := by
  have hpoint : ∀ c ∈ ds, decide (c ≠ '.') := fun c hc ↦
    decide_eq_true (ne_of_isDigit (hds c hc) (by decide))
  obtain ⟨htake, hdrop⟩ := takeWhile_of_forall hpoint
  rw [readMantissa, htake, hdrop]
  simp

theorem readMantissa_point (hds : ∀ c ∈ ds, c.isDigit) :
    readMantissa (ds ++ '.' :: ds') = Nat.ofDigitChars 10 (ds ++ ds') 0 / 10 ^ ds'.length := by
  have hpoint : ∀ c ∈ ds, decide (c ≠ '.') := fun c hc ↦
    decide_eq_true (ne_of_isDigit (hds c hc) (by decide))
  obtain ⟨htake, hdrop⟩ := takeWhile_append_cons (p := (· ≠ '.')) (c := '.') (w := ds') hpoint
    (by decide)
  rw [readMantissa, htake, hdrop]
  rfl

theorem readMantissa_fraction (hds : ∀ c ∈ ds, c.isDigit) (ds' : List Char) :
    readMantissa (ds ++ fraction ds') = Nat.ofDigitChars 10 (ds ++ ds') 0 / 10 ^ ds'.length := by
  induction ds' using List.reverseRecOn with
  | nil =>
    rw [fraction, List.rdropWhile_nil]
    dsimp only
    rw [List.append_nil, readMantissa_digits hds, List.length_nil, pow_zero, div_one]
  | append_singleton ds' c ih =>
    by_cases hc : c = '0'
    · -- the zero is dropped, and the others may follow
      subst hc
      have hfraction : fraction (ds' ++ ['0']) = fraction ds' := by
        rw [fraction, List.rdropWhile_concat_pos _ _ _ (by decide), fraction]
      have hzero : Nat.ofDigitChars 10 (ds ++ (ds' ++ ['0'])) 0 =
          10 * Nat.ofDigitChars 10 (ds ++ ds') 0 := by
        rw [← List.append_assoc, Nat.ofDigitChars_append, Nat.ofDigitChars_cons,
          Nat.ofDigitChars_nil]
        rfl
      rw [hfraction, ih, hzero, List.length_append, List.length_singleton, pow_succ]
      push_cast
      field_simp
    · have hfraction : fraction (ds' ++ [c]) = '.' :: (ds' ++ [c]) := by
        rw [fraction, List.rdropWhile_concat_neg _ _ _ (by simpa using hc)]
        cases ds' <;> rfl
      rw [hfraction, readMantissa_point hds]

/-! ## Exponents -/

theorem readExponent_exponent (e : ℤ) : readExponent ((exponent e).drop 1) = e := by
  have hdigits : (Nat.ofDigitChars 10
      (if (Nat.toDigits 10 e.natAbs).length < 2 then '0' :: Nat.toDigits 10 e.natAbs
        else Nat.toDigits 10 e.natAbs) 0 : ℤ) = |e| := by
    rw [Int.abs_eq_natAbs, Nat.cast_inj]
    split_ifs
    · rw [Nat.ofDigitChars_cons]
      exact Nat.ofDigitChars_ten_toDigits
    · exact Nat.ofDigitChars_ten_toDigits
  rcases lt_or_ge e 0 with hneg | hnonneg
  · have hexp : (exponent e).drop 1 = '-' :: (exponent e).drop 2 := by
      simp [exponent, hneg]
    rw [hexp, readExponent]
    refine (congrArg Neg.neg hdigits).trans ?_
    rw [abs_of_neg hneg, neg_neg]
  · have hexp : (exponent e).drop 1 = '+' :: (exponent e).drop 2 := by
      simp [exponent, not_lt.mpr hnonneg]
    rw [hexp, readExponent]
    exact hdigits.trans (abs_of_nonneg hnonneg)

theorem readUnsigned_mantissa (hw : 'e' ∉ w) : readUnsigned w = readMantissa w := by
  have hne : ∀ c ∈ w, decide (c ≠ 'e') := fun c hc ↦ decide_eq_true fun h ↦ hw (h ▸ hc)
  obtain ⟨htake, hdrop⟩ := takeWhile_of_forall hne
  rw [readUnsigned, htake, hdrop, List.drop_nil, readExponent]
  · simp
  all_goals simp

theorem readUnsigned_exponent (hw : 'e' ∉ w) (e : ℤ) :
    readUnsigned (w ++ exponent e) = readMantissa w * 10 ^ e := by
  have hne : ∀ c ∈ w, decide (c ≠ 'e') := fun c hc ↦ decide_eq_true fun h ↦ hw (h ▸ hc)
  obtain ⟨u, hu⟩ : ∃ u, exponent e = 'e' :: u := ⟨_, rfl⟩
  obtain ⟨htake, hdrop⟩ := takeWhile_append_cons (p := (· ≠ 'e')) (c := 'e') (w := u) hne
    (by decide)
  have hexp : readExponent u = e := by
    rw [← readExponent_exponent e, hu]
    rfl
  rw [readUnsigned, hu, htake, hdrop, List.drop_succ_cons, List.drop_zero, hexp]

/-! ## Six significant digits -/

theorem le_roundHalfEven {q : ℚ} {n : ℤ} (h : n ≤ q) : n ≤ roundHalfEven q := by
  have hfloor : n ≤ ⌊q⌋ := Int.le_floor.mpr h
  rw [roundHalfEven]
  split_ifs <;> omega

theorem roundHalfEven_le {q : ℚ} {n : ℤ} (h : q < n) : roundHalfEven q ≤ n := by
  have hfloor : ⌊q⌋ < n := Int.floor_lt.mpr h
  rw [roundHalfEven]
  split_ifs <;> omega

/-- The significant digits of a positive number, one before the point and `p` after it, as an
integer, and the exponent of the first. -/
def significandTo (p : ℕ) (a : ℚ) : ℕ × ℤ :=
  let e := Int.log 10 a
  let m := (roundHalfEven (a * 10 ^ (p - e))).toNat
  if m = 10 ^ (p + 1) then (10 ^ p, e + 1) else (m, e)

/-- There are as many digits as asked for, and the first is not zero. -/
theorem significandTo_bounds {p : ℕ} {a : ℚ} (ha : 0 < a) :
    10 ^ p ≤ (significandTo p a).1 ∧ (significandTo p a).1 < 10 ^ (p + 1) := by
  have hten : (10 : ℚ) ≠ 0 := by norm_num
  have hpos : ∀ z : ℤ, (0 : ℚ) < 10 ^ z := zpow_pos (by norm_num)
  have hlow : (((10 ^ p : ℕ) : ℤ) : ℚ) ≤ a * 10 ^ (p - Int.log 10 a) := by
    have h := Int.zpow_log_le_self (b := 10) (by norm_num) ha
    calc (((10 ^ p : ℕ) : ℤ) : ℚ) = 10 ^ Int.log 10 a * 10 ^ (p - Int.log 10 a) := by
          rw [← zpow_add₀ hten, add_sub_cancel, zpow_natCast]
          norm_num
      _ ≤ a * 10 ^ (p - Int.log 10 a) := by
          refine mul_le_mul_of_nonneg_right ?_ (hpos _).le
          exact_mod_cast h
  have hhigh : a * 10 ^ (p - Int.log 10 a) < (((10 ^ (p + 1) : ℕ) : ℤ) : ℚ) := by
    have h := Int.lt_zpow_succ_log_self (b := 10) (by norm_num) a
    calc a * 10 ^ (p - Int.log 10 a)
        < 10 ^ (Int.log 10 a + 1) * 10 ^ (p - Int.log 10 a) := by
          refine mul_lt_mul_of_pos_right ?_ (hpos _)
          exact_mod_cast h
      _ = (((10 ^ (p + 1) : ℕ) : ℤ) : ℚ) := by
          have hexp : Int.log 10 a + 1 + (p - Int.log 10 a) = ((p + 1 : ℕ) : ℤ) := by
            push_cast
            ring
          rw [← zpow_add₀ hten, hexp, zpow_natCast]
          norm_num
  have hle := le_roundHalfEven hlow
  have hge := roundHalfEven_le hhigh
  rw [significandTo]
  split_ifs with h
  · exact ⟨le_rfl, Nat.pow_lt_pow_succ (by decide)⟩
  · constructor <;> dsimp only <;> omega

theorem significand_eq (a : ℚ) : significand a = significandTo 5 a := by
  rw [significand, significandTo]
  norm_num

theorem significand_bounds {a : ℚ} (ha : 0 < a) :
    100000 ≤ (significand a).1 ∧ (significand a).1 < 1000000 := by
  have h : 10 ^ 5 ≤ (significandTo 5 a).1 ∧ (significandTo 5 a).1 < 10 ^ (5 + 1) :=
    significandTo_bounds ha
  rw [significand_eq]
  norm_num at h
  exact h

theorem notMem_e (hds : ∀ c ∈ ds, c.isDigit) : 'e' ∉ ds :=
  fun h ↦ absurd (hds _ h) (by decide)

theorem notMem_e_fraction (hds : ∀ c ∈ ds, c.isDigit) : 'e' ∉ fraction ds := by
  intro h
  rcases mem_fraction h with h | h
  · exact notMem_e hds h
  · exact absurd h (by decide)

/-- **The value of six significant digits and an exponent.** -/
theorem readUnsigned_showDigits (hds : ∀ c ∈ ds, c.isDigit) (hlen : ds.length = 6) (e : ℤ) :
    readUnsigned (showDigits ds e) = Nat.ofDigitChars 10 ds 0 * 10 ^ (e - 5) := by
  have hten : (10 : ℚ) ≠ 0 := by norm_num
  have htake : ∀ n, ∀ c ∈ ds.take n, c.isDigit := fun n c hc ↦ hds c (List.mem_of_mem_take hc)
  have hdrop : ∀ n, ∀ c ∈ ds.drop n, c.isDigit := fun n c hc ↦ hds c (List.mem_of_mem_drop hc)
  have hpow : ∀ n : ℕ, (1 : ℚ) / 10 ^ n = 10 ^ (-(n : ℤ)) := by
    intro n
    rw [zpow_neg, zpow_natCast, one_div]
  have hno : ∀ n, 'e' ∉ ds.take n ++ fraction (ds.drop n) := by
    intro n hmem
    rcases List.mem_append.mp hmem with h | h
    · exact notMem_e (htake n) h
    · exact notMem_e_fraction (hdrop n) h
  rw [showDigits]
  split_ifs with hsci hneg
  · rw [readUnsigned_exponent (hno 1), readMantissa_fraction (htake 1), List.take_append_drop,
      List.length_drop, hlen, div_mul_eq_mul_div, mul_div_assoc]
    congr 1
    rw [eq_comm, zpow_sub₀ hten]
    rfl
  · have hzeros : ∀ c ∈ List.replicate (-e - 1).toNat '0' ++ ds, c.isDigit := by
      intro c hc
      rcases List.mem_append.mp hc with hc | hc
      · rw [List.eq_of_mem_replicate hc]
        decide
      · exact hds c hc
    have hmem : 'e' ∉ ['0'] ++ fraction (List.replicate (-e - 1).toNat '0' ++ ds) := by
      rw [List.mem_append, not_or]
      exact ⟨by decide, notMem_e_fraction hzeros⟩
    have hvalue : Nat.ofDigitChars 10 (['0'] ++ (List.replicate (-e - 1).toNat '0' ++ ds)) 0 =
        Nat.ofDigitChars 10 ds 0 := by
      rw [Nat.ofDigitChars_append, Nat.ofDigitChars_append, Nat.ofDigitChars_replicate_zero]
      rfl
    refine (readUnsigned_mantissa hmem).trans ?_
    rw [readMantissa_fraction (List.forall_mem_singleton.mpr rfl), hvalue, List.length_append,
      List.length_replicate, hlen,
      div_eq_mul_one_div, hpow]
    congr 2
    omega
  · rw [readUnsigned_mantissa (hno _), readMantissa_fraction (htake _), List.take_append_drop,
      List.length_drop, hlen, div_eq_mul_one_div, hpow]
    congr 2
    omega

/-- A double rounded to six significant digits. -/
def sixDigits (q : ℚ) : ℚ :=
  if q = 0 then 0
  else (if q < 0 then -1 else 1) * ((significand |q|).1 * 10 ^ ((significand |q|).2 - 5))

theorem readDecimal_of_isDigit {c : Char} (hc : c.isDigit) :
    readDecimal (c :: w) = readUnsigned (c :: w) := by
  rw [readDecimal]
  rintro w' h
  rw [(List.cons.inj h).1] at hc
  exact absurd hc (by decide)

theorem readDecimal_showDigits (hds : ∀ c ∈ ds, c.isDigit) (hne : ds ≠ []) (e : ℤ) :
    readDecimal (showDigits ds e) = readUnsigned (showDigits ds e) := by
  obtain ⟨c, ds, rfl⟩ := List.exists_cons_of_ne_nil hne
  have hc := hds c List.mem_cons_self
  rw [showDigits]
  split_ifs
  · exact readDecimal_of_isDigit hc
  · exact readDecimal_of_isDigit (by decide)
  · exact readDecimal_of_isDigit hc

/-- **What is read back from the text of a double.** -/
theorem readDecimal_showDouble (q : ℚ) : readDecimal (showDouble q) = sixDigits q := by
  rw [showDouble, sixDigits]
  by_cases hzero : q = 0
  · rw [if_pos hzero, if_pos hzero]
    decide +kernel
  have hbounds := significand_bounds (abs_pos.mpr hzero)
  have hdigits : ∀ c ∈ Nat.toDigits 10 (significand |q|).1, c.isDigit := fun c hc ↦
    Nat.isDigit_of_mem_toDigits (by decide) le_rfl hc
  have hlen : (Nat.toDigits 10 (significand |q|).1).length = 6 := by
    refine le_antisymm ?_ ?_
    · exact (Nat.length_toDigits_le_iff (by decide) (by decide)).mpr hbounds.2
    · by_contra h
      have hle : (Nat.toDigits 10 (significand |q|).1).length ≤ 5 := by omega
      have hlt := (Nat.length_toDigits_le_iff (by decide) (by decide)).mp hle
      omega
  have hvalue := readUnsigned_showDigits hdigits hlen (significand |q|).2
  rw [Nat.ofDigitChars_ten_toDigits] at hvalue
  rw [if_neg hzero, if_neg hzero]
  split_ifs
  · rw [List.singleton_append, readDecimal, hvalue, neg_one_mul]
  · rw [List.nil_append, readDecimal_showDigits hdigits (List.ne_nil_of_length_eq_add_one hlen),
      hvalue, one_mul]

/-! ## Six decimals -/

/-- Digits with zeros in front. -/
def padDigits (n width : ℕ) : List Char :=
  List.replicate (width - (Nat.toDigits 10 n).length) '0' ++ Nat.toDigits 10 n

/-- A double with six decimals. -/
def showFixed (q : ℚ) : List Char :=
  let n := (roundHalfEven (|q| * 10 ^ 6)).toNat
  (if q < 0 then ['-'] else []) ++
    (Nat.toDigits 10 (n / 10 ^ 6) ++ '.' :: padDigits (n % 10 ^ 6) 6)

theorem isDigit_of_mem_padDigits {n width : ℕ} {c : Char} (hc : c ∈ padDigits n width) :
    c.isDigit := by
  rcases List.mem_append.mp hc with hc | hc
  · rw [List.eq_of_mem_replicate hc]
    decide
  · exact Nat.isDigit_of_mem_toDigits (by decide) le_rfl hc

theorem length_padDigits {n p : ℕ} (hn : n < 10 ^ (p + 1)) :
    (padDigits n (p + 1)).length = p + 1 := by
  have hle := (Nat.length_toDigits_le_iff (n := n) (b := 10) (k := p + 1) (by decide)
    p.succ_pos).mpr hn
  rw [padDigits, List.length_append, List.length_replicate]
  omega

theorem ofDigitChars_padDigits (n p : ℕ) : Nat.ofDigitChars 10 (padDigits n p) 0 = n := by
  rw [padDigits, Nat.ofDigitChars_append, Nat.ofDigitChars_replicate_zero, Nat.mul_zero,
    Nat.ofDigitChars_ten_toDigits]

theorem mem_showFixed {q : ℚ} {c : Char} (h : c ∈ showFixed q) :
    c.isDigit ∨ c = '-' ∨ c = '.' := by
  rcases List.mem_append.mp h with h | h
  · split_ifs at h
    · exact .inr (.inl (List.mem_singleton.mp h))
    · cases h
  · rcases List.mem_append.mp h with h | h
    · exact .inl (Nat.isDigit_of_mem_toDigits (by decide) le_rfl h)
    · rcases List.mem_cons.mp h with rfl | h
      · exact .inr (.inr rfl)
      · exact .inl (isDigit_of_mem_padDigits h)

def sixDecimals (q : ℚ) : ℚ :=
  (if q < 0 then -1 else 1) * (roundHalfEven (|q| * 10 ^ 6) / 10 ^ 6)

example : showFixed (-1 / 3) = "-0.333333".toList := by decide +kernel

/-- **What is read back from the text with six decimals.** -/
theorem readDecimal_showFixed (q : ℚ) : readDecimal (showFixed q) = sixDecimals q := by
  have hnonneg : 0 ≤ roundHalfEven (|q| * 10 ^ 6) := by
    have hq : ((0 : ℤ) : ℚ) ≤ |q| * 10 ^ 6 := by
      rw [Int.cast_zero]
      exact mul_nonneg (abs_nonneg q) (by norm_num)
    exact le_roundHalfEven hq
  obtain ⟨n, hn⟩ := Int.eq_ofNat_of_zero_le hnonneg
  rw [showFixed, sixDecimals, hn]
  have hdigits : ∀ n, ∀ c ∈ Nat.toDigits 10 n, c.isDigit := fun n c hc ↦
    Nat.isDigit_of_mem_toDigits (by decide) le_rfl hc
  have hlen : (padDigits (n % 10 ^ 6) 6).length = 6 :=
    length_padDigits (Nat.mod_lt _ (by decide))
  have hvalue : Nat.ofDigitChars 10
      (Nat.toDigits 10 (n / 10 ^ 6) ++ padDigits (n % 10 ^ 6) 6) 0 = n := by
    rw [Nat.ofDigitChars_append, Nat.ofDigitChars_ten_toDigits,
      Nat.ofDigitChars_eq_ofDigitChars_zero, hlen, ofDigitChars_padDigits]
    exact Nat.div_add_mod n (10 ^ 6)
  have hno : 'e' ∉ Nat.toDigits 10 (n / 10 ^ 6) ++ '.' :: padDigits (n % 10 ^ 6) 6 := by
    rw [List.mem_append, List.mem_cons, not_or, not_or]
    exact ⟨notMem_e (hdigits _), by decide, notMem_e fun _ ↦ isDigit_of_mem_padDigits⟩
  have hread : readUnsigned (Nat.toDigits 10 (n / 10 ^ 6) ++ '.' :: padDigits (n % 10 ^ 6) 6) =
      n / 10 ^ 6 := by
    rw [readUnsigned_mantissa hno, readMantissa_point (hdigits _), hvalue, hlen]
  rw [Int.toNat_natCast, Int.cast_natCast]
  split_ifs
  · rw [List.singleton_append, readDecimal, hread, neg_one_mul]
  · obtain ⟨c, ds, hds⟩ :=
      List.exists_cons_of_ne_nil (Nat.toDigits_ne_nil (b := 10) (n := n / 10 ^ 6))
    have hc : c.isDigit := hdigits _ c (hds ▸ List.mem_cons_self)
    rw [hds] at hread ⊢
    rw [List.nil_append, one_mul]
    exact (readDecimal_of_isDigit hc).trans hread

/-! ## Scientific notation -/

/-- A double in scientific notation with six decimals. -/
def showExp (q : ℚ) : List Char :=
  let (m, e) := if q = 0 then (0, 0) else significandTo 6 |q|
  let ds := padDigits m 7
  (if q < 0 then ['-'] else []) ++ (ds.take 1 ++ '.' :: ds.drop 1 ++ exponent e)

/-- A double rounded to seven significant digits. -/
def sevenDigits (q : ℚ) : ℚ :=
  if q = 0 then 0
  else (if q < 0 then -1 else 1) *
    ((significandTo 6 |q|).1 * 10 ^ ((significandTo 6 |q|).2 - 6))

example : showExp 0 = "0.000000e+00".toList := by decide +kernel
example : showExp (-1234 / 10) = "-1.234000e+02".toList := by decide +kernel

theorem mem_showExp {q : ℚ} {c : Char} (h : c ∈ showExp q) : IsNumeralChar c := by
  rcases List.mem_append.mp h with h | h
  · split_ifs at h
    · exact .inr (.inl (List.mem_singleton.mp h))
    · cases h
  · rcases List.mem_append.mp h with h | h
    · rcases List.mem_append.mp h with h | h
      · exact .inl (isDigit_of_mem_padDigits (List.mem_of_mem_take h))
      · rcases List.mem_cons.mp h with rfl | h
        · exact .inr (.inr (.inr (.inl rfl)))
        · exact .inl (isDigit_of_mem_padDigits (List.mem_of_mem_drop h))
    · exact mem_exponent h

theorem showExp_ne_nil (q : ℚ) : showExp q ≠ [] := by
  refine List.append_ne_nil_of_right_ne_nil _ (List.append_ne_nil_of_right_ne_nil _ ?_)
  exact List.cons_ne_nil _ _

/-- **What is read back from scientific notation.** -/
theorem readDecimal_showExp (q : ℚ) : readDecimal (showExp q) = sevenDigits q := by
  obtain ⟨m, e, heq, hm, hvalue⟩ : ∃ m e,
      (if q = 0 then (0, 0) else significandTo 6 |q|) = (m, e) ∧ m < 10 ^ (6 + 1) ∧
        sevenDigits q = (if q < 0 then -1 else 1) * ((m : ℚ) * 10 ^ (e - 6)) := by
    rw [sevenDigits]
    by_cases hzero : q = 0
    · exact ⟨0, 0, if_pos hzero, by decide, by rw [if_pos hzero, Nat.cast_zero, zero_mul, mul_zero]⟩
    · exact ⟨_, _, if_neg hzero, (significandTo_bounds (abs_pos.mpr hzero)).2, if_neg hzero⟩
  have hdigits : ∀ c ∈ padDigits m 7, c.isDigit := fun _ ↦ isDigit_of_mem_padDigits
  have hlen : (padDigits m 7).length = 7 := length_padDigits hm
  have htake : ∀ c ∈ (padDigits m 7).take 1, c.isDigit := fun c hc ↦
    hdigits c (List.mem_of_mem_take hc)
  have hdrop : ∀ c ∈ (padDigits m 7).drop 1, c.isDigit := fun c hc ↦
    hdigits c (List.mem_of_mem_drop hc)
  have hno : 'e' ∉ (padDigits m 7).take 1 ++ '.' :: (padDigits m 7).drop 1 := by
    rw [List.mem_append, List.mem_cons, not_or, not_or]
    exact ⟨notMem_e htake, by decide, notMem_e hdrop⟩
  have hread :
      readUnsigned ((padDigits m 7).take 1 ++ '.' :: (padDigits m 7).drop 1 ++ exponent e) =
      m * 10 ^ (e - 6) := by
    rw [readUnsigned_exponent hno, readMantissa_point htake, List.take_append_drop,
      ofDigitChars_padDigits, List.length_drop, hlen, zpow_sub₀ (by norm_num), div_mul_eq_mul_div,
      mul_div_assoc]
    rfl
  rw [showExp, heq, hvalue]
  dsimp only
  split_ifs
  · rw [List.singleton_append, readDecimal, hread, neg_one_mul]
  · obtain ⟨c, hc⟩ : ∃ c, (padDigits m 7).take 1 = [c] :=
      List.length_eq_one_iff.mp (by rw [List.length_take, hlen]; rfl)
    rw [List.nil_append, one_mul, ← hread, hc]
    exact readDecimal_of_isDigit (htake c (hc ▸ List.mem_singleton_self c))

private theorem exponent_le {p m m' : ℕ} {e e' : ℤ} (hm' : m' < 10 ^ (p + 1)) (hm : 10 ^ p ≤ m)
    (h : (m : ℚ) * 10 ^ (e - p) = m' * 10 ^ (e' - p)) : e ≤ e' := by
  by_contra hlt
  have hten : (10 : ℚ) ≠ 0 := by norm_num
  have hpos : ∀ z : ℤ, (0 : ℚ) < 10 ^ z := zpow_pos (by norm_num)
  have hlow : ((10 ^ p : ℕ) : ℚ) ≤ m := Nat.cast_le.mpr hm
  have hhigh : (m' : ℚ) < ((10 ^ (p + 1) : ℕ) : ℚ) := Nat.cast_lt.mpr hm'
  have hchain : (m' : ℚ) * 10 ^ (e' - p) < m * 10 ^ (e - p) := by
    calc (m' : ℚ) * 10 ^ (e' - p) < ((10 ^ (p + 1) : ℕ) : ℚ) * 10 ^ (e' - p) :=
          mul_lt_mul_of_pos_right hhigh (hpos _)
      _ = 10 ^ (e' + 1) := by
          rw [Nat.cast_pow, Nat.cast_ofNat, ← zpow_natCast, ← zpow_add₀ hten]
          congr 1
          push_cast
          ring
      _ ≤ 10 ^ e := zpow_le_zpow_right₀ (by norm_num) (by omega)
      _ = ((10 ^ p : ℕ) : ℚ) * 10 ^ (e - p) := by
          rw [Nat.cast_pow, Nat.cast_ofNat, ← zpow_natCast, ← zpow_add₀ hten, add_sub_cancel]
      _ ≤ m * 10 ^ (e - p) := mul_le_mul_of_nonneg_right hlow (hpos _).le
  exact hchain.ne' h

theorem significand_unique {p m m' : ℕ} {e e' : ℤ} (hm : 10 ^ p ≤ m ∧ m < 10 ^ (p + 1))
    (hm' : 10 ^ p ≤ m' ∧ m' < 10 ^ (p + 1))
    (h : (m : ℚ) * 10 ^ (e - p) = m' * 10 ^ (e' - p)) : m = m' ∧ e = e' := by
  obtain rfl := le_antisymm (exponent_le hm'.2 hm.1 h) (exponent_le hm.2 hm'.1 h.symm)
  have hne : (10 : ℚ) ^ (e - p) ≠ 0 := zpow_ne_zero _ (by norm_num)
  exact ⟨Nat.cast_injective (mul_right_cancel₀ hne h), rfl⟩

private theorem rounded_pos {q : ℚ} (hq : q ≠ 0) :
    (0 : ℚ) < (significandTo 6 |q|).1 * 10 ^ ((significandTo 6 |q|).2 - 6) :=
  mul_pos (Nat.cast_pos.mpr (lt_of_lt_of_le (by norm_num)
    (significandTo_bounds (abs_pos.mpr hq)).1)) (zpow_pos (by norm_num) _)

theorem sevenDigits_neg_iff {q : ℚ} : sevenDigits q < 0 ↔ q < 0 := by
  rw [sevenDigits]
  split_ifs with hzero hneg
  · rw [hzero]
  · rw [neg_one_mul, neg_lt_zero]
    exact iff_of_true (rounded_pos hzero) hneg
  · rw [one_mul]
    exact iff_of_false (rounded_pos hzero).le.not_gt hneg

theorem sevenDigits_eq_zero_iff {q : ℚ} : sevenDigits q = 0 ↔ q = 0 := by
  refine ⟨fun h ↦ ?_, fun h ↦ if_pos h⟩
  by_contra hzero
  rw [sevenDigits, if_neg hzero] at h
  have hne := (rounded_pos hzero).ne'
  split_ifs at h
  · exact hne (neg_eq_zero.mp (by rwa [neg_one_mul] at h))
  · exact hne (by rwa [one_mul] at h)

/-- **The text in scientific notation is that of the value rounded to seven digits.** -/
theorem showExp_eq_iff {q q' : ℚ} : showExp q = showExp q' ↔ sevenDigits q = sevenDigits q' := by
  refine ⟨fun h ↦ by rw [← readDecimal_showExp, h, readDecimal_showExp], fun h ↦ ?_⟩
  have hneg : q < 0 ↔ q' < 0 := by rw [← sevenDigits_neg_iff, h, sevenDigits_neg_iff]
  have hzero : q = 0 ↔ q' = 0 := by rw [← sevenDigits_eq_zero_iff, h, sevenDigits_eq_zero_iff]
  by_cases hq : q = 0
  · rw [hq, hzero.mp hq]
  have hq' : q' ≠ 0 := fun h' ↦ hq (hzero.mpr h')
  have hsign : (if q < 0 then -1 else 1 : ℚ) ≠ 0 := by split_ifs <;> norm_num
  rw [sevenDigits, sevenDigits, if_neg hq, if_neg hq', if_congr hneg.symm rfl rfl] at h
  have hdigits : significandTo 6 |q| = significandTo 6 |q'| := by
    have hvalue := mul_left_cancel₀ hsign h
    obtain ⟨hm, he⟩ := significand_unique (p := 6) (significandTo_bounds (abs_pos.mpr hq))
      (significandTo_bounds (abs_pos.mpr hq')) hvalue
    exact Prod.ext hm he
  rw [showExp, showExp, if_neg hq, if_neg hq', hdigits, if_congr hneg rfl rfl]

end ScaffCC.Text
