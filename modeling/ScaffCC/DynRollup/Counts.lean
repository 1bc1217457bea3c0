import ScaffCC.DynRollup.Rounds

/-!
# Which trip counts are right

The difference that the pass computes is the number of rounds for some loops and not for others. It
is for a loop that goes up as long as it is below its final bound, or down as long as it is above
it, if no bound is a constant and the comparison is one of 32 bits. A constant bound changes this: a
constant final one is moved by one for three of the comparisons, and an initial zero lets the
addition of one be forgotten. An exit on equality is counted as if the loop went down, and a loop
that goes on as long as the bounds differ as if it went up.

The first part is about numbers only, and checks the table of all comparisons and directions.
-/

open Counting

namespace ScaffCC.DynRollup

/-! ## Numbers -/

section Numbers

variable {lo hi a b k x y : ℤ} {r : Rel} {exitOnTrue up endConst zero : Bool}

def runRel (r : Rel) (exitOnTrue : Bool) : Rel := if exitOnTrue then r.negate else r

/-- If the loop runs and ends, then the difference is how often it runs. -/
def Told (lo hi : ℤ) (r : Rel) (exitOnTrue up endConst zero : Bool) (x y : ℤ) : Prop :=
  Ends lo hi (runRel r exitOnTrue) up x y →
    runs lo hi (runRel r exitOnTrue) up x y < 2 ^ 32 ∧
      (2 ^ 32 : ℤ) ∣ runs lo hi (runRel r exitOnTrue) up x y - diff r up endConst zero x y

/-- The loops that the differences are meant for. -/
def meant (r : Rel) (exitOnTrue up : Bool) : Bool :=
  match r with
  | .eq => exitOnTrue && !up
  | .ne | .lt | .le => !exitOnTrue && up
  | .gt | .ge => !exitOnTrue && !up

/-- The difference is right for the constant initial bound `a`. -/
def SuitsInitial (lo hi : ℤ) (r : Rel) (exitOnTrue up zero : Bool) (a : ℤ) : Prop :=
  meant r exitOnTrue up = true ∧
    match r with
    | .eq | .ne => hi - lo + 1 = 2 ^ 32
    | .lt => hi - a < 2 ^ 32
    | .le => hi - a < 2 ^ 32 ∧ zero = false
    | .gt | .ge => a - lo < 2 ^ 32

/-- The difference is right for the constant final bound `b`. -/
def SuitsFinal (lo hi : ℤ) (r : Rel) (exitOnTrue up : Bool) (b : ℤ) : Prop :=
  match r, exitOnTrue, up with
  | .eq, true, false => hi - lo + 1 = 2 ^ 32
  | .lt, false, true => b - lo < 2 ^ 32
  | .gt, false, false => hi - b < 2 ^ 32
  -- The body runs once, and the bound that has been moved is one away.
  | .ne, true, false => True
  -- Loops that go on until the counter starts again on the other side.
  | .lt, false, false => b = lo + 1
  | .gt, false, true => b = hi - 1
  | .le, false, false => b = lo
  | .ge, false, true => b = hi
  | .ge, true, false => b = lo + (2 ^ 32 - 2)
  | .le, true, true => b = hi - (2 ^ 32 - 2)
  | _, _, _ => False

/-- The difference is right if both bounds are found at run time. -/
def SuitsBoth (lo hi : ℤ) (r : Rel) (exitOnTrue up : Bool) : Prop :=
  meant r exitOnTrue up = true ∧ hi - lo + 1 = 2 ^ 32

/-- Final bounds that show that a difference is wrong. -/
def finalTests (lo hi : ℤ) (q : Rel) (a : ℤ) : List ℤ :=
  match q with
  | .eq => [a]
  | .ne => [a - 1, a + 1, lo, hi]
  | .lt => [a + 1, a + 2, hi]
  | .le => [a, a + 1, hi - 1]
  | .gt => [a - 1, a - 2, lo]
  | .ge => [a, a - 1, lo + 1]

def initialTests (lo hi : ℤ) (q : Rel) (b : ℤ) : List ℤ :=
  match q with
  | .eq => [b]
  | .ne => [b - 1, b + 1, lo, hi]
  | .lt => [lo, lo + 1, b - 1]
  | .le => [lo, lo + 1, b]
  | .gt => [hi, hi - 1, b + 1]
  | .ge => [hi, hi - 1, b]

/-- Two bounds with the most numbers to go through from one to the other. -/
def spread (lo hi : ℤ) : Rel → ℤ × ℤ
  | .eq | .le => (lo, lo)
  | .ne | .lt => (lo, hi)
  | .gt => (hi, lo)
  | .ge => (hi, hi)

theorem ends_spread (q : Rel) (up : Bool) (hlt : lo < hi) :
    (lo ≤ (spread lo hi q).1 ∧ (spread lo hi q).1 ≤ hi) ∧
      (lo ≤ (spread lo hi q).2 ∧ (spread lo hi q).2 ≤ hi) ∧
      Ends lo hi q up (spread lo hi q).1 (spread lo hi q).2 := by
  cases q <;> cases up <;>
    simp only [spread, Ends, EndsUp, Rel.mirror, if_true, if_false, Bool.false_eq_true,
      and_true] <;>
    omega

theorem suitsInitial_of_told (hM : hi - lo + 1 = 2 ^ 32 * k) (hk : 0 < k) (hlo : lo ≤ a)
    (hhi : a ≤ hi) (hzero : zero = true → (2 ^ 32 : ℤ) ∣ a) (hrange : lo = 0 ∨ hi = -lo - 1)
    (h : ∀ y ∈ finalTests lo hi (runRel r exitOnTrue) a, lo ≤ y → y ≤ hi →
      Told lo hi r exitOnTrue up false zero a y)
    (hylo : lo ≤ y) (hyhi : y ≤ hi) (hends : Ends lo hi (runRel r exitOnTrue) up a y) :
    SuitsInitial lo hi r exitOnTrue up zero a := by
  by_contra hbad
  cases r <;> cases exitOnTrue <;> cases up <;> cases zero <;>
    simp only [finalTests, runRel, Rel.negate, Told, Ends, runs, EndsUp, runsUp, Rel.mirror, diff,
      SuitsInitial, meant, List.forall_mem_cons, if_true,
      ite_false, Bool.false_eq_true, Bool.not_true, Bool.not_false, Bool.and_true, Bool.and_false,
      true_and, false_and, and_true, not_false_iff, forall_const] at h hbad hends hzero <;>
    omega

theorem told_of_suitsInitial (hM : hi - lo + 1 = 2 ^ 32 * k) (hlo : lo ≤ a)
    (hhi : a ≤ hi) (hylo : lo ≤ y) (hyhi : y ≤ hi)
    (h : SuitsInitial lo hi r exitOnTrue up zero a) :
    Told lo hi r exitOnTrue up false zero a y := by
  intro hends
  obtain ⟨hmeant, hsize⟩ := h
  cases r <;> cases exitOnTrue <;> cases up <;> cases zero <;>
    simp only [meant, Bool.not_true, Bool.not_false, Bool.and_true, Bool.and_false,
      Bool.false_eq_true, reduceCtorEq, and_false] at hmeant hsize <;>
    simp only [runRel, Rel.negate, Ends, runs, EndsUp, runsUp, Rel.mirror, diff, if_true, ite_false,
      Bool.false_eq_true, and_true] at hends hsize ⊢ <;>
    (try split) <;> omega

theorem suitsFinal_of_told (zero : Bool) (hM : hi - lo + 1 = 2 ^ 32 * k) (hk : 0 < k) (hlo : lo ≤ b)
    (hhi : b ≤ hi)
    (h : ∀ x ∈ initialTests lo hi (runRel r exitOnTrue) b, lo ≤ x → x ≤ hi →
      Told lo hi r exitOnTrue up true zero x b)
    (hxlo : lo ≤ x) (hxhi : x ≤ hi) (hends : Ends lo hi (runRel r exitOnTrue) up x b) :
    SuitsFinal lo hi r exitOnTrue up b := by
  by_contra hbad
  cases r <;> cases exitOnTrue <;> cases up <;>
    simp only [initialTests, runRel, Rel.negate, Told, Ends, runs, EndsUp, runsUp, Rel.mirror, diff,
      SuitsFinal, List.forall_mem_cons, if_true, ite_false,
      Bool.false_eq_true, not_true, not_false_iff, forall_const]
      at h hbad hends <;>
    omega

theorem told_of_suitsFinal (hM : hi - lo + 1 = 2 ^ 32 * k) (hlo : lo ≤ b)
    (hhi : b ≤ hi) (hxlo : lo ≤ x) (hxhi : x ≤ hi) (h : SuitsFinal lo hi r exitOnTrue up b) :
    Told lo hi r exitOnTrue up true zero x b := by
  intro hends
  cases r <;> cases exitOnTrue <;> cases up <;>
    simp only [SuitsFinal] at h <;>
    simp only [runRel, Rel.negate, Ends, runs, EndsUp, runsUp, Rel.mirror, diff, if_true, ite_false,
      Bool.false_eq_true] at hends ⊢ <;>
    (try split) <;> omega

theorem suitsBoth_of_told (hM : hi - lo + 1 = 2 ^ 32 * k) (hk : 0 < k)
    (hrange : lo = 0 ∨ hi = -lo - 1)
    (h : ∀ x y, lo ≤ x → x ≤ hi → lo ≤ y → y ≤ hi → Told lo hi r exitOnTrue up false false x y) :
    SuitsBoth lo hi r exitOnTrue up := by
  have hsuits : ∀ a y, lo ≤ a → a ≤ hi → lo ≤ y → y ≤ hi →
      Ends lo hi (runRel r exitOnTrue) up a y → SuitsInitial lo hi r exitOnTrue up false a :=
    fun a y hlo hhi hylo hyhi hends ↦ suitsInitial_of_told hM hk hlo hhi nofun hrange
      (fun z _ hzlo hzhi ↦ h a z hlo hhi hzlo hzhi) hylo hyhi hends
  -- A pair of bounds with the whole range to go through shows how large that may be.
  obtain ⟨⟨hxlo, hxhi⟩, ⟨hylo, hyhi⟩, hends⟩ :=
    ends_spread (runRel r exitOnTrue) up (show lo < hi by omega)
  obtain ⟨hmeant, hsize⟩ := hsuits _ _ hxlo hxhi hylo hyhi hends
  refine ⟨hmeant, ?_⟩
  cases r <;> cases exitOnTrue <;> simp only [meant, Bool.not_true, Bool.not_false, Bool.true_and,
    Bool.false_and, Bool.false_eq_true] at hmeant <;>
    simp only [runRel, Rel.negate, spread, if_false, Bool.false_eq_true] at hsize <;> omega

theorem told_of_suitsBoth (hxlo : lo ≤ x) (hxhi : x ≤ hi) (hylo : lo ≤ y) (hyhi : y ≤ hi)
    (h : SuitsBoth lo hi r exitOnTrue up) : Told lo hi r exitOnTrue up false false x y := by
  have hsize : SuitsInitial lo hi r exitOnTrue up false x := by
    obtain ⟨hmeant, hrange⟩ := h
    refine ⟨hmeant, ?_⟩
    cases r <;> simp only [and_true] <;> omega
  exact told_of_suitsInitial (k := 1) (by have := h.2; omega) hxlo hxhi hylo hyhi hsize

end Numbers

/-! ## Loops -/

namespace Loop

variable (L : Loop)

/-- **The loops for which the difference is right.** -/
def Suits : Prop :=
  L.Emits ∧ 32 ≤ L.cmpWidth ∧
    match L.initial, L.final with
    | some a, none =>
      SuitsInitial L.lo L.hi L.predicate.rel L.exitOnTrue L.up L.startsAtZero (L.read a)
    | none, some b =>
      SuitsFinal L.lo L.hi L.predicate.rel L.exitOnTrue L.up (value L.predicate.isSigned b)
    | none, none => SuitsBoth L.lo L.hi L.predicate.rel L.exitOnTrue L.up
    | some _, some _ => False

variable {L}

theorem exists_two_pow (h : 32 ≤ L.cmpWidth) : ∃ k, 0 < k ∧ L.hi - L.lo + 1 = 2 ^ 32 * k := by
  refine ⟨2 ^ (L.cmpWidth - 32), Int.pow_pos (by omega), ?_⟩
  rw [hi, lo, high_sub_low _ L.cmpWidth_pos, ← pow_add, Nat.add_sub_cancel' h]

theorem ofInt_diff (r : Rel) (up endConst zero : Bool) (x y : ℤ) :
    BitVec.ofInt 32 (diff r up endConst zero x y) =
      diff r up endConst zero (BitVec.ofInt 32 x) (BitVec.ofInt 32 y) := by
  have hone : BitVec.ofInt 32 1 = 1 := rfl
  cases r <;>
    simp only [diff, apply_ite (BitVec.ofInt 32), ofInt_sub, BitVec.ofInt_add, hone]

theorem start_setWidth (h : 32 ≤ L.cmpWidth) (inVal : BitVec L.inWidth) :
    (L.start inVal).setWidth 32 = BitVec.ofInt 32 (L.first inVal) := by
  rw [first, read, ← setWidth_eq_ofInt_value h, BitVec.setWidth_setWidth_of_le _ h]

theorem endWord_eq (h : 32 ≤ L.cmpWidth) (outVal : BitVec L.outWidth) :
    L.endWord outVal = BitVec.ofInt 32 (L.last outVal) := by
  rw [last, ← setWidth_eq_ofInt_value h, bound, endWord]
  cases L.final with
  | some b => rfl
  | none => exact (BitVec.setWidth_setWidth_of_le _ h).symm

theorem zero_dvd (h : 32 ≤ L.cmpWidth) {a : BitVec L.inWidth} (ha : L.initial = some a)
    (hzero : L.startsAtZero = true) : (2 ^ 32 : ℤ) ∣ L.read a := by
  have hword : a.setWidth 32 = 0 := by simpa [startsAtZero, ha] using hzero
  have hnat : (BitVec.ofInt 32 (L.read a)).toNat = 0 := by
    rw [read, ← setWidth_eq_ofInt_value h, BitVec.setWidth_setWidth_of_le _ h, hword]
    rfl
  rw [BitVec.toNat_ofInt] at hnat
  omega

/-- The first number is any number, if it is found at run time. -/
theorem exists_first (h : L.initial = none) {x : ℤ} (hlo : L.lo ≤ x) (hhi : x ≤ L.hi) :
    ∃ inVal, L.first inVal = x := by
  obtain ⟨v, hv⟩ := exists_value L.cmpWidth_pos L.cmpWidth_le_inWidth hlo hhi
  exact ⟨v, by rw [first, start, h]; exact hv⟩

theorem exists_last (h : L.final = none) {y : ℤ} (hlo : L.lo ≤ y) (hhi : y ≤ L.hi) :
    ∃ outVal, L.last outVal = y := by
  obtain ⟨v, hv⟩ := exists_value L.cmpWidth_pos L.cmpWidth_le_outWidth hlo hhi
  exact ⟨v, by rw [last, bound, h]; exact hv⟩

theorem first_of_initial {a : BitVec L.inWidth} (h : L.initial = some a)
    (inVal : BitVec L.inWidth) : L.first inVal = L.read a := by
  rw [first, start, h]
  rfl

theorem last_of_final {b : BitVec L.cmpWidth} (h : L.final = some b)
    (outVal : BitVec L.outWidth) : L.last outVal = value L.predicate.isSigned b := by
  rw [last, bound, h]
  rfl

theorem startsAtZero_of_none (h : L.initial = none) : L.startsAtZero = false := by
  rw [startsAtZero, h]
  rfl

/-- **The table of loops.** -/
theorem told_iff (h : 32 ≤ L.cmpWidth) (hemits : L.Emits) :
    (∀ inVal outVal, Told L.lo L.hi L.predicate.rel L.exitOnTrue L.up L.final.isSome L.startsAtZero
      (L.first inVal) (L.last outVal)) ↔ L.Dead ∨ L.Suits := by
  obtain ⟨k, hk, hM⟩ := L.exists_two_pow h
  have hrange := low_eq_or L.predicate.isSigned L.cmpWidth
  constructor
  · intro htold
    -- a loop that never runs is told rightly by any count
    by_cases hdead : L.Dead
    · exact .inl hdead
    rw [dead_iff] at hdead
    push Not at hdead
    obtain ⟨inVal, outVal, hends⟩ := hdead
    refine .inr ⟨hemits, h, ?_⟩
    -- which of the two ends the pass knows decides what it emits
    cases hinit : L.initial with
    | some a =>
      have hfirst := first_of_initial hinit
      cases hfinal : L.final with
      | some b => simpa [countWidth, hinit, hfinal] using hemits.countWidth_eq
      | none =>
        rw [hfirst] at hends
        refine suitsInitial_of_told hM hk (low_le_value _) (value_le_high _) (zero_dvd h hinit)
          hrange (fun y _ hylo hyhi ↦ ?_) (low_le_value _) (value_le_high _) hends
        obtain ⟨outVal, rfl⟩ := exists_last hfinal hylo hyhi
        simpa only [hfirst, hfinal, Option.isSome_none] using htold inVal outVal
    | none =>
      cases hfinal : L.final with
      | some b =>
        have hlast := last_of_final hfinal
        rw [hlast] at hends
        refine suitsFinal_of_told L.startsAtZero hM hk (low_le_value _) (value_le_high _)
          (fun x _ hxlo hxhi ↦ ?_) (low_le_value _) (value_le_high _) hends
        obtain ⟨inVal, rfl⟩ := exists_first hinit hxlo hxhi
        simpa only [hlast, hfinal, Option.isSome_some] using htold inVal outVal
      | none =>
        refine suitsBoth_of_told hM hk hrange fun x y hxlo hxhi hylo hyhi ↦ ?_
        obtain ⟨inVal, rfl⟩ := exists_first hinit hxlo hxhi
        obtain ⟨outVal, rfl⟩ := exists_last hfinal hylo hyhi
        have hzero := startsAtZero_of_none hinit
        simpa only [hzero, hfinal, Option.isSome_none] using htold inVal outVal
  · rintro (hdead | ⟨-, -, hsuits⟩) inVal outVal
    · exact fun hends ↦ absurd hends (dead_iff.mp hdead inVal outVal)
    cases hinit : L.initial with
    | some a =>
      cases hfinal : L.final with
      | some b => simp [hinit, hfinal] at hsuits
      | none =>
        simp only [hinit, hfinal] at hsuits
        rw [first_of_initial hinit]
        exact told_of_suitsInitial hM (low_le_value _) (value_le_high _) (low_le_value _)
          (value_le_high _) hsuits
    | none =>
      cases hfinal : L.final with
      | some b =>
        simp only [hinit, hfinal] at hsuits
        rw [last_of_final hfinal]
        exact told_of_suitsFinal hM (low_le_value _) (value_le_high _) (low_le_value _)
          (value_le_high _) hsuits
      | none =>
        simp only [hinit, hfinal] at hsuits
        rw [startsAtZero_of_none hinit]
        exact told_of_suitsBoth (low_le_value _) (value_le_high _) (low_le_value _)
          (value_le_high _) hsuits

end Loop

theorem toNat_ofInt_eq_iff {n : ℕ} {d : ℤ} :
    (BitVec.ofInt 32 d).toNat = n ↔ (n : ℤ) < 2 ^ 32 ∧ (2 ^ 32 : ℤ) ∣ n - d := by
  rw [BitVec.toNat_ofInt]
  omega

variable {L : AnalyzedLoop}

theorem countRight_of_none (h : ∀ inVal outVal, marker L inVal outVal = none) :
    CountRight L ↔ L.Dead := by
  constructor
  · intro hright inVal outVal n hn hruns
    have htold := hright inVal outVal n hn hruns
    rw [h] at htold
    cases htold
  · exact fun hdead inVal outVal n hn hruns ↦ absurd hruns (hdead inVal outVal n hn)

theorem countRight_of_tripCount (h : 1 < L.tripCount.toInt) : CountRight L := by
  intro inVal outVal n hn hruns
  have hne : L.tripCount ≠ 0 := by
    intro hzero
    rw [hzero] at h
    exact absurd h (by decide)
  rw [marker, if_pos h, L.eq_tripCount hne inVal outVal n hn hruns]
  rfl

theorem marker_of_zero (h : L.tripCount = 0) (inVal : BitVec L.inWidth)
    (outVal : BitVec L.outWidth) :
    marker L inVal outVal = addDummyStart none (getIncAndCmpConditions L.toLoop inVal outVal) := by
  rw [marker, if_pos h, h]
  rfl

theorem marker_eq (hzero : L.tripCount = 0) (hemits : L.Emits) (inVal : BitVec L.inWidth)
    (outVal : BitVec L.outWidth) :
    marker L inVal outVal = some (diff L.predicate.rel L.up L.final.isSome L.startsAtZero
      ((L.start inVal).setWidth 32) (L.endWord outVal)) := by
  rw [marker_of_zero hzero, Loop.addDummyStart_eq hemits]

section Bits

variable {c w : ℕ}

theorem setWidth_add_two_pow (h : c ≤ w) (v : BitVec w) :
    (v + BitVec.ofNat w (2 ^ c)).setWidth c = v.setWidth c := by
  have hzero : BitVec.ofNat c (2 ^ c) = 0 := by
    refine BitVec.eq_of_toNat_eq ?_
    rw [BitVec.toNat_ofNat, Nat.mod_self]
    rfl
  rw [BitVec.setWidth_add _ _ h, BitVec.setWidth_ofNat_of_le h, hzero]
  exact BitVec.add_zero _

theorem two_pow_ne_zero (hc : c < 32) (h : 32 ≤ w) : (BitVec.ofNat w (2 ^ c)).setWidth 32 ≠ 0 := by
  intro hzero
  have hnat := congrArg BitVec.toNat hzero
  rw [BitVec.setWidth_ofNat_of_le h, BitVec.toNat_ofNat,
    Nat.mod_eq_of_lt (Nat.pow_lt_pow_right (by omega) hc)] at hnat
  exact absurd hnat (Nat.two_pow_pos c).ne'

theorem diff_add_right {r : Rel} {up endConst zero : Bool} {x y d : BitVec 32}
    (h : diff r up endConst zero x (y + d) = diff r up endConst zero x y) : d = 0 := by
  cases r <;> simp only [diff] at h <;> grind

theorem diff_add_left {r : Rel} {up endConst zero : Bool} {x y d : BitVec 32}
    (h : diff r up endConst zero (x + d) y = diff r up endConst zero x y) : d = 0 := by
  cases r <;> simp only [diff] at h <;> grind

end Bits

/-- A comparison of few bits says too little about the bounds. -/
theorem dead_of_lt (hzero : L.tripCount = 0) (hemits : L.Emits) (h : L.cmpWidth < 32)
    (hright : CountRight L) : L.Dead := by
  intro inVal outVal n hn hruns
  have hruns' := (Loop.runs_iff hn).mp hruns
  -- The same number of rounds means the same count.
  have hsame : ∀ inVal' outVal', L.first inVal' = L.first inVal → L.last outVal' = L.last outVal →
      marker L inVal' outVal' = marker L inVal outVal := by
    intro inVal' outVal' hfirst hlast
    have htold := hright inVal outVal n hn hruns
    have htold' := hright inVal' outVal' n hn
      ((Loop.runs_iff hn).mpr (by rw [hfirst, hlast]; exact hruns'))
    exact Option.map_injective (fun _ _ ↦ BitVec.eq_of_toNat_eq) (htold'.trans htold.symm)
  have hwidth := hemits.countWidth_eq
  rw [Loop.countWidth] at hwidth
  cases hfinal : L.final with
  | none =>
    have hle : 32 ≤ L.outWidth := by
      cases hinit : L.initial <;> simp only [hinit, hfinal, Option.some.injEq] at hwidth <;> omega
    have hlast : L.last (outVal + BitVec.ofNat _ (2 ^ L.cmpWidth)) = L.last outVal := by
      rw [Loop.last, Loop.last, Loop.bound, Loop.bound, hfinal, Option.getD_none, Option.getD_none,
        setWidth_add_two_pow (by omega)]
    have heq := hsame inVal _ rfl hlast
    rw [marker_eq hzero hemits, marker_eq hzero hemits, Option.some.injEq, Loop.endWord,
      Loop.endWord, hfinal] at heq
    simp only [BitVec.setWidth_add _ _ hle] at heq
    exact two_pow_ne_zero h hle (diff_add_right heq)
  | some b =>
    cases hinit : L.initial with
    | some a => simp [hinit, hfinal] at hwidth
    | none =>
      simp only [hinit, hfinal, Option.some.injEq] at hwidth
      have hle : 32 ≤ L.inWidth := by omega
      have hfirst : L.first (inVal + BitVec.ofNat _ (2 ^ L.cmpWidth)) = L.first inVal := by
        rw [Loop.first, Loop.first, Loop.start, Loop.start, hinit, Option.getD_none,
          Option.getD_none, Loop.read, Loop.read, setWidth_add_two_pow (by omega)]
      have heq := hsame _ outVal hfirst rfl
      rw [marker_eq hzero hemits, marker_eq hzero hemits, Option.some.injEq, Loop.start, Loop.start,
        hinit, Option.getD_none, Option.getD_none, BitVec.setWidth_add _ _ hle] at heq
      exact two_pow_ne_zero h hle (diff_add_left heq)

theorem countRight_iff_told (hzero : L.tripCount = 0) (hemits : L.Emits) (h : 32 ≤ L.cmpWidth) :
    CountRight L ↔
      ∀ inVal outVal, Told L.lo L.hi L.predicate.rel L.exitOnTrue L.up L.final.isSome
        L.startsAtZero (L.first inVal) (L.last outVal) := by
  have hmarker : ∀ inVal outVal, marker L inVal outVal = some (BitVec.ofInt 32
      (diff L.predicate.rel L.up L.final.isSome L.startsAtZero (L.first inVal)
        (L.last outVal))) := by
    intro inVal outVal
    rw [marker_eq hzero hemits, Loop.ofInt_diff, Loop.start_setWidth h, Loop.endWord_eq h]
  constructor
  · intro hright inVal outVal hends
    have hpos := runs_pos Loop.lo_lt_hi (low_le_value _) (value_le_high _) (low_le_value _)
      (value_le_high _) hends
    have hn := Int.toNat_of_nonneg hpos.le
    have htold := hright inVal outVal _ (by omega) ((Loop.runs_iff (by omega)).mpr ⟨hends, hn⟩)
    rw [hmarker, Option.map_some, Option.some.injEq, toNat_ofInt_eq_iff, hn] at htold
    exact htold
  · intro htold inVal outVal n hn hruns
    obtain ⟨hends, hcount⟩ := (Loop.runs_iff hn).mp hruns
    have hnum := htold inVal outVal hends
    rw [hmarker, Option.map_some, Option.some.injEq, toNat_ofInt_eq_iff, hcount]
    exact hnum

/-- **Which trip counts are right.** -/
theorem countRight_iff (L : AnalyzedLoop) :
    CountRight L ↔ L.Dead ∨ 1 < L.tripCount.toInt ∨ L.tripCount = 0 ∧ L.Suits := by
  by_cases hknown : 1 < L.tripCount.toInt
  · exact iff_of_true (countRight_of_tripCount hknown) (.inr (.inl hknown))
  by_cases hzero : L.tripCount = 0
  · by_cases hemits : L.Emits
    · by_cases hwide : 32 ≤ L.cmpWidth
      · rw [countRight_iff_told hzero hemits hwide, Loop.told_iff hwide hemits]
        simp [hzero]
      · constructor
        · exact fun hright ↦ .inl (dead_of_lt hzero hemits (by omega) hright)
        · rintro (hdead | hright | ⟨-, -, hle, -⟩)
          · exact fun inVal outVal n hn hruns ↦ absurd hruns (hdead inVal outVal n hn)
          · exact absurd hright hknown
          · exact absurd hle hwide
    · rw [countRight_of_none fun inVal outVal ↦ ?_]
      · simp [hknown, Loop.Suits, hemits]
      · rw [marker_of_zero hzero]
        exact Option.eq_none_iff_forall_ne_some.mpr
          fun m hm ↦ hemits (Loop.emits_of_addDummyStart hm)
  · rw [countRight_of_none fun inVal outVal ↦ ?_]
    · exact ⟨.inl, fun h ↦ h.resolve_right fun h ↦ h.elim hknown fun h ↦ hzero h.1⟩
    · rw [marker, if_neg hknown, if_neg hzero]
      rfl

/-- A loop of 32-bit numbers that goes up until it is equal to its final bound. -/
def untilEqual : AnalyzedLoop where
  inWidth := 32
  cmpWidth := 32
  outWidth := 32
  initial := none
  instOp := .add
  step := 1
  predicate := .eq
  exitOnTrue := true
  final := none
  cmpWidth_pos := by decide
  cmpWidth_le_inWidth := le_rfl
  cmpWidth_le_outWidth := le_rfl
  step_eq := .inl rfl
  tripCount := 0
  tripCount_ne_one := by decide
  eq_tripCount := fun h ↦ absurd rfl h

/-- From 0 to 3 its body runs three times. The marker is told `2 ^ 32 - 3`. -/
theorem not_countRight_untilEqual : ¬ CountRight untilEqual := by
  intro hright
  have hruns : untilEqual.Runs (0 : BitVec 32) (3 : BitVec 32) 3 := by
    refine ⟨by decide, fun m hm ↦ ?_⟩
    by_contra hlt
    obtain rfl | rfl | rfl : m = 0 ∨ m = 1 ∨ m = 2 := by omega
    · exact absurd hm (by decide)
    · exact absurd hm (by decide)
    · exact absurd hm (by decide)
  exact absurd (hright (0 : BitVec 32) (3 : BitVec 32) 3 (by decide) hruns) (by decide)

end ScaffCC.DynRollup
