import Mathlib.Data.Int.Order.Basic
import Mathlib.Order.Bounds.Basic
import Mathlib.Algebra.Order.Ring.Int
import ScaffCC.DynRollup.TripCount

/-!
# The rounds of a rolled loop

How often the body of a loop runs, in numbers: the induction variable is a counter that goes through
the range of the type of the comparison. And what the marker is told, in numbers: a difference of
the bounds, up to a multiple of `2 ^ 32`.
-/

open Counting

namespace ScaffCC.DynRollup

/-! ## Values -/

section Values

variable {b w : ℕ} {signed : Bool} {z : ℤ}

/-- The number that a value is read as. -/
def value (signed : Bool) (v : BitVec w) : ℤ := if signed then v.toInt else v.toNat

/-- The least number of a type. -/
def low (signed : Bool) (w : ℕ) : ℤ := if signed then -2 ^ (w - 1) else 0

/-- The greatest number of a type. -/
def high (signed : Bool) (w : ℕ) : ℤ := if signed then 2 ^ (w - 1) - 1 else 2 ^ w - 1

theorem high_sub_low (signed : Bool) (hw : 0 < w) : high signed w - low signed w + 1 = 2 ^ w := by
  obtain ⟨k, rfl⟩ : ∃ k, w = k + 1 := ⟨w - 1, by omega⟩
  cases signed with
  | false => simp [high, low]
  | true =>
    have hpow : (2 : ℤ) ^ (k + 1) = 2 ^ k + 2 ^ k := by rw [pow_succ]; omega
    simp only [high, low, if_true, Nat.add_sub_cancel]
    omega

theorem low_lt_high (signed : Bool) (hw : 0 < w) : low signed w < high signed w := by
  have hrange := high_sub_low signed hw
  have hpow : (2 : ℤ) ≤ 2 ^ w := le_self_pow₀ (by omega) (by omega)
  omega

/-- The range begins at zero, or it is that of a signed type. -/
theorem low_eq_or (signed : Bool) (w : ℕ) :
    low signed w = 0 ∨ high signed w = -low signed w - 1 := by
  cases signed with
  | false => exact .inl rfl
  | true => exact .inr (by simp [high, low])

theorem low_le_value (v : BitVec w) : low signed w ≤ value signed v := by
  cases signed with
  | false => exact Int.natCast_nonneg _
  | true => exact v.le_toInt

theorem value_le_high (v : BitVec w) : value signed v ≤ high signed w := by
  cases signed with
  | false =>
    have hlt : (v.toNat : ℤ) < 2 ^ w := by exact_mod_cast v.isLt
    simp only [value, high, Bool.false_eq_true, if_false]
    omega
  | true =>
    have hlt := v.toInt_lt
    simp only [value, high, if_true]
    omega

@[simp] theorem ofInt_value (v : BitVec w) : BitVec.ofInt w (value signed v) = v := by
  cases signed with
  | false => simp [value]
  | true => simp [value]

theorem value_ofInt (hw : 0 < w) (hlow : low signed w ≤ z) (hhigh : z ≤ high signed w) :
    value signed (BitVec.ofInt w z) = z := by
  cases signed with
  | false =>
    simp only [low, high, Bool.false_eq_true, if_false] at hlow hhigh
    have hmod : z % ((2 ^ w : ℕ) : ℤ) = z := by
      rw [Nat.cast_pow, Nat.cast_ofNat]
      exact Int.emod_eq_of_lt hlow (by omega)
    simp only [value, Bool.false_eq_true, if_false, BitVec.toNat_ofInt, hmod]
    exact Int.toNat_of_nonneg hlow
  | true =>
    simp only [low, high, if_true] at hlow hhigh
    exact BitVec.toInt_ofInt_eq_self hw hlow (by omega)

theorem setWidth_ofInt (h : w ≤ b) (z : ℤ) :
    (BitVec.ofInt b z).setWidth w = BitVec.ofInt w z := by
  apply BitVec.eq_of_toNat_eq
  simp only [BitVec.toNat_setWidth, BitVec.toNat_ofInt]
  have hdvd : ((2 ^ w : ℕ) : ℤ) ∣ ((2 ^ b : ℕ) : ℤ) := by exact_mod_cast Nat.pow_dvd_pow 2 h
  have hpos : (0 : ℤ) < ((2 ^ b : ℕ) : ℤ) := by exact_mod_cast Nat.two_pow_pos b
  have hpos' : (0 : ℤ) < ((2 ^ w : ℕ) : ℤ) := by exact_mod_cast Nat.two_pow_pos w
  have hb := Int.emod_nonneg z hpos.ne'
  have hw := Int.emod_nonneg z hpos'.ne'
  apply Int.natCast_inj.mp
  rw [Int.natCast_emod, Int.toNat_of_nonneg hb, Int.toNat_of_nonneg hw]
  exact Int.emod_emod_of_dvd z hdvd

theorem exists_value (hw : 0 < w) (h : w ≤ b) (hlow : low signed w ≤ z)
    (hhigh : z ≤ high signed w) :
    ∃ v : BitVec b, value signed (v.setWidth w) = z :=
  ⟨BitVec.ofInt b z, by rw [setWidth_ofInt h, value_ofInt hw hlow hhigh]⟩

theorem setWidth_eq_ofInt_value (h : b ≤ w) (v : BitVec w) :
    v.setWidth b = BitVec.ofInt b (value signed v) := by
  rw [← setWidth_ofInt h, ofInt_value]

theorem setWidth_sub (h : b ≤ w) (x y : BitVec w) :
    (x - y).setWidth b = x.setWidth b - y.setWidth b := by
  rw [BitVec.sub_eq_add_neg, BitVec.setWidth_add _ _ h, BitVec.setWidth_neg_of_le h,
    ← BitVec.sub_eq_add_neg]

theorem ofInt_sub (x y : ℤ) : BitVec.ofInt w (x - y) = BitVec.ofInt w x - BitVec.ofInt w y := by
  rw [Int.sub_eq_add_neg, BitVec.ofInt_add, BitVec.ofInt_neg, BitVec.sub_eq_add_neg]

theorem ofInt_two_pow (w : ℕ) : BitVec.ofInt w (2 ^ w) = 0 := by
  apply BitVec.eq_of_toNat_eq
  simp [BitVec.toNat_ofInt]

end Values

/-! ## Comparisons and steps -/

theorem Predicate.icmp_iff {w : ℕ} (p : Predicate) (x y : BitVec w) :
    p.icmp x y = true ↔ p.rel.Holds (value p.isSigned x) (value p.isSigned y) := by
  have heq : x = y ↔ x.toNat = y.toNat := BitVec.toNat_inj.symm
  cases p <;>
    simp [icmp, rel, Rel.Holds, value, isSigned, heq, BitVec.ule_iff_toNat_le,
      BitVec.ult_iff_toNat_lt, BitVec.slt_iff_toInt_lt, BitVec.sle_iff_toInt_le]

theorem value_next {w : ℕ} {signed : Bool} (hw : 0 < w) (up : Bool) (v : BitVec w) :
    value signed (if up then v + 1 else v - 1) =
      next (low signed w) (high signed w) up (value signed v) := by
  have hrange := high_sub_low signed hw
  have hnext : BitVec.ofInt w (next (low signed w) (high signed w) up (value signed v)) =
      if up then v + 1 else v - 1 := by
    cases up with
    | true =>
      have hstep : BitVec.ofInt w (value signed v + 1) = v + 1 := by
        rw [BitVec.ofInt_add, ofInt_value]
        rfl
      rw [next, if_pos rfl, if_pos rfl]
      split_ifs with hend
      · rw [show low signed w = value signed v + 1 - 2 ^ w by omega, ofInt_sub, ofInt_two_pow,
          hstep]
        exact BitVec.sub_zero _
      · exact hstep
    | false =>
      have hstep : BitVec.ofInt w (value signed v - 1) = v - 1 := by
        rw [ofInt_sub, ofInt_value]
        rfl
      rw [next, if_neg Bool.false_ne_true, if_neg Bool.false_ne_true]
      split_ifs with hend
      · rw [show high signed w = value signed v - 1 + 2 ^ w by omega, BitVec.ofInt_add,
          ofInt_two_pow, hstep]
        exact BitVec.add_zero _
      · exact hstep
  have hmem : low signed w ≤ next (low signed w) (high signed w) up (value signed v) ∧
      next (low signed w) (high signed w) up (value signed v) ≤ high signed w :=
    mem_next (low_le_value v) (value_le_high v)
  obtain ⟨hlo, hhi⟩ := hmem
  rw [← hnext, value_ofInt hw hlo hhi]

namespace Loop

variable (L : Loop)

/-- The relation under which the body runs. -/
def goesOnRel : Rel := if L.exitOnTrue then L.predicate.rel.negate else L.predicate.rel

/-- The induction variable goes up. -/
def up : Bool := (L.instOp == .add) == (L.step == 1)

/-- The least number that is compared. -/
def lo : ℤ := low L.predicate.isSigned L.cmpWidth

/-- The greatest number that is compared. -/
def hi : ℤ := high L.predicate.isSigned L.cmpWidth

/-- The number that the comparison reads of the induction variable. -/
def read (i : BitVec L.inWidth) : ℤ := value L.predicate.isSigned (i.setWidth L.cmpWidth)

def first (inVal : BitVec L.inWidth) : ℤ := L.read (L.start inVal)

/-- The number that bounds the loop. -/
def last (outVal : BitVec L.outWidth) : ℤ := value L.predicate.isSigned (L.bound outVal)

/-- The body runs for no bounds for which the loop ends. -/
def Dead : Prop := ∀ inVal outVal n, n ≠ 0 → ¬ L.Runs inVal outVal n

variable {L}

theorem lo_lt_hi : L.lo < L.hi := low_lt_high _ L.cmpWidth_pos

theorem goesOn_iff (outVal : BitVec L.outWidth) (i : BitVec L.inWidth) :
    L.goesOn outVal i = true ↔ L.goesOnRel.Holds (L.read i) (L.last outVal) := by
  have hcmp := L.predicate.icmp_iff (i.setWidth L.cmpWidth) (L.bound outVal)
  rw [goesOn, goesOnRel, read, last]
  cases L.exitOnTrue with
  | false => simpa using hcmp
  | true =>
    rw [if_pos rfl, Rel.holds_negate, ← hcmp]
    simp

theorem advance_eq (i : BitVec L.inWidth) : L.advance i = if L.up then i + 1 else i - 1 := by
  have hneg : L.step ≠ 1 → L.step = -1 := L.step_eq.resolve_left
  by_cases hone : L.step = 1
  · rw [advance, up, hone, beq_self_eq_true]
    cases L.instOp <;> rfl
  · have hsub : i - L.step = i + 1 := by rw [hneg hone, BitVec.sub_eq_add_neg, BitVec.neg_neg]
    have hadd : i + L.step = i - 1 := by rw [hneg hone, BitVec.sub_eq_add_neg]
    rw [advance, up, beq_false_of_ne hone]
    cases L.instOp with
    | add => exact hadd
    | sub => exact hsub

theorem setWidth_advance {w : ℕ} (hw : w ≤ L.inWidth) (i : BitVec L.inWidth) :
    (L.advance i).setWidth w = if L.up then i.setWidth w + 1 else i.setWidth w - 1 := by
  have hone : (1 : BitVec L.inWidth).setWidth w = 1 := BitVec.setWidth_ofNat_of_le hw 1
  rw [advance_eq]
  split
  · rw [BitVec.setWidth_add _ _ hw, hone]
  · rw [setWidth_sub hw, hone]

theorem read_advance (i : BitVec L.inWidth) :
    L.read (L.advance i) = next L.lo L.hi L.up (L.read i) := by
  rw [lo, hi, read, read, ← value_next L.cmpWidth_pos]
  congr 1
  exact setWidth_advance L.cmpWidth_le_inWidth i

theorem runs_iff {inVal : BitVec L.inWidth} {outVal : BitVec L.outWidth} {n : ℕ} (hn : n ≠ 0) :
    L.Runs inVal outVal n ↔ Ends L.lo L.hi L.goesOnRel L.up (L.first inVal) (L.last outVal) ∧
      (n : ℤ) = runs L.lo L.hi L.goesOnRel L.up (L.first inVal) (L.last outVal) := by
  have hstops : {n | L.goesOn outVal (L.advance^[n] (L.start inVal)) = false} =
      stops L.lo L.hi L.goesOnRel L.up (L.first inVal) (L.last outVal) := by
    ext n
    have hsemi : Function.Semiconj L.read L.advance (next L.lo L.hi L.up) := read_advance
    have hread := hsemi.iterate_right n (L.start inVal)
    show L.goesOn outVal (L.advance^[n] (L.start inVal)) = false ↔
      ¬ L.goesOnRel.Holds ((next L.lo L.hi L.up)^[n] (L.first inVal)) (L.last outVal)
    rw [first, ← hread, ← goesOn_iff, Bool.not_eq_true]
  rw [Runs, hstops]
  exact isLeast_stops_iff lo_lt_hi (low_le_value _) (value_le_high _) (low_le_value _)
    (value_le_high _) hn

theorem dead_iff :
    L.Dead ↔ ∀ inVal outVal,
      ¬ Ends L.lo L.hi L.goesOnRel L.up (L.first inVal) (L.last outVal) := by
  constructor
  · intro hdead inVal outVal hends
    have hpos := runs_pos lo_lt_hi (low_le_value _) (value_le_high _) (low_le_value _)
      (value_le_high _) hends
    have hne : (runs L.lo L.hi L.goesOnRel L.up (L.first inVal) (L.last outVal)).toNat ≠ 0 := by
      rw [first, last, read]
      omega
    exact hdead inVal outVal _ hne ((runs_iff hne).mpr ⟨hends, Int.toNat_of_nonneg hpos.le⟩)
  · exact fun hends inVal outVal n hn hruns ↦ hends inVal outVal ((runs_iff hn).mp hruns).1

end Loop

/-! ## The count that is computed -/

/-- The difference that is computed of the bounds. The other parameters say whether the loop goes
up, whether the final bound is a constant, and whether the initial one is the constant zero. -/
def diff {R : Type*} [Add R] [Sub R] [OfNat R 1] (r : Rel) (up endConst zero : Bool)
    (x y : R) : R :=
  match r with
  | .eq | .gt => x - y
  | .lt => y - x
  | .ne => if endConst then (if up then y - 1 else y + 1) - x else y - x
  | .le =>
    if endConst then (if up then y - 1 else y + 1) - x else if zero then y - x else y + 1 - x
  | .ge => if endConst then x - (if up then y - 1 else y + 1) else x - (y - 1)

section Count

variable {b₁ b₂ w : ℕ} {c : CmpConditions}

theorem setWidth_signExtend (h : 32 ≤ w) (v : BitVec 32) : (v.signExtend w).setWidth 32 = v := by
  rw [BitVec.signExtend, setWidth_ofInt h, BitVec.ofInt_toInt]

theorem setWidth_bound (c : CmpConditions) (h : 32 ≤ w) (v : BitVec w) :
    (c.bound v).setWidth 32 = c.bound (v.setWidth 32) := by
  have hone : (1 : BitVec w).setWidth 32 = 1 := BitVec.setWidth_ofNat_of_le h 1
  rw [CmpConditions.bound, CmpConditions.bound]
  split_ifs
  · rw [BitVec.setWidth_add _ _ h, hone]
  · rw [setWidth_sub h, hone]
  · rfl

theorem addDummyStart_val (h : w = 32 ∨ w = 64) (v : BitVec w) :
    addDummyStart none (some ⟨w, v⟩) = some (v.setWidth 32) := if_pos h

theorem addDummyStart_initial (h : b₂ = 32 ∨ b₂ = 64) (hend : c.endAt = none) (a : BitVec 32)
    (inVal : BitVec b₁) (outVal : BitVec b₂) :
    addDummyStart none (tripCountVal c (some a) inVal outVal) = some (
      if c.biggerEnd then
        if a ≠ 0 then c.bound (outVal.setWidth 32) - a
        else if c.addOne then outVal.setWidth 32 else c.bound (outVal.setWidth 32)
      else a - c.bound (outVal.setWidth 32)) := by
  have hle : 32 ≤ b₂ := by omega
  simp only [tripCountVal, hend]
  rw [← setWidth_bound c hle]
  split_ifs
  · rw [addDummyStart_val h, setWidth_sub hle, setWidth_signExtend hle]
  · rw [addDummyStart_val h]
  · rw [addDummyStart_val h]
  · rw [addDummyStart_val h, setWidth_sub hle, setWidth_signExtend hle]

theorem addDummyStart_final (h : b₁ = 32 ∨ b₁ = 64) {e : BitVec 32} (hend : c.endAt = some e)
    (inVal : BitVec b₁) (outVal : BitVec b₂) :
    addDummyStart none (tripCountVal c none inVal outVal) = some (
      if c.biggerEnd then e - inVal.setWidth 32 else inVal.setWidth 32 - e) := by
  have hle : 32 ≤ b₁ := by omega
  simp only [tripCountVal, hend]
  split_ifs
  · rw [addDummyStart_val h, setWidth_sub hle, setWidth_signExtend hle]
  · rw [addDummyStart_val h, setWidth_sub hle, setWidth_signExtend hle]

theorem addDummyStart_both (h : min b₁ b₂ = 32 ∨ min b₁ b₂ = 64) (hend : c.endAt = none)
    (inVal : BitVec b₁) (outVal : BitVec b₂) :
    addDummyStart none (tripCountVal c none inVal outVal) = some (
      if c.biggerEnd then c.bound (outVal.setWidth 32) - inVal.setWidth 32
      else inVal.setWidth 32 - c.bound (outVal.setWidth 32)) := by
  have hle₁ : 32 ≤ b₁ := by omega
  have hle₂ : 32 ≤ b₂ := by omega
  simp only [tripCountVal, hend]
  rw [← setWidth_bound c hle₂]
  split_ifs
  · rw [addDummyStart_val (by omega), setWidth_sub hle₂, BitVec.setWidth_setWidth_of_le _ hle₂]
  · rw [addDummyStart_val (by omega), setWidth_sub hle₂, BitVec.setWidth_setWidth_of_le _ hle₂]
  · rw [addDummyStart_val (by omega), setWidth_sub hle₁, BitVec.setWidth_setWidth_of_le _ hle₁]
  · rw [addDummyStart_val (by omega), setWidth_sub hle₁, BitVec.setWidth_setWidth_of_le _ hle₁]

theorem readBound_eq {r : Option (BitVec w)} (h : ∀ a ∈ r, a.toNat < 2 ^ 64) :
    readBound r = some (r.map (BitVec.setWidth 32)) := by
  cases r with
  | none => rfl
  | some a => rw [readBound, getZExtValue, if_pos (h a rfl)]; rfl

theorem readFinal_eq {r : Option (BitVec w)} (h : ∀ a ∈ r, a.toNat < 2 ^ 64)
    (hne : ∀ a ∈ r, a.setWidth 32 ≠ INT_MAX) :
    readFinal r = some (r.map (BitVec.setWidth 32)) := by
  rw [readFinal, readBound_eq h]
  cases r with
  | none => rfl
  | some a => exact if_neg (hne a rfl)

theorem lt_of_getZExtValue {a : BitVec w} {v : BitVec 32} (h : getZExtValue a = some v) :
    a.toNat < 2 ^ 64 := by
  rw [getZExtValue] at h
  exact (Option.ite_none_right_eq_some.mp h).1

theorem lt_of_readBound {r : Option (BitVec w)} {r' : Option (BitVec 32)}
    (h : readBound r = some r') : ∀ a ∈ r, a.toNat < 2 ^ 64 := by
  rintro a rfl
  obtain ⟨v, hv, -⟩ := Option.map_eq_some_iff.mp h
  exact lt_of_getZExtValue hv

theorem lt_of_readFinal {r : Option (BitVec w)} {r' : Option (BitVec 32)}
    (h : readFinal r = some r') :
    (∀ a ∈ r, a.toNat < 2 ^ 64) ∧ ∀ a ∈ r, a.setWidth 32 ≠ INT_MAX := by
  have hlt : ∀ a ∈ r, a.toNat < 2 ^ 64 := by
    cases hread : readBound r with
    | none => simp [readFinal, hread] at h
    | some r'' => exact lt_of_readBound hread
  refine ⟨hlt, ?_⟩
  rintro a rfl hmax
  rw [readFinal, readBound_eq hlt] at h
  simp [hmax] at h

theorem eq_of_incBy {o : Opcode} {val v : BitVec 32} (h : incBy o val = some v) :
    val = 1 ∨ val = -1 := by
  by_contra hnot
  rw [not_or] at hnot
  have hneg : ∀ x : BitVec 32, -1 * x = 1 ∨ -1 * x = -1 → x = 1 ∨ x = -1 := by
    intro x hx
    have hback : x = -1 * (-1 * x) := by grind
    rcases hx with hx | hx <;> rw [hx] at hback
    · exact .inr hback
    · exact .inl hback
  cases o with
  | add =>
    simp only [incBy, if_neg hnot.1, if_neg hnot.2] at h
    obtain ⟨hv, -⟩ := Option.ite_none_right_eq_some.mp h
    split_ifs at hv
    · exact not_or.mpr hnot (hneg val hv)
    · exact not_or.mpr hnot hv
    · exact absurd hv (by decide)
  | sub =>
    simp only [incBy, if_neg hnot.1, if_neg hnot.2] at h
    obtain ⟨hv, -⟩ := Option.ite_none_right_eq_some.mp h
    split_ifs at hv
    · exact not_or.mpr hnot hv
    · exact not_or.mpr hnot (hneg val hv)
    · exact absurd hv (by decide)

theorem endAt_none (p : Predicate) (v : BitVec 32) : (cmpConditions p v none).endAt = none := by
  cases p <;> rfl

theorem endAt_some (p : Predicate) (v b : BitVec 32) :
    ∃ e, (cmpConditions p v (some b)).endAt = some e := by
  cases p <;> exact ⟨_, rfl⟩

theorem diff_of_initial (p : Predicate) (up : Bool) (a y : BitVec 32) :
    (if (cmpConditions p (if up then -1 else 1) none).biggerEnd then
        if a ≠ 0 then (cmpConditions p (if up then -1 else 1) none).bound y - a
        else if (cmpConditions p (if up then -1 else 1) none).addOne then y
          else (cmpConditions p (if up then -1 else 1) none).bound y
      else a - (cmpConditions p (if up then -1 else 1) none).bound y) =
      diff p.rel up false (some a == some 0) a y := by
  by_cases ha : a = 0
  · subst ha
    cases p <;> simp [cmpConditions, CmpConditions.bound, diff, Predicate.rel]
  · have hne : (some a == some 0) = false := beq_false_of_ne (by simpa using ha)
    rw [hne, if_pos ha]
    cases p <;> simp [cmpConditions, CmpConditions.bound, diff, Predicate.rel]

theorem diff_of_final (p : Predicate) (up zero : Bool) (x b : BitVec 32) :
    ∃ e, (cmpConditions p (if up then -1 else 1) (some b)).endAt = some e ∧
      (if (cmpConditions p (if up then -1 else 1) (some b)).biggerEnd then e - x else x - e) =
        diff p.rel up true zero x b := by
  cases up <;> cases p <;>
    simp [cmpConditions, diff, Predicate.rel, BitVec.sub_eq_add_neg]

theorem diff_of_both (p : Predicate) (up : Bool) (x y : BitVec 32) :
    (if (cmpConditions p (if up then -1 else 1) none).biggerEnd then
        (cmpConditions p (if up then -1 else 1) none).bound y - x
      else x - (cmpConditions p (if up then -1 else 1) none).bound y) =
      diff p.rel up false false x y := by
  cases p <;> simp [cmpConditions, CmpConditions.bound, diff, Predicate.rel]

end Count

namespace Loop

variable (L : Loop)

/-- The type of the count, if it is computed at all. -/
def countWidth : Option ℕ :=
  match L.initial, L.final with
  | some _, none => some L.outWidth
  | none, some _ => some L.inWidth
  | none, none => some (min L.inWidth L.outWidth)
  | some _, some _ => none

/-- The pass gets to a marker for the loop: it can read the constants, it takes the step for one,
the final bound is not taken for none, and the marker has a version for the type of the count. -/
structure Emits : Prop where
  step_lt : L.step.toNat < 2 ^ 64
  step_eq : L.step.setWidth 32 = 1 ∨ L.step.setWidth 32 = -1
  initial_lt : ∀ a ∈ L.initial, a.toNat < 2 ^ 64
  final_lt : ∀ b ∈ L.final, b.toNat < 2 ^ 64
  final_ne : ∀ b ∈ L.final, b.setWidth 32 ≠ INT_MAX
  countWidth_eq : L.countWidth = some 32 ∨ L.countWidth = some 64

/-- The initial bound is a constant that is taken for zero. -/
def startsAtZero : Bool := L.initial.map (fun a ↦ a.setWidth 32) == some 0

/-- The lowest bits of the final bound. -/
def endWord (outVal : BitVec L.outWidth) : BitVec 32 :=
  match L.final with
  | some b => b.setWidth 32
  | none => outVal.setWidth 32

variable {L}

/-- The step is taken for what it is, if it is taken for one. -/
theorem incBy_eq (h : L.step.setWidth 32 = 1 ∨ L.step.setWidth 32 = -1) :
    incBy L.instOp (L.step.setWidth 32) = some (if L.up then -1 else 1) := by
  have hpos : 0 < L.inWidth := L.cmpWidth_pos.trans_le L.cmpWidth_le_inWidth
  by_cases hone : L.step = 1
  · have hword : L.step.setWidth 32 = 1 := by
      rw [hone]
      exact BitVec.setWidth_ofNat_one_eq_ofNat_one_of_lt hpos
    rw [hword, up, hone, beq_self_eq_true]
    cases L.instOp <;> rfl
  · have hword : L.step.setWidth 32 = -1 := by
      refine h.resolve_left fun hword ↦ ?_
      by_cases hwide : 32 ≤ L.inWidth
      · rw [L.step_eq.resolve_left hone, BitVec.setWidth_neg_of_le hwide,
          show (1 : BitVec L.inWidth).setWidth 32 = 1 from
            BitVec.setWidth_ofNat_of_le hwide 1] at hword
        exact absurd hword (by decide)
      · have hnat := congrArg BitVec.toNat hword
        rw [BitVec.toNat_setWidth_of_le (by omega)] at hnat
        exact hone (BitVec.eq_of_toNat_eq (hnat.trans (BitVec.toNat_one hpos).symm))
    rw [hword, up, beq_false_of_ne hone]
    cases L.instOp <;> rfl

/-- **What the marker is told**, if the pass gets so far. -/
theorem addDummyStart_eq (h : L.Emits) (inVal : BitVec L.inWidth) (outVal : BitVec L.outWidth) :
    addDummyStart none (getIncAndCmpConditions L inVal outVal) =
      some (diff L.predicate.rel L.up L.final.isSome L.startsAtZero
        ((L.start inVal).setWidth 32) (L.endWord outVal)) := by
  have hget : getIncAndCmpConditions L inVal outVal =
      tripCountVal (cmpConditions L.predicate.getUnsignedPredicate (if L.up then -1 else 1)
        (L.final.map (BitVec.setWidth 32))) (L.initial.map (BitVec.setWidth 32)) inVal outVal := by
    have hstep : getZExtValue L.step = some (L.step.setWidth 32) := if_pos h.step_lt
    simp [getIncAndCmpConditions, hstep, incBy_eq h.step_eq, readBound_eq h.initial_lt,
      readFinal_eq h.final_lt h.final_ne]
  have hwidth := h.countWidth_eq
  rw [countWidth] at hwidth
  rw [hget, start, startsAtZero, endWord, ← Predicate.rel_getUnsignedPredicate]
  generalize L.predicate.getUnsignedPredicate = p
  cases hinit : L.initial with
  | some a =>
    cases hfinal : L.final with
    | some b => simp [hinit, hfinal] at hwidth
    | none =>
      simp only [hinit, hfinal, Option.some.injEq] at hwidth
      simp only [Option.map_some, Option.map_none, Option.getD_some]
      rw [addDummyStart_initial hwidth (endAt_none _ _)]
      exact congrArg some (diff_of_initial ..)
  | none =>
    cases hfinal : L.final with
    | some b =>
      simp only [hinit, hfinal, Option.some.injEq] at hwidth
      simp only [Option.map_some, Option.map_none, Option.getD_none]
      obtain ⟨e, hend, hdiff⟩ := diff_of_final p L.up false (inVal.setWidth 32) (b.setWidth 32)
      rw [addDummyStart_final hwidth hend]
      exact congrArg some hdiff
    | none =>
      simp only [hinit, hfinal, Option.some.injEq] at hwidth
      simp only [Option.map_none, Option.getD_none]
      rw [addDummyStart_both hwidth (endAt_none _ _)]
      exact congrArg some (diff_of_both ..)

theorem countWidth_of_tripCountVal {v : BitVec 32} {inVal : BitVec L.inWidth}
    {outVal : BitVec L.outWidth} {p : Predicate} {r : (w : ℕ) × BitVec w}
    (h : tripCountVal (cmpConditions p v (L.final.map (BitVec.setWidth 32)))
      (L.initial.map (BitVec.setWidth 32)) inVal outVal = some r) :
    L.countWidth = some r.1 := by
  rw [countWidth]
  cases hinit : L.initial with
  | some a =>
    cases hfinal : L.final with
    | some b =>
      obtain ⟨e, hend⟩ := endAt_some p v (b.setWidth 32)
      simp only [hinit, hfinal, Option.map_some, tripCountVal, hend] at h
      cases h
    | none =>
      simp only [hinit, hfinal, Option.map_some, Option.map_none, tripCountVal, endAt_none] at h
      split_ifs at h <;> cases h <;> rfl
  | none =>
    cases hfinal : L.final with
    | some b =>
      obtain ⟨e, hend⟩ := endAt_some p v (b.setWidth 32)
      simp only [hinit, hfinal, Option.map_some, Option.map_none, tripCountVal, hend] at h
      split_ifs at h <;> cases h <;> rfl
    | none =>
      simp only [hinit, hfinal, Option.map_none, tripCountVal, endAt_none] at h
      show some (min L.inWidth L.outWidth) = _
      split_ifs at h with hlt <;> cases h
      · exact congrArg some (min_eq_right hlt.le)
      · exact congrArg some (min_eq_right hlt.le)
      · exact congrArg some (min_eq_left (not_lt.mp hlt))
      · exact congrArg some (min_eq_left (not_lt.mp hlt))

theorem emits_of_addDummyStart {inVal : BitVec L.inWidth} {outVal : BitVec L.outWidth}
    {m : BitVec 32} (h : addDummyStart none (getIncAndCmpConditions L inVal outVal) = some m) :
    L.Emits := by
  obtain ⟨r, hr, hwidth⟩ : ∃ r, getIncAndCmpConditions L inVal outVal = some r ∧
      (r.1 = 32 ∨ r.1 = 64) := by
    cases hget : getIncAndCmpConditions L inVal outVal with
    | none => simp [addDummyStart, hget] at h
    | some r =>
      rw [hget] at h
      by_contra hnot
      have hno : ¬ (r.1 = 32 ∨ r.1 = 64) := fun hw ↦ hnot ⟨r, rfl, hw⟩
      simp [addDummyStart, hno] at h
  rw [getIncAndCmpConditions] at hr
  simp only [Option.bind_eq_bind, Option.bind_eq_some_iff] at hr
  obtain ⟨initAt, hinit, val, hval, inc, hinc, endVal, hend, hcount⟩ := hr
  have hlt : L.step.toNat < 2 ^ 64 := lt_of_getZExtValue hval
  have hilt := lt_of_readBound hinit
  obtain ⟨hflt, hfne⟩ := lt_of_readFinal hend
  obtain rfl : L.step.setWidth 32 = val := Option.some.inj ((if_pos hlt).symm.trans hval)
  obtain rfl := Option.some.inj ((readBound_eq hilt).symm.trans hinit)
  obtain rfl := Option.some.inj ((readFinal_eq hflt hfne).symm.trans hend)
  have hcw := countWidth_of_tripCountVal hcount
  exact ⟨hlt, eq_of_incBy hinc, hilt, hflt, hfne, by rw [hcw]; simpa using hwidth⟩

end Loop

end ScaffCC.DynRollup
