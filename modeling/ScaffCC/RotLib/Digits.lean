import Mathlib.Algebra.BigOperators.Group.List.Basic
import Mathlib.Algebra.Order.Floor.Ring
import Mathlib.Algebra.Order.Floor.Semiring
import Mathlib.Data.Rat.Floor
import Mathlib.Tactic.FieldSimp
import Mathlib.Tactic.Linarith
import Mathlib.Tactic.Positivity
import Mathlib.Tactic.Ring
import ScaffCC.RotLib.File

/-!
# Angles from a library

`RotLib::generate` makes a library of the angles `c * pi / basis ^ k`, a row for each place, and
takes as many places as the precision asks for. `RotLib::concatenate` writes an angle in the basis
and takes a sequence of the library for each digit that is not zero. It does not know how many
places there are: it divides the size of the library by the size of a row, and for basis two it gets
one place too many. The digits end before that place, since what is left is then smaller than the
precision.

Angles are given as factors of pi. The arithmetic is exact here, and all the loops end.
-/

namespace ScaffCC.RotLib.Exact

/-! ## Libraries -/

/-- The parameters that a library is made with. The constructor refuses other precisions. -/
structure Params where
  base : ℕ
  digits : ℕ
  basis : ℕ
  base_eq : base = 2 ∨ base = 10
  digits_pos : 1 ≤ digits
  two_le_basis : 2 ≤ basis

/-- A sequence of gates for the angle `c * pi / basis ^ k`. -/
structure Entry (W : Type*) where
  c : ℕ
  k : ℕ
  word : W

namespace Params

variable (P : Params)

/-- The precision, `pow(N, -K)`. -/
def thres : ℚ := (P.base : ℚ) ^ (-P.digits : ℤ)

theorem base_pos : 0 < P.base := by
  have := P.base_eq
  omega

theorem basis_pos : (0 : ℚ) < P.basis := by
  have := P.two_le_basis
  exact_mod_cast (by omega : 0 < P.basis)

/-- The precision is no coarser than a place if the place has the greater denominator. -/
theorem thres_lt_iff (J : ℕ) :
    P.thres < (P.basis : ℚ) ^ (-J : ℤ) ↔ P.basis ^ J < P.base ^ P.digits := by
  have hbasis := P.basis_pos
  have hbase : (0 : ℚ) < P.base := by exact_mod_cast P.base_pos
  rw [thres, zpow_neg, zpow_neg, zpow_natCast, zpow_natCast,
    inv_lt_inv₀ (pow_pos hbase _) (pow_pos hbasis _)]
  exact_mod_cast Iff.rfl

/-- `while (thres < pow(B, -J)) J++`. -/
def addDigits (J : ℕ) : ℕ :=
  if P.thres < (P.basis : ℚ) ^ (-J : ℤ) then addDigits (J + 1) else J
termination_by P.base ^ P.digits - J
decreasing_by
  have hlt := (P.thres_lt_iff J).mp ‹_›
  have hpow : J < P.basis ^ J := Nat.lt_pow_self P.two_le_basis
  omega

/-- `while (J > 0 && thres > pow(B, -J+1)) J--`. -/
def dropDigits : ℕ → ℕ
  | 0 => 0
  | J + 1 => if (P.basis : ℚ) ^ (-(J + 1 : ℕ) + 1 : ℤ) < P.thres then dropDigits J else J + 1

/-- The places that `generate` makes. -/
def places : ℕ :=
  if P.basis < P.base then P.addDigits P.digits
  else if P.base < P.basis then P.dropDigits P.digits
  else P.digits

end Params

variable {W : Type*} (P : Params) (load : ℕ → ℕ → W)

/-- The rows of a library from place `k` on. `load` is what is loaded for an angle. -/
def rows : ℕ → ℕ → List (Entry W)
  | _, 0 => []
  | k, J + 1 =>
    (List.range (P.basis - 1)).map (fun c ↦ ⟨c + 1, k, load (c + 1) k⟩) ++ rows (k + 1) J

/-- The sequences of the library that `generate` makes. -/
def generate : List (Entry W) := ⟨1, 0, load 1 0⟩ :: rows P load 1 P.places

def Entry.angle (e : Entry W) : ℚ := e.c / (P.basis : ℚ) ^ e.k

/-! ## Digits -/

abbrev Step := {b : ℚ // 0 < b}

/-- The loop of `range_zero_two` for negative angles. -/
def addTwos (radian : ℚ) : ℚ := if radian < 0 then addTwos (radian + 2) else radian
termination_by ⌈-radian⌉.toNat
decreasing_by
  have hpos : 0 < ⌈-radian⌉ := Int.ceil_pos.mpr (by linarith)
  have hstep : ⌈-(radian + 2)⌉ = ⌈-radian⌉ - 2 := by
    rw [neg_add, ← sub_eq_add_neg]
    exact Int.ceil_sub_ofNat _ 2
  omega

/-- The loop of `range_zero_two` for large angles. -/
def subTwos (radian : ℚ) : ℚ := if 2 ≤ radian then subTwos (radian - 2) else radian
termination_by ⌊radian⌋.toNat
decreasing_by
  have hle : 2 ≤ ⌊radian⌋ := Int.le_floor.mpr (by exact_mod_cast ‹2 ≤ radian›)
  have hstep : ⌊radian - 2⌋ = ⌊radian⌋ - 2 := Int.floor_sub_ofNat _ 2
  omega

def rangeZeroTwo (radian : ℚ) : ℚ := subTwos (addTwos radian)

def epsilonClose (a b epsilon : ℚ) : Bool :=
  let big := if b < a then a else b
  let small := if a ≤ b then a else b
  big - small < epsilon

/-- How often `bj` fits into an angle, and what is left of it. -/
def takeDigit (bj : Step) (radian : ℚ) (c : ℕ) : ℕ × ℚ :=
  if 0 ≤ radian - bj then takeDigit bj (radian - bj) (c + 1) else (c, radian)
termination_by ⌊radian / bj⌋.toNat
decreasing_by
  have hone : 1 ≤ radian / bj := (one_le_div bj.2).mpr (by linarith)
  have hle : 1 ≤ ⌊radian / bj⌋ := Int.le_floor.mpr (by exact_mod_cast hone)
  have hstep : ⌊(radian - bj) / bj⌋ = ⌊radian / bj⌋ - 1 := by
    rw [sub_div, div_self bj.2.ne']
    exact Int.floor_sub_one _
  omega

def Step.next (bj : Step) : Step := ⟨bj / P.basis, div_pos bj.2 P.basis_pos⟩

/-- The digits of an angle, zeros from the place on where it is close to zero. -/
def takeDigits (epsilon : ℚ) : ℕ → ℚ → Step → List ℕ
  | 0, _, _ => []
  | J + 1, radian, bj =>
    if epsilonClose radian 0 epsilon then List.replicate (J + 1) 0
    else
      let (c, rest) := takeDigit bj radian 0
      c :: takeDigits epsilon J rest (bj.next P)

/-- The indices that `concatenate` combines for the angle `radian * pi`. There are none if one of
them is out of bound. -/
def concatenate (seqs : List (Entry W)) (radian : ℚ) : Option (List ℕ) := do
  let angle := rangeZeroTwo radian
  let J := seqs.length / (P.basis - 1)
  let whole := if 1 ≤ angle then [0] else []
  let fraction := if 1 ≤ angle then angle - 1 else angle
  let cs := takeDigits P P.thres J fraction ⟨1 / P.basis, one_div_pos.mpr P.basis_pos⟩
  let ids ← indicesFrom P.basis seqs.length 1 cs
  return whole ++ ids

/-! ## Places -/

namespace Params

theorem addDigits_spec (J : ℕ) : P.base ^ P.digits ≤ P.basis ^ P.addDigits J := by
  fun_induction addDigits P J with
  | case1 J h ih => exact ih
  | case2 J h => exact not_lt.mp fun hlt ↦ h ((P.thres_lt_iff J).mpr hlt)

theorem dropDigits_spec {J : ℕ} (h : P.base ^ P.digits ≤ P.basis ^ J) :
    P.base ^ P.digits ≤ P.basis ^ P.dropDigits J := by
  induction J with
  | zero => exact h
  | succ J ih =>
    rw [dropDigits]
    split_ifs with hlt
    · have hexp : (-(J + 1 : ℕ) + 1 : ℤ) = -J := by push_cast; ring
      rw [hexp] at hlt
      exact ih (not_lt.mp fun hnot ↦ hlt.not_gt ((P.thres_lt_iff J).mpr hnot))
    · exact h

theorem places_spec : P.base ^ P.digits ≤ P.basis ^ P.places := by
  rw [places]
  split_ifs with hmore hless
  · exact P.addDigits_spec P.digits
  · exact P.dropDigits_spec (Nat.pow_le_pow_left hless.le _)
  · rw [show P.base = P.basis by omega]

theorem one_div_pow_places_le : 1 / (P.basis : ℚ) ^ P.places ≤ P.thres := by
  have hle : (P.basis : ℚ) ^ (-P.places : ℤ) ≤ P.thres :=
    not_lt.mp fun hlt ↦ P.places_spec.not_gt ((P.thres_lt_iff _).mp hlt)
  rwa [zpow_neg, zpow_natCast, ← one_div] at hle

end Params

/-! ## Angles between zero and two -/

theorem addTwos_spec (radian : ℚ) :
    0 ≤ addTwos radian ∧ (0 ≤ radian → addTwos radian = radian) ∧
      ∃ m : ℤ, addTwos radian = radian + 2 * m := by
  fun_induction addTwos radian with
  | case1 radian h ih =>
    obtain ⟨hpos, -, m, hm⟩ := ih
    exact ⟨hpos, fun hle ↦ absurd h (not_lt.mpr hle), m + 1, by rw [hm]; push_cast; ring⟩
  | case2 radian h => exact ⟨not_lt.mp h, fun _ ↦ rfl, 0, by simp⟩

theorem subTwos_spec {radian : ℚ} (h : 0 ≤ radian) :
    0 ≤ subTwos radian ∧ subTwos radian < 2 ∧ ∃ m : ℤ, subTwos radian = radian + 2 * m := by
  fun_induction subTwos radian with
  | case1 radian hle ih =>
    obtain ⟨hpos, hlt, m, hm⟩ := ih (by linarith)
    exact ⟨hpos, hlt, m - 1, by rw [hm]; push_cast; ring⟩
  | case2 radian hle => exact ⟨h, not_le.mp hle, 0, by simp⟩

theorem rangeZeroTwo_spec (radian : ℚ) :
    0 ≤ rangeZeroTwo radian ∧ rangeZeroTwo radian < 2 ∧
      ∃ m : ℤ, rangeZeroTwo radian = radian + 2 * m := by
  obtain ⟨hpos, -, m, hm⟩ := addTwos_spec radian
  obtain ⟨hpos', hlt, m', hm'⟩ := subTwos_spec hpos
  exact ⟨hpos', hlt, m + m', by rw [rangeZeroTwo, hm', hm]; push_cast; ring⟩

/-! ## Digits and what is left -/

theorem epsilonClose_iff {radian epsilon : ℚ} (h : 0 ≤ radian) :
    epsilonClose radian 0 epsilon = true ↔ radian < epsilon := by
  have hbig : (if 0 < radian then radian else 0) = radian := by
    split_ifs with hpos
    · rfl
    · exact le_antisymm h (not_lt.mp hpos)
  have hsmall : (if radian ≤ 0 then radian else 0) = 0 := by
    split_ifs with hle
    · exact le_antisymm hle h
    · rfl
  rw [epsilonClose, decide_eq_true_iff, hbig, hsmall, sub_zero]

theorem takeDigit_spec (bj : Step) (radian : ℚ) (c : ℕ) :
    (takeDigit bj radian c).2 < bj ∧ (0 ≤ radian → 0 ≤ (takeDigit bj radian c).2) ∧
      radian + c * bj = (takeDigit bj radian c).1 * bj + (takeDigit bj radian c).2 := by
  fun_induction takeDigit bj radian c with
  | case1 radian c h ih =>
    obtain ⟨hlt, hpos, heq⟩ := ih
    refine ⟨hlt, fun _ ↦ hpos h, ?_⟩
    rw [← heq]
    push_cast
    ring
  | case2 radian c h =>
    exact ⟨by linarith [not_le.mp h], id, by ring⟩

/-- The angle of digits whose first place is worth `bj`. -/
def digitSum : List ℕ → ℚ → ℚ
  | [], _ => 0
  | c :: cs, bj => c * bj + digitSum cs (bj / P.basis)

theorem digitSum_replicate_zero (n : ℕ) (bj : ℚ) : digitSum P (List.replicate n 0) bj = 0 := by
  induction n generalizing bj with
  | zero => rfl
  | succ n ih => rw [List.replicate_succ, digitSum, ih]; simp

/-- What the digits of an angle are like: each fits into a row, and they leave less than
`epsilon`. -/
structure Digits (epsilon radian bj : ℚ) (cs : List ℕ) : Prop where
  lt_basis : ∀ c ∈ cs, c < P.basis
  sum_le : digitSum P cs bj ≤ radian
  lt_add : radian < digitSum P cs bj + epsilon

/-- What is known when a place is reached that `J` places are left from: the angle is less than the
place before, and the last place is no coarser than `epsilon`. -/
structure Reached (epsilon radian : ℚ) (bj : Step) (J : ℕ) : Prop where
  nonneg : 0 ≤ radian
  lt : radian < (bj : ℚ) * P.basis
  le : (bj : ℚ) * P.basis / P.basis ^ J ≤ epsilon

variable {P} {epsilon radian : ℚ} {bj : Step} {J : ℕ}

theorem Reached.next (h : Reached P epsilon radian bj (J + 1)) :
    Reached P epsilon (takeDigit bj radian 0).2 (bj.next P) J := by
  obtain ⟨hrest, hnonneg, -⟩ := takeDigit_spec bj radian 0
  have hbasis := P.basis_pos
  have hback : (bj.next P : ℚ) * P.basis = bj := div_mul_cancel₀ _ hbasis.ne'
  refine ⟨hnonneg h.nonneg, by rw [hback]; exact hrest, ?_⟩
  have hle := h.le
  rw [hback]
  rwa [pow_succ, mul_div_mul_right _ _ hbasis.ne'] at hle

theorem Reached.lt_epsilon (h : Reached P epsilon radian bj 0) : radian < epsilon := by
  have hle := h.le
  rw [pow_zero, div_one] at hle
  exact h.lt.trans_le hle

/-- **The digits of an angle** are those of a number that it exceeds by less than `epsilon`. -/
theorem Reached.digits (h : Reached P epsilon radian bj J) :
    Digits P epsilon radian bj (takeDigits P epsilon J radian bj) := by
  induction J generalizing radian bj with
  | zero => exact ⟨nofun, h.nonneg, h.lt_epsilon.trans_eq (zero_add _).symm⟩
  | succ J ih =>
    rw [takeDigits]
    split_ifs with hclose
    · rw [epsilonClose_iff h.nonneg] at hclose
      have hzero := digitSum_replicate_zero P (J + 1) bj
      refine ⟨fun c hc ↦ ?_, hzero.trans_le h.nonneg, by rw [hzero, zero_add]; exact hclose⟩
      rw [List.eq_of_mem_replicate hc]
      exact zero_lt_two.trans_le P.two_le_basis
    · obtain ⟨-, hnonneg, heq⟩ := takeDigit_spec bj radian 0
      rw [Nat.cast_zero, zero_mul, add_zero] at heq
      have hdigit : (takeDigit bj radian 0).1 < P.basis := by
        have hmul : ((takeDigit bj radian 0).1 : ℚ) * bj < P.basis * bj := by
          linarith [hnonneg h.nonneg, h.lt, mul_comm (bj : ℚ) P.basis]
        exact_mod_cast lt_of_mul_lt_mul_right hmul bj.2.le
      obtain ⟨hdigits, hle, hlt⟩ := ih h.next
      have hnext : (bj.next P : ℚ) = bj / P.basis := rfl
      refine ⟨List.forall_mem_cons.mpr ⟨hdigit, hdigits⟩, ?_, ?_⟩
      · rw [digitSum, ← hnext]
        linarith
      · rw [digitSum, ← hnext]
        linarith

theorem length_takeDigits (epsilon : ℚ) (J : ℕ) (radian : ℚ) (bj : Step) :
    (takeDigits P epsilon J radian bj).length = J := by
  induction J generalizing radian bj with
  | zero => rfl
  | succ J ih =>
    rw [takeDigits]
    split_ifs
    · exact List.length_replicate
    · exact congrArg Nat.succ (ih _ _)

/-- Places after those that the precision asks for are left at zero. -/
theorem Reached.takeDigits_add (h : Reached P epsilon radian bj J) (n : ℕ) :
    takeDigits P epsilon (J + n) radian bj =
      takeDigits P epsilon J radian bj ++ List.replicate n 0 := by
  induction J generalizing radian bj with
  | zero =>
    have hclose := (epsilonClose_iff h.nonneg).mpr h.lt_epsilon
    rw [Nat.zero_add]
    cases n with
    | zero => rfl
    | succ n =>
      rw [takeDigits.eq_def _ _ (n + 1)]
      exact if_pos hclose
  | succ J ih =>
    rw [Nat.add_right_comm, takeDigits, takeDigits]
    split_ifs with hclose
    · rw [Nat.add_right_comm, List.replicate_add]
    · exact congrArg _ (ih h.next)

/-! ## Indices -/

theorem getElem?_rows {k j c : ℕ} {J : ℕ} (hj : j < J) (hc : c < P.basis - 1) :
    (rows P load k J)[(P.basis - 1) * j + c]? = some ⟨c + 1, k + j, load (c + 1) (k + j)⟩ := by
  induction J generalizing k j with
  | zero => exact absurd hj (Nat.not_lt_zero j)
  | succ J ih =>
    rw [rows]
    cases j with
    | zero =>
      rw [Nat.mul_zero, Nat.zero_add, List.getElem?_append_left (by simpa using hc)]
      simp [hc]
    | succ j =>
      have hrow := ih (k := k + 1) (Nat.lt_of_succ_lt_succ hj)
      have hindex : (P.basis - 1) * (j + 1) + c = (P.basis - 1) + ((P.basis - 1) * j + c) := by
        rw [Nat.mul_succ]
        omega
      have hplace : k + 1 + j = k + (j + 1) := by omega
      rw [hindex, List.getElem?_append_right (by simp), List.length_map, List.length_range,
        Nat.add_sub_cancel_left, hrow, hplace]

variable (P)

theorem length_rows (k J : ℕ) : (rows P load k J).length = (P.basis - 1) * J := by
  induction J generalizing k with
  | zero => rfl
  | succ J ih =>
    rw [rows, List.length_append, ih, List.length_map, List.length_range, Nat.mul_succ,
      Nat.add_comm]

theorem length_generate : (generate P load).length = (P.basis - 1) * P.places + 1 := by
  rw [generate, List.length_cons, length_rows]

/-- The angle of the sequences at some indices. -/
def angleSum (seqs : List (Entry W)) (indices : List ℕ) : ℚ :=
  ((indices.filterMap fun i ↦ seqs[i]?).map (Entry.angle P)).sum

theorem angleSum_cons {seqs : List (Entry W)} {i : ℕ} {e : Entry W} (h : seqs[i]? = some e)
    (indices : List ℕ) :
    angleSum P seqs (i :: indices) = e.angle P + angleSum P seqs indices := by
  rw [angleSum, List.filterMap_cons_some h, List.map_cons, List.sum_cons, angleSum]

theorem indicesFrom_append_zeros (basis size k : ℤ) (cs : List ℕ) (n : ℕ) :
    indicesFrom basis size k (cs ++ List.replicate n 0) = indicesFrom basis size k cs := by
  induction cs generalizing k with
  | nil =>
    induction n generalizing k with
    | zero => rfl
    | succ n ih =>
      have hrest : indicesFrom basis size (k + 1) (List.replicate n 0) = some [] := ih (k + 1)
      show indicesFrom basis size k (0 :: List.replicate n 0) = some []
      rw [indicesFrom, hrest]
      rfl
  | cons c cs ih => rw [List.cons_append, indicesFrom, indicesFrom, ih]

/-- **The indices of some digits**: they go up, they are in the rows of their places, and the
sequences there have the angle of the digits. -/
theorem indicesFrom_spec {cs : List ℕ} {k : ℕ} (hcs : ∀ c ∈ cs, c < P.basis)
    (hlen : k + cs.length ≤ P.places) :
    ∃ ids, indicesFrom P.basis (generate P load).length (k + 1) cs = some ids ∧
      ids.Pairwise (· < ·) ∧
      (∀ i ∈ ids, (P.basis - 1) * k < i ∧ i < (generate P load).length) ∧
      angleSum P (generate P load) ids = digitSum P cs (1 / (P.basis : ℚ) ^ (k + 1)) := by
  induction cs generalizing k with
  | nil => exact ⟨[], rfl, .nil, nofun, rfl⟩
  | cons c cs ih =>
    rw [List.length_cons] at hlen
    obtain ⟨hc, hcs⟩ := List.forall_mem_cons.mp hcs
    obtain ⟨ids, hids, hsorted, hrange, hsum⟩ := ih (k := k + 1) hcs (by omega)
    have hbasis := P.two_le_basis
    have hrow : (P.basis - 1) * (k + 1) = (P.basis - 1) * k + (P.basis - 1) := Nat.mul_succ _ _
    have hplace : 1 / (P.basis : ℚ) ^ (k + 1) / P.basis = 1 / (P.basis : ℚ) ^ (k + 1 + 1) := by
      rw [div_div, ← pow_succ]
    rw [digitSum, hplace, ← hsum]
    rw [Nat.cast_succ] at hids
    -- a digit zero takes no entry of the library
    by_cases hzero : c = 0
    · subst hzero
      refine ⟨ids, ?_, hsorted, fun i hi ↦ ⟨by have := (hrange i hi).1; omega, (hrange i hi).2⟩, ?_⟩
      · rw [indicesFrom, hids]
        rfl
      · simp
    · have hlast : (P.basis - 1) * (k + 1) ≤ (P.basis - 1) * P.places :=
        Nat.mul_le_mul_left _ (by omega)
      have hid : ((P.basis : ℤ) - 1) * ((k : ℤ) + 1 - 1) + c =
          ((P.basis - 1) * k + c : ℕ) := by
        push_cast [Nat.cast_sub (show 1 ≤ P.basis by omega)]
        ring
      have hin : (P.basis - 1) * k + c < (generate P load).length := by
        rw [length_generate]
        omega
      have hget : (generate P load)[(P.basis - 1) * k + c]? = some ⟨c, k + 1, load c (k + 1)⟩ := by
        obtain ⟨c, rfl⟩ := Nat.exists_eq_succ_of_ne_zero hzero
        have hentry := getElem?_rows load (P := P) (k := 1) (show k < P.places by omega)
          (show c < P.basis - 1 by omega)
        rw [Nat.add_comm 1 k] at hentry
        exact hentry
      refine ⟨((P.basis - 1) * k + c) :: ids, ?_, List.pairwise_cons.mpr ⟨fun i hi ↦ ?_, hsorted⟩,
        List.forall_mem_cons.mpr ⟨⟨by omega, hin⟩, fun i hi ↦ ?_⟩, ?_⟩
      · rw [indicesFrom, hids]
        have hbound : (0 : ℤ) ≤ ((P.basis - 1) * k + c : ℕ) ∧
            (((P.basis - 1) * k + c : ℕ) : ℤ) < (generate P load).length :=
          ⟨Int.natCast_nonneg _, by exact_mod_cast hin⟩
        simp only [hid, Option.bind_eq_bind, Option.bind_some, if_neg hzero, if_pos hbound]
        rfl
      · have := (hrange i hi).1
        omega
      · exact ⟨by have := (hrange i hi).1; omega, (hrange i hi).2⟩
      · rw [angleSum_cons P hget, Entry.angle]
        ring

/-- **Angles from a library.** `concatenate` ends with distinct indices of the library that is made
with the same parameters, and the angles there are together less than the precision away from the
angle, modulo two. -/
theorem concatenate_right (radian : ℚ) :
    ∃ indices, concatenate P (generate P load) radian = some indices ∧ indices.Nodup ∧
      (∀ i ∈ indices, i < (generate P load).length) ∧
      ∃ m : ℤ, |angleSum P (generate P load) indices - (radian + 2 * m)| < P.thres := by
  obtain ⟨hpos, hlt, m, hm⟩ := rangeZeroTwo_spec radian
  have hbasis := P.two_le_basis
  let angle := rangeZeroTwo radian
  let fraction := if 1 ≤ angle then angle - 1 else angle
  let bj : Step := ⟨1 / P.basis, one_div_pos.mpr P.basis_pos⟩
  have hfraction : 0 ≤ fraction ∧ fraction < 1 := by
    show 0 ≤ (if 1 ≤ angle then angle - 1 else angle) ∧ (if 1 ≤ angle then angle - 1 else angle) < 1
    have hlt : angle < 2 := hlt
    have hpos : 0 ≤ angle := hpos
    split_ifs <;> constructor <;> linarith
  -- the search starts at the first place after the point
  have hreached : Reached P P.thres fraction bj P.places := by
    have hback : (bj : ℚ) * P.basis = 1 := div_mul_cancel₀ _ P.basis_pos.ne'
    exact ⟨hfraction.1, by rw [hback]; exact hfraction.2,
      by rw [hback]; exact P.one_div_pow_places_le⟩
  obtain ⟨hdigits, hle, hlt⟩ := hreached.digits
  obtain ⟨ids, hids, hsorted, hrange, hsum⟩ := indicesFrom_spec P load (k := 0) hdigits
    (by rw [length_takeDigits]; omega)
  -- The number of places is found again, with one more for basis two.
  obtain ⟨n, hn⟩ : ∃ n, (generate P load).length / (P.basis - 1) = P.places + n := by
    have hplaces : P.places ≤ (generate P load).length / (P.basis - 1) := by
      rw [Nat.le_div_iff_mul_le (by omega), length_generate, Nat.mul_comm]
      exact Nat.le_succ _
    exact ⟨_, (Nat.add_sub_cancel' hplaces).symm⟩
  have hselected : concatenate P (generate P load) radian =
      some ((if 1 ≤ angle then [0] else []) ++ ids) := by
    have hcs : indicesFrom P.basis (generate P load).length 1
        (takeDigits P P.thres (P.places + n) fraction bj) = some ids := by
      rw [hreached.takeDigits_add n, indicesFrom_append_zeros]
      exact hids
    rw [concatenate, hn]
    exact congrArg (fun ids ↦ ids.bind fun ids ↦ some ((if 1 ≤ angle then [0] else []) ++ ids)) hcs
  have hsum' : angleSum P (generate P load) ids = digitSum P
      (takeDigits P P.thres P.places fraction bj) bj := by
    rw [hsum, Nat.zero_add, pow_one]
  -- the whole half-turn is entry 0, the fraction is the digits
  have hangle : fraction = radian + 2 * m - if 1 ≤ angle then 1 else 0 := by
    rw [← hm]
    show (if 1 ≤ angle then angle - 1 else angle) = angle - if 1 ≤ angle then 1 else 0
    split_ifs
    · rfl
    · exact (sub_zero _).symm
  rw [← hsum'] at hle hlt
  refine ⟨_, hselected, ?_, ?_, m, ?_⟩
  · split_ifs
    · refine List.nodup_cons.mpr ⟨fun hmem ↦ ?_, hsorted.imp Nat.ne_of_lt⟩
      exact absurd (hrange 0 hmem).1 (Nat.not_lt_zero _)
    · exact hsorted.imp Nat.ne_of_lt
  · split_ifs
    · refine List.forall_mem_cons.mpr ⟨?_, fun i hi ↦ (hrange i hi).2⟩
      rw [length_generate]
      exact Nat.succ_pos _
    · exact fun i hi ↦ (hrange i hi).2
  · split_ifs at hangle ⊢ with hone
    · have hwhole : (generate P load)[0]? = some ⟨1, 0, load 1 0⟩ := rfl
      have hentry : (⟨1, 0, load 1 0⟩ : Entry W).angle P = 1 := by simp [Entry.angle]
      rw [List.singleton_append, angleSum_cons P hwhole, hentry, abs_lt]
      constructor <;> linarith
    · rw [List.nil_append, abs_lt]
      constructor <;> linarith

end ScaffCC.RotLib.Exact
