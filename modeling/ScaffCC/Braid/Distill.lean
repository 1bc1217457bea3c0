import Mathlib.Algebra.Order.Archimedean.Basic
import Mathlib.Algebra.Order.Ring.Rat
import Mathlib.Data.Rat.Floor
import Mathlib.Tactic.Linarith
import Mathlib.Tactic.Ring
import ScaffCC.Transition.Search

/-!
# Distillation of magic states

The number of distillation levels is found by a loop that goes on as long as the error is above the
target. The error of a level is computed from the injection error by a closed formula, which is what
the recurrence gives that the comments state. It gets smaller from level to level only below a
threshold; at the threshold or above it the loop has no end, unless the target is met at once. The
loop is there for one of the two protocols only; the other has no levels.

The code distance of a level is looked for by bisection between two limits. The upper limit meets
the condition once it has moved and the lower one does not, and it is the lower one that is taken in
the end.

The arithmetic is exact here.
-/

open StateTransition

namespace ScaffCC.Braid

/-! ## Levels -/

/-- The distillation protocols. -/
inductive FactoryDesign | reedMuller | bravyiHaah
  deriving DecidableEq, Repr

inductive Magic | Y | A
  deriving DecidableEq, Repr

/-- The factor of a magic state. -/
def Magic.base : Magic → ℚ
  | Y => 7
  | A => 35

/-- The loop that adds up the exponents of the factor. -/
def base_pow (distillation_level : ℕ) : ℕ :=
  (List.range distillation_level).foldl (fun base_pow j ↦ base_pow + 3 ^ j) 0

def distillation_error (base base_error : ℚ) (distillation_level : ℕ) : ℚ :=
  base ^ base_pow distillation_level * base_error ^ 3 ^ distillation_level

/-- A round of the loop, with the variables `distillation_level` and `distillation_error`. -/
def levelRound (base base_error L_error_rate : ℚ) (s : ℕ × ℚ) : Option (ℕ × ℚ) :=
  if s.2 > L_error_rate then some (s.1 + 1, distillation_error base base_error (s.1 + 1)) else none

def set_distillation_level (factory_design : FactoryDesign) (magic : Magic)
    (base_error L_error_rate : ℚ) : Part ℕ :=
  match factory_design with
  | .reedMuller =>
    (eval (levelRound magic.base base_error L_error_rate) (0, base_error)).map Prod.fst
  | .bravyiHaah => .some 0

def levelError (base base_error : ℚ) : ℕ → ℚ
  | 0 => base_error
  | n + 1 => base * levelError base base_error n ^ 3

/-- The function ends, with the first level whose error is not above the target. -/
def LevelRight (factory_design : FactoryDesign) (magic : Magic) (base_error L_error_rate : ℚ) :
    Prop :=
  ∃ n ∈ set_distillation_level factory_design magic base_error L_error_rate,
    IsLeast {n | levelError magic.base base_error n ≤ L_error_rate} n

variable {factory_design : FactoryDesign} {magic : Magic} {base e L : ℚ} {n : ℕ}

theorem base_pow_succ (n : ℕ) : base_pow (n + 1) = base_pow n + 3 ^ n := by
  rw [base_pow, List.range_succ, List.foldl_append]
  rfl

theorem two_mul_base_pow (n : ℕ) : 2 * base_pow n + 1 = 3 ^ n := by
  induction n with
  | zero => rfl
  | succ n ih =>
    rw [base_pow_succ, pow_succ]
    omega

theorem le_base_pow (n : ℕ) : n ≤ base_pow n := by
  induction n with
  | zero => exact Nat.zero_le _
  | succ n ih =>
    have hpos : 0 < 3 ^ n := by positivity
    rw [base_pow_succ]
    omega

/-- The closed formula gives what the recurrence gives. -/
theorem distillation_error_eq (base e : ℚ) (n : ℕ) :
    distillation_error base e n = levelError base e n := by
  induction n with
  | zero => simp [distillation_error, base_pow, levelError]
  | succ n ih =>
    have hexp : base_pow (n + 1) = 3 * base_pow n + 1 := by
      have := two_mul_base_pow n
      rw [base_pow_succ]
      omega
    rw [levelError, ← ih, distillation_error, distillation_error, hexp, mul_pow, ← pow_mul,
      ← pow_mul, pow_succ base, ← pow_succ, mul_comm (base_pow n)]
    ring

theorem levelError_eq (base e : ℚ) (n : ℕ) :
    levelError base e n = e * (base * e ^ 2) ^ base_pow n := by
  rw [← distillation_error_eq, distillation_error, ← two_mul_base_pow]
  ring

theorem le_levelError (he : 0 < e) (h : 1 ≤ base * e ^ 2) (n : ℕ) : e ≤ levelError base e n := by
  rw [levelError_eq]
  exact le_mul_of_one_le_right he.le (one_le_pow₀ h)

theorem exists_levelError_le (hbase : 0 < base) (he : 0 < e) (hL : 0 < L)
    (h : base * e ^ 2 < 1) : ∃ n, levelError base e n ≤ L := by
  obtain ⟨n, hn⟩ := exists_pow_lt_of_lt_one (div_pos hL he) h
  refine ⟨n, ?_⟩
  rw [levelError_eq]
  calc e * (base * e ^ 2) ^ base_pow n
      ≤ e * (base * e ^ 2) ^ n := by
        have hle := pow_le_pow_of_le_one (by positivity) h.le (le_base_pow n)
        exact mul_le_mul_of_nonneg_left hle he.le
    _ ≤ e * (L / e) := mul_le_mul_of_nonneg_left hn.le he.le
    _ = L := mul_div_cancel₀ L he.ne'

theorem mem_set_distillation_level :
    n ∈ set_distillation_level .reedMuller magic e L ↔
      IsLeast {n | levelError magic.base e n ≤ L} n := by
  have hstart : ((0 : ℕ), e) = (0, levelError magic.base e 0) := rfl
  have heval := fun b ↦ mem_eval_iff_isLeast (b := b) (f := levelRound magic.base e L)
    (s := fun n ↦ (n, levelError magic.base e n)) (p := fun n ↦ levelError magic.base e n ≤ L)
    (fun n hn ↦ by
      rw [levelRound, if_pos (not_le.mp hn), distillation_error_eq])
    (fun n hn ↦ if_neg (not_lt.mpr hn))
  rw [set_distillation_level, hstart, Part.mem_map_iff]
  constructor
  · rintro ⟨b, hb, rfl⟩
    obtain ⟨n, hn, rfl⟩ := (heval b).mp hb
    exact hn
  · exact fun hn ↦ ⟨_, (heval _).mpr ⟨n, hn, rfl⟩, rfl⟩

theorem levelRight_reedMuller :
    LevelRight .reedMuller magic e L ↔ ∃ n, levelError magic.base e n ≤ L := by
  classical
  constructor
  · rintro ⟨n, -, hn⟩
    exact ⟨n, hn.1⟩
  · intro hex
    have hleast : IsLeast {n | levelError magic.base e n ≤ L} (Nat.find hex) :=
      ⟨Nat.find_spec hex, fun m hm ↦ Nat.find_min' hex hm⟩
    exact ⟨_, mem_set_distillation_level.mpr hleast, hleast⟩

theorem levelRight_bravyiHaah : LevelRight .bravyiHaah magic e L ↔ e ≤ L := by
  constructor
  · rintro ⟨n, hn, hleast⟩
    obtain rfl : n = 0 := Part.mem_some_iff.mp hn
    exact hleast.1
  · intro hle
    exact ⟨0, Part.mem_some 0, hle, fun n _ ↦ Nat.zero_le n⟩

/-- Some level meets the target exactly if the injection does or is below the threshold. -/
theorem exists_levelError_le_iff (hbase : 0 < base) (he : 0 < e) (hL : 0 < L) :
    (∃ n, levelError base e n ≤ L) ↔ e ≤ L ∨ base * e ^ 2 < 1 := by
  constructor
  · rintro ⟨n, hn⟩
    by_contra hnot
    obtain ⟨hlt, hthreshold⟩ := not_or.mp hnot
    exact hlt ((le_levelError he (not_lt.mp hthreshold) n).trans hn)
  · rintro (hle | hlt)
    · exact ⟨0, hle⟩
    · exact exists_levelError_le hbase he hL hlt

/-- **Distillation levels.** The function does what it should if and only if the target is met at
once, or the protocol is the one with levels and the injection error is below the threshold. -/
theorem levelRight_iff (he : 0 < e) (hL : 0 < L) :
    LevelRight factory_design magic e L ↔
      e ≤ L ∨ factory_design = .reedMuller ∧ magic.base * e ^ 2 < 1 := by
  have hbase : 0 < magic.base := by cases magic <;> norm_num [Magic.base]
  cases factory_design with
  | reedMuller =>
    rw [levelRight_reedMuller, exists_levelError_le_iff hbase he hL, and_iff_right rfl]
  | bravyiHaah =>
    rw [levelRight_bravyiHaah]
    exact (or_iff_left fun h ↦ FactoryDesign.noConfusion h.1).symm

theorem levelRight_iff_default :
    LevelRight .reedMuller .A (1 / 200) (1 / 10 ^ 12) ↔
      (1 / 200 : ℚ) ≤ 1 / 10 ^ 12 ∨
        FactoryDesign.reedMuller = .reedMuller ∧ Magic.base .A * (1 / 200) ^ 2 < 1 :=
  levelRight_iff (by norm_num) (by norm_num)

/-- With an injection error of `1 / 5` for `A` states the loop has no end. -/
theorem not_levelRight_fifth :
    (1 / 5 : ℚ) ∈ Set.Ioo 0 1 ∧ (1 / 1000 : ℚ) ∈ Set.Ioo 0 1 ∧
      ¬ LevelRight .reedMuller .A (1 / 5) (1 / 1000) := by
  refine ⟨by norm_num, by norm_num, fun h ↦ ?_⟩
  obtain ⟨n, hn⟩ := levelRight_reedMuller.mp h
  have hle : 1 / 5 ≤ levelError (Magic.base .A) (1 / 5) n :=
    le_levelError (by norm_num) (by norm_num [Magic.base]) n
  exact absurd (hle.trans hn) (by norm_num)

/-! ## Distances -/

/-- The loop that looks for the smallest distance. -/
def distanceSearch (a b : ℚ) (high_limit low_limit d : ℕ) : ℕ :=
  if high_limit - low_limit > 1 ∧ d > low_limit ∧ d < high_limit then
    if d * a ^ d < b then distanceSearch a b d low_limit ((d + low_limit) / 2)
    else distanceSearch a b high_limit d ((high_limit + d) / 2)
  else d
termination_by high_limit - low_limit

/-- The distance the search ends with. -/
def code_distance_at_level (a b : ℚ) : ℕ := distanceSearch a b 50 0 ((50 + 0) / 2)

/-- What the limits of the search are like: the lower one does not meet the condition unless it has
not moved, and the upper one does. -/
structure Limits (a b : ℚ) (high low : ℕ) : Prop where
  lt : low < high
  le : high ≤ 50
  low : low = 0 ∨ ¬ low * a ^ low < b
  high : high = 50 ∨ high * a ^ high < b

theorem Limits.distanceSearch {a b : ℚ} {high low : ℕ} (h : Limits a b high low) :
    Limits a b (distanceSearch a b high low ((high + low) / 2) + 1)
      (distanceSearch a b high low ((high + low) / 2)) := by
  have hlt := h.lt
  rw [Braid.distanceSearch]
  split_ifs with hgo htest
  · exact Limits.distanceSearch ⟨hgo.2.1, hgo.2.2.le.trans h.le, h.low, .inr htest⟩
  · exact Limits.distanceSearch ⟨hgo.2.2, h.le, .inr htest, h.high⟩
  · obtain rfl : high = low + 1 := by omega
    have hmid : (low + 1 + low) / 2 = low := by omega
    rwa [hmid]
termination_by high - low

/-- What the search ends with: no distance, or one that does not meet the condition, and the next
one meets it or is the last. -/
theorem limits_code_distance (a b : ℚ) :
    Limits a b (code_distance_at_level a b + 1) (code_distance_at_level a b) :=
  have hstart : Limits a b 50 0 := ⟨by decide, le_rfl, .inl rfl, .inl rfl⟩
  hstart.distanceSearch

theorem code_distance_cases (a b : ℚ) :
    code_distance_at_level a b = 0 ∨
      ¬ code_distance_at_level a b * a ^ code_distance_at_level a b < b :=
  (limits_code_distance a b).low

/-- **The search never ends with the smallest distance** that meets the condition, or with any that
does. -/
theorem not_isLeast_code_distance (a b : ℚ) :
    ¬ IsLeast {d : ℕ | (1 ≤ d ∧ d ≤ 50) ∧ d * a ^ d < b} (code_distance_at_level a b) := by
  rintro ⟨⟨⟨hpos, -⟩, hlt⟩, -⟩
  rcases code_distance_cases a b with hzero | hnot
  · omega
  · exact hnot hlt

/-- The first distance meets the condition here. -/
theorem not_isLeast_code_distance_tenth :
    (1 / 10 : ℚ) ∈ Set.Ioo 0 1 ∧ IsLeast {d : ℕ | (1 ≤ d ∧ d ≤ 50) ∧
        d * (1 / 10 : ℚ) ^ d < 1 / 2} 1 ∧
      code_distance_at_level (1 / 10) (1 / 2) ≠ 1 := by
  refine ⟨by norm_num, ⟨by norm_num, fun d hd ↦ hd.1.1⟩, fun hone ↦ ?_⟩
  rcases code_distance_cases (1 / 10) (1 / 2) with hzero | hnot
  · omega
  · rw [hone] at hnot
    exact hnot (by norm_num)

end ScaffCC.Braid
