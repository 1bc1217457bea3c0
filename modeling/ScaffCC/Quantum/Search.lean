import Mathlib.Analysis.Real.Pi.Bounds
import Mathlib.Analysis.SpecialFunctions.Trigonometric.Bounds
import Mathlib.Analysis.SpecialFunctions.Trigonometric.Inverse
import Mathlib.Tactic.LinearCombination
import Mathlib.Tactic.Positivity

/-!
# Amplitudes that are searched

A search has an amplitude for each place of a finite set. One round changes the sign of the
amplitudes of the marked places and then takes twice the mean off every amplitude. The amplitudes
are the same on the marked places and the same on the others, so that a round is a rotation in a
plane: the angle grows by twice the angle of the mean.

For one marked place the number of rounds that is next to the quarter turn finds it almost surely.
-/

open Finset

namespace Quantum.Search

variable {α : Type*}

/-! ## Rounds -/

/-- The signs of the marked amplitudes are changed. -/
def mark (p : α → Prop) [DecidablePred p] (f : α → ℂ) (a : α) : ℂ := if p a then -f a else f a

/-- Twice the mean is taken off. -/
noncomputable def reflect (s : Finset α) (f : α → ℂ) (a : α) : ℂ :=
  f a - 2 • ((∑ b ∈ s, f b) / #s)

theorem reflect_apply (s : Finset α) (f : α → ℂ) (a : α) :
    reflect s f a = f a - 2 * (∑ b ∈ s, f b) / #s := by
  rw [reflect, nsmul_eq_mul, Nat.cast_ofNat, mul_div_assoc]

noncomputable def round (s : Finset α) (p : α → Prop) [DecidablePred p] (f : α → ℂ) : α → ℂ :=
  reflect s (mark p f)

theorem round_const_mul (s : Finset α) (p : α → Prop) [DecidablePred p] (c : ℂ) (f : α → ℂ)
    (a : α) : round s p (fun b ↦ c * f b) a = c * round s p f a := by
  have hmark : ∀ b, mark p (fun b ↦ c * f b) b = c * mark p f b := by
    intro b
    rw [mark, mark]
    split_ifs
    · rw [mul_neg]
    · rfl
  rw [round, round, reflect_apply, reflect_apply, hmark, sum_congr rfl fun b _ ↦ hmark b, ← mul_sum]
  ring

/-! ## The plane -/

section Plane

variable (s : Finset α) (p : α → Prop) [DecidablePred p]

/-- The number of marked places. -/
def marked : ℝ := #{a ∈ s | p a}

/-- The number of the other places. -/
def unmarked : ℝ := #{a ∈ s | ¬p a}

noncomputable def angle : ℝ := Real.arcsin √(marked s p / #s)

/-- The amplitudes of an angle. -/
noncomputable def spread (φ : ℝ) (a : α) : ℝ :=
  if p a then Real.sin φ / √(marked s p) else Real.cos φ / √(unmarked s p)

variable {s p}

theorem marked_add_unmarked : marked s p + unmarked s p = #s := by
  unfold marked unmarked
  exact_mod_cast card_filter_add_card_filter_not p

variable (hM : 0 < marked s p) (hL : 0 < unmarked s p)

include hM hL

theorem sin_angle : Real.sin (angle s p) = √(marked s p / #s) := by
  refine Real.sin_arcsin (le_trans (by norm_num) (Real.sqrt_nonneg _)) ?_
  rw [Real.sqrt_le_one, ← marked_add_unmarked (p := p), div_le_one (by positivity)]
  exact le_add_of_nonneg_right hL.le

theorem cos_angle : Real.cos (angle s p) = √(unmarked s p / #s) := by
  rw [angle, Real.cos_arcsin, Real.sq_sqrt (by positivity), ← marked_add_unmarked (p := p)]
  congr 1
  field_simp
  ring

theorem spread_angle (a : α) : spread s p (angle s p) a = (√(#s : ℝ))⁻¹ := by
  rw [spread, sin_angle hM hL, cos_angle hM hL, Real.sqrt_div hM.le, Real.sqrt_div hL.le]
  have hM' : √(marked s p) ≠ 0 := (Real.sqrt_pos.mpr hM).ne'
  have hL' : √(unmarked s p) ≠ 0 := (Real.sqrt_pos.mpr hL).ne'
  split_ifs
  · rw [div_right_comm, div_self hM', one_div]
  · rw [div_right_comm, div_self hL', one_div]

theorem cos_two_mul_angle : #s * Real.cos (2 * angle s p) = unmarked s p - marked s p := by
  have hcard := marked_add_unmarked (s := s) (p := p)
  have hpos : (0 : ℝ) < #s := hcard ▸ add_pos hM hL
  rw [Real.cos_two_mul, cos_angle hM hL, Real.sq_sqrt (by positivity), mul_sub, mul_left_comm,
    mul_div_cancel₀ _ hpos.ne']
  linear_combination hcard

theorem sin_two_mul_angle :
    #s * Real.sin (2 * angle s p) = 2 * √(marked s p) * √(unmarked s p) := by
  have hpos : (0 : ℝ) < #s := marked_add_unmarked (s := s) (p := p) ▸ add_pos hM hL
  have hsqrt : √(#s : ℝ) ≠ 0 := (Real.sqrt_pos.mpr hpos).ne'
  rw [Real.sin_two_mul, sin_angle hM hL, cos_angle hM hL, Real.sqrt_div hM.le, Real.sqrt_div hL.le]
  field_simp
  rw [Real.sq_sqrt hpos.le]

omit hM hL in
theorem sum_ite_const (x y : ℝ) :
    ∑ a ∈ s, (if p a then x else y) = marked s p * x + unmarked s p * y := by
  rw [sum_ite, sum_const, sum_const, nsmul_eq_mul, nsmul_eq_mul, marked, unmarked]

/-- **A round is a rotation**: it adds twice the angle of the mean, and a sign. -/
theorem round_spread (φ : ℝ) (a : α) :
    round s p (fun b ↦ (spread s p φ b : ℂ)) a = -(spread s p (φ + 2 * angle s p) a : ℝ) := by
  have hpos : (0 : ℝ) < #s := marked_add_unmarked (s := s) (p := p) ▸ add_pos hM hL
  set x := √(marked s p) with hx
  set y := √(unmarked s p) with hy
  have hx₀ : x ≠ 0 := (Real.sqrt_pos.mpr hM).ne'
  have hy₀ : y ≠ 0 := (Real.sqrt_pos.mpr hL).ne'
  have hxx : marked s p = x * x := (Real.mul_self_sqrt hM.le).symm
  have hyy : unmarked s p = y * y := (Real.mul_self_sqrt hL.le).symm
  have hmark : ∀ b, mark p (fun b ↦ (spread s p φ b : ℂ)) b =
      ((if p b then -(Real.sin φ / x) else Real.cos φ / y : ℝ) : ℂ) := by
    intro b
    rw [mark, spread]
    split_ifs
    · exact (Complex.ofReal_neg _).symm
    · rfl
  have hsum : ∑ b ∈ s, (if p b then -(Real.sin φ / x) else Real.cos φ / y) =
      y * Real.cos φ - x * Real.sin φ := by
    rw [sum_ite_const, hxx, hyy]
    field_simp
    ring
  have hcos := cos_two_mul_angle hM hL
  have hsin := sin_two_mul_angle hM hL
  rw [hxx, hyy] at hcos
  rw [← hx, ← hy] at hsin
  rw [round, reflect_apply, hmark, Finset.sum_congr rfl fun b _ ↦ hmark b, ← Complex.ofReal_sum,
    hsum, spread, ← hx, ← hy]
  norm_cast
  -- multiplied by the number of places, both sides are sums of products of the four roots
  refine mul_left_cancel₀ hpos.ne' ?_
  have hcard : (#s : ℝ) = x * x + y * y := by rw [← hxx, ← hyy, marked_add_unmarked]
  rw [mul_sub, mul_div_cancel₀ _ hpos.ne']
  split_ifs
  · rw [Real.sin_add]
    field_simp
    linear_combination Real.cos φ * hsin + Real.sin φ * hcos - Real.sin φ * hcard
  · rw [Real.cos_add]
    field_simp
    linear_combination Real.cos φ * hcos - Real.sin φ * hsin + Real.cos φ * hcard

/-- The amplitudes after a number of rounds, all of them equal at first. -/
theorem iterate_round (k : ℕ) (a : α) :
    ((round s p)^[k] fun _ ↦ ((√(#s : ℝ))⁻¹ : ℝ)) a =
      (-1) ^ k * (spread s p ((2 * k + 1) * angle s p) a : ℝ) := by
  induction k generalizing a with
  | zero =>
    rw [Function.iterate_zero_apply, pow_zero, one_mul, Nat.cast_zero, mul_zero, zero_add, one_mul,
      spread_angle hM hL]
  | succ k ih =>
    have hangle : (2 * k + 1) * angle s p + 2 * angle s p =
        (2 * (k + 1 : ℕ) + 1) * angle s p := by
      push_cast
      ring
    rw [Function.iterate_succ_apply', funext ih, round_const_mul, round_spread hM hL, hangle,
      pow_succ]
    ring

end Plane

/-! ## The number of rounds -/

theorem arcsin_le {x : ℝ} (h₀ : 0 < x) (h : x ≤ 1 / 2) :
    x ≤ Real.arcsin x ∧ Real.arcsin x ≤ x + x ^ 3 / 4 := by
  set θ := Real.arcsin x with hθ
  have hpos : 0 < θ := Real.arcsin_pos.mpr h₀
  have hsin : Real.sin θ = x := Real.sin_arcsin (by linarith) (by linarith)
  have hsmall : θ ≤ 53 / 100 := by
    have hsixth : θ ≤ Real.pi / 6 := by
      rw [hθ, Real.arcsin_le_iff_le_sin' ⟨by linarith [Real.pi_pos], by linarith [Real.pi_pos]⟩,
        Real.sin_pi_div_six]
      exact h
    linarith [Real.pi_lt_d2]
  have hle : x ≤ θ := hsin ▸ Real.sin_le hpos.le
  refine ⟨hle, ?_⟩
  have hcube : θ - θ ^ 3 / 6 < x := hsin ▸ Real.sin_gt_sub_cube hpos
  -- the sine is most of the angle, so that its cube is most of the cube
  have hsq : θ ^ 2 ≤ (53 / 100) ^ 2 := pow_le_pow_left₀ hpos.le hsmall 2
  have hmost : 95 / 100 * θ ≤ x := by nlinarith
  have hpow : (95 / 100 * θ) ^ 3 ≤ x ^ 3 := pow_le_pow_left₀ (by positivity) hmost 3
  have hθ₃ : 0 < θ ^ 3 := by positivity
  nlinarith

/-- **One marked place is found almost surely** after the number of rounds that takes the angle
next to a quarter turn. -/
theorem le_sin_sq {x : ℝ} (h₀ : 0 < x) (h : x ≤ 1 / 2) :
    1 - 2 * x ^ 2 ≤ Real.sin ((2 * ⌊Real.pi / 4 / x⌋₊ + 1) * Real.arcsin x) ^ 2 := by
  obtain ⟨hle, hcube⟩ := arcsin_le h₀ h
  set θ := Real.arcsin x
  set k := ⌊Real.pi / 4 / x⌋₊
  have hπ := Real.pi_pos
  have hk : (k : ℝ) * x ≤ Real.pi / 4 := by
    rw [← le_div_iff₀ h₀]
    exact Nat.floor_le (by positivity)
  have hk' : Real.pi / 4 < (k + 1) * x := by
    rw [← div_lt_iff₀ h₀]
    exact Nat.lt_floor_add_one _
  have hx₂ : 0 < x ^ 2 := by positivity
  -- how far the angle is from the quarter turn
  have habs : |(2 * k + 1) * θ - Real.pi / 2| ≤ 7 / 5 * x := by
    have hθk : (k : ℝ) * (θ - x) ≤ Real.pi / 16 * x ^ 2 := by
      calc (k : ℝ) * (θ - x) ≤ k * (x ^ 3 / 4) := by gcongr; linarith
        _ = k * x * (x ^ 2 / 4) := by ring
        _ ≤ Real.pi / 4 * (x ^ 2 / 4) := by gcongr
        _ = Real.pi / 16 * x ^ 2 := by ring
    have hk₀ : (0 : ℝ) ≤ k * (θ - x) := mul_nonneg (Nat.cast_nonneg k) (sub_nonneg.mpr hle)
    rw [abs_le]
    constructor
    · nlinarith
    · nlinarith [Real.pi_lt_d2]
  have hsq : ((2 * k + 1) * θ - Real.pi / 2) ^ 2 ≤ 2 * x ^ 2 := by
    calc ((2 * k + 1) * θ - Real.pi / 2) ^ 2 ≤ (7 / 5 * x) ^ 2 := sq_le_sq' (abs_le.mp habs).1
          (abs_le.mp habs).2
      _ ≤ 2 * x ^ 2 := by nlinarith
  have hshift : Real.sin ((2 * k + 1) * θ) = Real.cos ((2 * k + 1) * θ - Real.pi / 2) :=
    (Real.cos_sub_pi_div_two _).symm
  rw [hshift, Real.cos_sq']
  linarith [Real.sin_sq_le_sq (x := (2 * k + 1) * θ - Real.pi / 2)]

end Quantum.Search
