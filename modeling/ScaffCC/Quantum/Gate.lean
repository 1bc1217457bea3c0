import Mathlib.Analysis.Real.Pi.Irrational
import Mathlib.Analysis.SpecialFunctions.Complex.Circle
import Mathlib.Analysis.SpecialFunctions.Trigonometric.Basic
import ScaffCC.Quantum.Operator

/-!
# The standard gates

The one-wire matrices over `ℂ`, the controlled gates as conditional flips, and the inverse of each.
Phases matter throughout: equality is equality of operators, not equality up to a scalar.
-/

open Complex

namespace Quantum

/-! ## Matrices -/

noncomputable def hadamard : Matrix Bool Bool ℂ :=
  .of fun i j ↦ if i && j then -(√2 : ℂ)⁻¹ else (√2 : ℂ)⁻¹

/-- The amplitude of each state after a Hadamard gate. -/
noncomputable def invSqrtTwo : ℂ := (√2 : ℂ)⁻¹

/-- The phase gate putting the phase `z` on `true`. -/
def phase (z : ℂ) : Matrix Bool Bool ℂ := .diagonal fun b ↦ if b then z else 1

/-- The bit flip. -/
def pauliX : Matrix Bool Bool ℂ := .of fun i j ↦ if i = j then 0 else 1

def pauliY : Matrix Bool Bool ℂ :=
  .of fun i j ↦ if i = j then 0 else if i then I else -I

noncomputable def rotX (θ : ℝ) : Matrix Bool Bool ℂ :=
  .of fun i j ↦ if i = j then (Real.cos (θ / 2) : ℂ) else -I * (Real.sin (θ / 2) : ℂ)

noncomputable def rotY (θ : ℝ) : Matrix Bool Bool ℂ :=
  .of fun i j ↦ if i = j then (Real.cos (θ / 2) : ℂ)
    else if i then (Real.sin (θ / 2) : ℂ) else -(Real.sin (θ / 2) : ℂ)

noncomputable def rotZ (θ : ℝ) : Matrix Bool Bool ℂ :=
  .diagonal fun b ↦ if b then exp (I * (θ / 2 : ℝ)) else exp (-(I * (θ / 2 : ℝ)))

/-- The transition from basis value `a` to basis value `b`. -/
def ketBra (b a : Bool) : Matrix Bool Bool ℂ := .of fun i j ↦ if i = b ∧ j = a then 1 else 0

/-- The eighth root of unity of the T gate. -/
noncomputable def omega8 : ℂ := exp (I * (Real.pi / 4 : ℝ))

theorem omega8_pow_four : omega8 ^ 4 = -1 := by
  rw [omega8, ← Complex.exp_nat_mul, show ((4 : ℕ) : ℂ) * (I * (Real.pi / 4 : ℝ)) = Real.pi * I by
    push_cast; ring, exp_pi_mul_I]

theorem omega8_ne_zero : omega8 ≠ 0 := exp_ne_zero _

/-! ## Inverses of matrices -/

theorem inv_sqrt_two_mul_self : (√2 : ℂ)⁻¹ * (√2 : ℂ)⁻¹ = 2⁻¹ := by
  rw [← mul_inv, ← Complex.ofReal_mul, Real.mul_self_sqrt zero_le_two, ofReal_ofNat]

theorem hadamard_mul_self : hadamard * hadamard = 1 := by
  ext i j
  cases i <;> cases j <;> norm_num [hadamard, Matrix.mul_apply, inv_sqrt_two_mul_self]

theorem pauliX_mul_self : pauliX * pauliX = 1 := by
  ext i j
  cases i <;> cases j <;> simp [pauliX, Matrix.mul_apply]

theorem pauliY_mul_self : pauliY * pauliY = 1 := by
  ext i j
  cases i <;> cases j <;> simp [pauliY, Matrix.mul_apply]

theorem onWire_phase_apply {ι : Type*} [DecidableEq ι] (q : ι) (z : ℂ) (ψ : Amplitudes ι ℂ)
    (x : ι → Bool) : onWire q (phase z) ψ x = (if x q then z else 1) * ψ x :=
  onWire_diagonal_apply q _ ψ x

theorem phase_mul (z w : ℂ) : phase z * phase w = phase (z * w) := by
  rw [phase, phase, phase, Matrix.diagonal_mul_diagonal]
  congr 1
  ext b
  cases b <;> simp

@[simp] theorem phase_one : phase 1 = 1 := by
  simp [phase, ← Matrix.diagonal_one]

theorem phase_mul_inv {z : ℂ} (h : z ≠ 0) : phase z * phase z⁻¹ = 1 := by
  rw [phase_mul, mul_inv_cancel₀ h, phase_one]

theorem phase_inv_mul {z : ℂ} (h : z ≠ 0) : phase z⁻¹ * phase z = 1 := by
  rw [phase_mul, inv_mul_cancel₀ h, phase_one]

/-- A sign put on the basis states where `p` holds and wire `t` is set becomes, between two
Hadamards on `t`, the flip of `t` under `p`. -/
theorem hadamard_sign_hadamard {ι : Type*} [DecidableEq ι] {t : ι} {p : (ι → Bool) → Bool}
    (hp : Indep p t) {A : Op ι ℂ}
    (hA : ∀ ψ x, A ψ x = (if p x && x t then -1 else 1) * ψ x) :
    onWire t hadamard * A * onWire t hadamard = flip ℂ t p := by
  ext ψ x
  have hhalf := inv_sqrt_two_mul_self
  simp only [Module.End.mul_apply, onWire_apply, hA, hp x, Function.update_self,
    Function.update_idem, flip_apply, flipWhen]
  cases hpx : p x <;> cases hx : x t <;>
    simp only [hadamard, Matrix.of_apply, Bool.xor_false, Bool.xor_true, Bool.and_false,
      Bool.and_true, if_true, if_false, Bool.false_eq_true, Bool.not_true, Bool.not_false]
  · linear_combination (2 * ψ (Function.update x t false)) * hhalf
  · linear_combination (2 * ψ (Function.update x t true)) * hhalf
  · linear_combination (2 * ψ (Function.update x t true)) * hhalf
  · linear_combination (2 * ψ (Function.update x t false)) * hhalf

@[simp] theorem rotX_zero : rotX 0 = 1 := by
  ext i j
  cases i <;> cases j <;> simp [rotX]

@[simp] theorem rotY_zero : rotY 0 = 1 := by
  ext i j
  cases i <;> cases j <;> simp [rotY]

@[simp] theorem rotZ_zero : rotZ 0 = 1 := by
  ext i j
  cases i <;> cases j <;> simp [rotZ]

/-! ## Rotations that are their own inverse

For each axis the corner entry of the square has real part `cos θ`, so the square is the identity
only if `θ` is a multiple of a full turn. A rational angle is one only when it is zero, `π` being
irrational. -/

private theorem cos_eq_sq_half_sub (θ : ℝ) :
    Real.cos θ = Real.cos (θ / 2) * Real.cos (θ / 2) - Real.sin (θ / 2) * Real.sin (θ / 2) := by
  rw [← Real.cos_add, add_halves]

theorem re_rotX_mul_self (θ : ℝ) : ((rotX θ * rotX θ) false false).re = Real.cos θ := by
  rw [cos_eq_sq_half_sub, Matrix.mul_apply, Fintype.sum_bool]
  simp only [rotX, Matrix.of_apply, if_true, if_false, Bool.false_eq_true, Bool.true_eq_false]
  simp only [← ofReal_mul, mul_re, mul_im, add_re, neg_re, neg_im, I_re, I_im, ofReal_re, ofReal_im]
  ring

theorem re_rotY_mul_self (θ : ℝ) : ((rotY θ * rotY θ) false false).re = Real.cos θ := by
  rw [cos_eq_sq_half_sub, Matrix.mul_apply, Fintype.sum_bool]
  simp only [rotY, Matrix.of_apply, if_true, if_false, Bool.false_eq_true, Bool.true_eq_false]
  simp only [mul_re, add_re, neg_re, neg_im, ofReal_re, ofReal_im]
  ring

theorem re_rotZ_mul_self (θ : ℝ) : ((rotZ θ * rotZ θ) false false).re = Real.cos θ := by
  rw [rotZ, Matrix.diagonal_mul_diagonal, Matrix.diagonal_apply_eq, if_neg Bool.false_ne_true,
    ← Complex.exp_add,
    show -(I * ((θ / 2 : ℝ) : ℂ)) + -(I * ((θ / 2 : ℝ) : ℂ)) = ((-θ : ℝ) : ℂ) * I by
      push_cast; ring, Complex.exp_ofReal_mul_I_re, Real.cos_neg]

theorem eq_zero_of_cos_eq_one {a : ℚ} (h : Real.cos a = 1) : a = 0 := by
  obtain ⟨n, hn⟩ := (Real.cos_eq_one_iff _).mp h
  by_contra ha
  have hn0 : n ≠ 0 := by
    rintro rfl
    exact ha (by simpa using hn.symm)
  refine irrational_pi ⟨a / (n * 2), ?_⟩
  push_cast
  rw [← hn]
  have hnR : (n : ℝ) ≠ 0 := by exact_mod_cast hn0
  field_simp

end Quantum
