import ScaffCC.Quantum.Circuit
import ScaffCC.Quantum.Gate

/-!
# Diagonal operators

A diagonal operator multiplies the amplitude of each basis state by a number. Angles are in radians
here, and rational, so that only the angle zero is no phase.

A diagonal operator that does nothing while a wire is clear, carried through an operator that keeps
this wire, is undone by a diagonal operator that does not read the wire only if both are the
identity.
-/

open Complex

namespace Quantum

variable {ι R : Type*} [DecidableEq ι] [CommSemiring R]

/-! ## Operators -/

/-- The operator with a number for each basis state. -/
def diag (d : (ι → Bool) → R) : Op ι R where
  toFun ψ x := d x * ψ x
  map_add' ψ φ := by
    ext x
    exact mul_add ..
  map_smul' c ψ := by
    ext x
    exact mul_left_comm ..

variable {d e : (ι → Bool) → R}

omit [DecidableEq ι] in
@[simp] theorem diag_apply (d : (ι → Bool) → R) (ψ : Amplitudes ι R) (x : ι → Bool) :
    diag d ψ x = d x * ψ x := rfl

omit [DecidableEq ι] in
theorem diag_mul (d e : (ι → Bool) → R) : diag d * diag e = diag fun x ↦ d x * e x := by
  ext ψ x
  exact (mul_assoc ..).symm

omit [DecidableEq ι] in
theorem diag_comm (d e : (ι → Bool) → R) : diag d * diag e = diag e * diag d := by
  rw [diag_mul, diag_mul]
  simp only [mul_comm]

omit [DecidableEq ι] in
theorem diag_one : diag (fun _ : ι → Bool ↦ (1 : R)) = 1 := by
  ext ψ x
  exact one_mul _

omit [DecidableEq ι] in
theorem diag_eq_one_iff : diag d = 1 ↔ ∀ x, d x = 1 := by
  constructor
  · intro h x
    have hx := congrFun (LinearMap.congr_fun h fun _ ↦ 1) x
    rwa [diag_apply, mul_one] at hx
  · intro h
    rw [funext h, diag_one]

theorem onWire_diagonal (q : ι) (f : Bool → R) :
    onWire q (.diagonal f) = diag fun x ↦ f (x q) := by
  ext ψ x
  exact onWire_diagonal_apply q f ψ x

/-! ## Operators that keep a wire -/

/-- The operator does not change what is on the wire. -/
def Keeps (w : ι) (A : Op ι R) : Prop := ∀ f : Bool → R, Commute A (diag fun x ↦ f (x w))

namespace Keeps

variable {w : ι} {A B : Op ι R}

omit [DecidableEq ι] in
theorem one (w : ι) : Keeps w (1 : Op ι R) := fun _ ↦ Commute.one_left _

omit [DecidableEq ι] in
theorem mul (hA : Keeps w A) (hB : Keeps w B) : Keeps w (A * B) :=
  fun f ↦ (hA f).mul_left (hB f)

theorem onWire {q : ι} (h : q ≠ w) (u : Matrix Bool Bool R) : Keeps w (onWire q u) := fun f ↦ by
  rw [← onWire_diagonal]
  exact commute_onWire h u _

theorem flip {t : ι} (h : t ≠ w) (p : (ι → Bool) → Bool) : Keeps w (flip R t p) := fun f ↦ by
  rw [← onWire_diagonal]
  exact (commute_onWire_diagonal_flip h.symm f p).symm

omit [DecidableEq ι] in
theorem compose {γ : Type*} {op : γ → Op ι R} {C : List γ} (h : ∀ g ∈ C, Keeps w (op g)) :
    Keeps w (compose op C) := by
  induction C with
  | nil => exact one w
  | cons g C ih =>
    obtain ⟨hg, hC⟩ := List.forall_mem_cons.mp h
    exact (ih hC).mul hg

end Keeps

/-- **Two diagonal operators far from each other**: the first one does nothing while a wire is
clear, the second one does not read the wire, and between them there is an operator that keeps the
wire. Then they only cancel if both are the identity. -/
theorem mul_diag_eq_one_iff {w : ι} {A A' : Op ι R} (hA : A' * A = 1) (hA' : A * A' = 1)
    (hkeeps : Keeps w A) (hd : ∀ x, x w = false → d x = 1)
    (he : ∀ x b, e (Function.update x w b) = e x) :
    A' * diag d * A * diag e = 1 ↔ diag d = 1 ∧ diag e = 1 := by
  constructor
  · intro h
    -- On the states with a clear wire the first operator is the identity.
    let clear : Op ι R := diag fun x ↦ if x w then 0 else 1
    have hclear : diag d * clear = clear := by
      rw [diag_mul]
      refine congrArg diag (funext fun x ↦ ?_)
      cases hx : x w
      · rw [hd x hx, one_mul]
      · rw [if_pos rfl, mul_zero]
    have hcomm : A * clear = clear * A := hkeeps fun b ↦ if b then 0 else 1
    have hmove : diag d * A * diag e = A := by
      calc diag d * A * diag e = A * A' * (diag d * A * diag e) := by rw [hA', one_mul]
        _ = A * (A' * diag d * A * diag e) := by simp only [mul_assoc]
        _ = A := by rw [h, mul_one]
    have hleft : clear * diag e = clear := by
      calc clear * diag e = A' * A * (clear * diag e) := by rw [hA, one_mul]
        _ = A' * (A * clear) * diag e := by simp only [mul_assoc]
        _ = A' * (diag d * clear * A) * diag e := by rw [hclear, hcomm]
        _ = A' * (diag d * (A * clear) * diag e) := by rw [hcomm]; simp only [mul_assoc]
        _ = A' * (diag d * A * diag e * clear) := by
          simp only [mul_assoc, diag_comm e, clear]
        _ = clear := by rw [hmove, ← mul_assoc, hA, one_mul]
    have hone : ∀ x, e x = 1 := by
      intro x
      have hx := congrFun (LinearMap.congr_fun hleft fun _ ↦ 1) (Function.update x w false)
      simpa [clear, diag_apply, he] using hx
    have he' : diag e = 1 := diag_eq_one_iff.mpr hone
    rw [he', mul_one] at hmove
    refine ⟨?_, he'⟩
    rw [← mul_one (diag d), ← hA', ← mul_assoc, hmove]
  · rintro ⟨hd', he'⟩
    rw [hd', he', mul_one, mul_one, hA]

/-! ## Angles -/

/-- The phase of an angle in radians. -/
noncomputable def radians (r : ℚ) : ℂ := exp ((r : ℝ) * I)

@[simp] theorem radians_zero : radians 0 = 1 := by
  simp [radians]

theorem radians_add (r s : ℚ) : radians (r + s) = radians r * radians s := by
  rw [radians, radians, radians, ← Complex.exp_add]
  push_cast
  ring_nf

theorem radians_eq_one_iff {r : ℚ} : radians r = 1 ↔ r = 0 := by
  refine ⟨fun h ↦ eq_zero_of_cos_eq_one ?_, fun h ↦ by rw [h, radians_zero]⟩
  rw [← Complex.exp_ofReal_mul_I_re, ← radians, h, one_re]

/-- The diagonal operator with angles. -/
noncomputable def turns (φ : (ι → Bool) → ℚ) : Op ι ℂ := diag fun x ↦ radians (φ x)

omit [DecidableEq ι] in
theorem turns_mul (φ χ : (ι → Bool) → ℚ) : turns φ * turns χ = turns fun x ↦ φ x + χ x := by
  rw [turns, turns, diag_mul]
  simp only [turns, radians_add]

omit [DecidableEq ι] in
theorem turns_eq_one_iff {φ : (ι → Bool) → ℚ} : turns φ = 1 ↔ ∀ x, φ x = 0 := by
  simp only [turns, diag_eq_one_iff, radians_eq_one_iff]

omit [DecidableEq ι] in
theorem turns_zero : turns (fun _ : ι → Bool ↦ 0) = 1 := turns_eq_one_iff.mpr fun _ ↦ rfl

theorem flip_mul_turns (t : ι) (p : (ι → Bool) → Bool) (φ : (ι → Bool) → ℚ) :
    flip ℂ t p * turns φ = (turns fun x ↦ φ (flipWhen t p x)) * flip ℂ t p := rfl

theorem onWire_rotZ_eq_turns (q : ι) (r : ℚ) :
    onWire q (rotZ r) = turns fun x ↦ if x q then r / 2 else -(r / 2) := by
  rw [rotZ, onWire_diagonal, turns]
  refine congrArg diag (funext fun x ↦ ?_)
  cases x q
  · rw [if_neg Bool.false_ne_true, if_neg Bool.false_ne_true, radians]
    congr 1
    push_cast
    ring
  · rw [if_pos rfl, if_pos rfl, radians]
    congr 1
    push_cast
    ring

end Quantum
