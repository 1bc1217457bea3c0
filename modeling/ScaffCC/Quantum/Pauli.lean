import Mathlib.Algebra.BigOperators.Group.List.Lemmas
import ScaffCC.Quantum.Circuit
import ScaffCC.Quantum.Gate
import ScaffCC.Quantum.Ket

/-!
# Pauli strings and rotations

A string has a matrix on each wire of a list. With Pauli matrices on the wires two strings commute
if they differ on an even number of wires. A rotation about an operator becomes a rotation about
another one between an operator and its inverse: controlled negations along a list of wires make
the rotation of one wire a rotation about the string on all of them.
-/

open Complex

namespace Quantum

variable {ι : Type*} [DecidableEq ι]

/-! ## Strings -/

/-- A matrix on each wire of a list. -/
noncomputable def string (m : ι → Matrix Bool Bool ℂ) (l : List ι) : Op ι ℂ :=
  (l.map fun q ↦ onWire q (m q)).prod

variable {m m' : ι → Matrix Bool Bool ℂ} {l : List ι} {q : ι}

@[simp] theorem string_nil (m : ι → Matrix Bool Bool ℂ) : string m [] = 1 := rfl

@[simp] theorem string_cons (m : ι → Matrix Bool Bool ℂ) (q : ι) (l : List ι) :
    string m (q :: l) = onWire q (m q) * string m l := List.prod_cons

theorem string_congr (h : ∀ q ∈ l, m q = m' q) : string m l = string m' l := by
  rw [string, string, List.map_congr_left fun q hq ↦ congrArg (onWire q) (h q hq)]

theorem commute_onWire_string (h : q ∉ l) (u : Matrix Bool Bool ℂ) (m : ι → Matrix Bool Bool ℂ) :
    Commute (onWire q u) (string m l) := by
  induction l with
  | nil => exact Commute.one_right _
  | cons w l ih =>
    obtain ⟨hw, hl⟩ := not_or.mp (List.mem_cons.not.mp h)
    rw [string_cons]
    exact (commute_onWire hw _ _).mul_right (ih hl)

theorem string_mul (hl : l.Nodup) (m m' : ι → Matrix Bool Bool ℂ) :
    string m l * string m' l = string (fun q ↦ m q * m' q) l := by
  induction l with
  | nil => exact one_mul 1
  | cons q l ih =>
    obtain ⟨hq, hl⟩ := List.nodup_cons.mp hl
    have hcomm := (commute_onWire_string hq (m' q) m).eq
    calc string m (q :: l) * string m' (q :: l)
        = onWire q (m q) * (string m l * onWire q (m' q)) * string m' l := by
          simp only [string_cons, mul_assoc]
      _ = onWire q (m q) * onWire q (m' q) * (string m l * string m' l) := by
          rw [← hcomm]
          simp only [mul_assoc]
      _ = string (fun q ↦ m q * m' q) (q :: l) := by
          rw [ih hl, onWire_mul, string_cons]

theorem onWire_smul (q : ι) (c : ℂ) (u : Matrix Bool Bool ℂ) :
    onWire q (c • u) = c • onWire q u := by
  ext ψ x
  simp only [onWire_apply, LinearMap.smul_apply, Pi.smul_apply, Matrix.smul_apply, smul_eq_mul]
  ring

theorem string_smul (c : ι → ℂ) (m : ι → Matrix Bool Bool ℂ) (l : List ι) :
    string (fun q ↦ c q • m q) l = (l.map c).prod • string m l := by
  induction l with
  | nil => exact (one_smul ℂ _).symm
  | cons q l ih =>
    rw [string_cons, string_cons, ih, onWire_smul, smul_mul_smul_comm, List.map_cons,
      List.prod_cons]

theorem string_one (l : List ι) : string (fun _ ↦ 1) l = 1 := by
  induction l with
  | nil => rfl
  | cons q l ih => rw [string_cons, ih, onWire_one, one_mul]

/-- A string goes past a matrix on one of its wires with the sign of the two matrices there. -/
theorem string_mul_onWire (hl : l.Nodup) (hq : q ∈ l) {u : Matrix Bool Bool ℂ} {c : ℂ}
    (h : m q * u = c • (u * m q)) :
    string m l * onWire q u = c • (onWire q u * string m l) := by
  induction l with
  | nil => exact absurd hq List.not_mem_nil
  | cons w l ih =>
    obtain ⟨hw, hl⟩ := List.nodup_cons.mp hl
    rw [string_cons, mul_assoc]
    by_cases hqw : q = w
    · subst hqw
      rw [← (commute_onWire_string hw u m).eq, ← mul_assoc, onWire_mul, h, onWire_smul,
        smul_mul_assoc, ← onWire_mul, mul_assoc]
    · rw [ih hl ((List.mem_cons.mp hq).resolve_left hqw), mul_smul_comm, ← mul_assoc,
        (commute_onWire (Ne.symm hqw) (m w) u).eq, mul_assoc]

/-- **Two strings commute up to the signs** of their matrices. -/
theorem string_mul_string {c : ι → ℂ} {L : List ι} (hL : L.Nodup) (hl : ∀ q ∈ l, q ∈ L)
    (h : ∀ q ∈ l, m' q * m q = c q • (m q * m' q)) :
    string m' L * string m l = (l.map c).prod • (string m l * string m' L) := by
  induction l with
  | nil => rw [string_nil, mul_one, one_mul, List.map_nil, List.prod_nil, one_smul]
  | cons q l ih =>
    obtain ⟨hq, hl⟩ := List.forall_mem_cons.mp hl
    obtain ⟨hc, h⟩ := List.forall_mem_cons.mp h
    rw [string_cons, ← mul_assoc, string_mul_onWire hL hq hc, smul_mul_assoc, mul_assoc, ih hl h,
      mul_smul_comm, smul_smul, List.map_cons, List.prod_cons, mul_assoc]

theorem onWire_mul_string_mul (hl : l.Nodup) (hq : q ∈ l) (u v : Matrix Bool Bool ℂ) :
    onWire q v * string m l * onWire q u = string (Function.update m q (v * m q * u)) l := by
  induction l with
  | nil => exact absurd hq List.not_mem_nil
  | cons w l ih =>
    obtain ⟨hw, hl⟩ := List.nodup_cons.mp hl
    rw [string_cons, string_cons]
    by_cases hqw : q = w
    · subst hqw
      have hrest : string (Function.update m q (v * m q * u)) l = string m l :=
        string_congr fun w hwl ↦ Function.update_of_ne (ne_of_mem_of_not_mem hwl hw) _ _
      rw [Function.update_self, hrest, ← mul_assoc, onWire_mul, mul_assoc,
        ← (commute_onWire_string hw u m).eq, ← mul_assoc, onWire_mul]
    · have hql : q ∈ l := (List.mem_cons.mp hq).resolve_left hqw
      rw [Function.update_of_ne (Ne.symm hqw), ← ih hl hql, ← mul_assoc,
        (commute_onWire hqw v (m w)).eq]
      simp only [mul_assoc]

theorem string_mul_string_mul {ws : List ι} (hl : l.Nodup) (hws : ws.Nodup) (hsub : ∀ q ∈ ws, q ∈ l)
    (u v : ι → Matrix Bool Bool ℂ) :
    string v ws * string m l * string u ws =
      string (fun q ↦ if q ∈ ws then v q * m q * u q else m q) l := by
  induction ws with
  | nil => simp
  | cons w ws ih =>
    obtain ⟨hw, hws⟩ := List.nodup_cons.mp hws
    obtain ⟨hwl, hsub⟩ := List.forall_mem_cons.mp hsub
    have hinner := ih hws hsub
    calc string v (w :: ws) * string m l * string u (w :: ws)
        = onWire w (v w) * (string v ws * string m l * string u ws) * onWire w (u w) := by
          rw [string_cons, string_cons, (commute_onWire_string hw (u w) u).eq]
          simp only [mul_assoc]
      _ = string (fun q ↦ if q ∈ w :: ws then v q * m q * u q else m q) l := by
          rw [hinner, onWire_mul_string_mul hl hwl]
          refine string_congr fun q _ ↦ ?_
          by_cases hqw : q = w
          · subst hqw
            rw [Function.update_self, if_neg hw, if_pos List.mem_cons_self]
          · rw [Function.update_of_ne hqw]
            simp only [List.mem_cons, hqw, false_or]

/-! ## Rotations -/

/-- The rotation about an operator, by twice the angle. -/
noncomputable def rotation (A : Op ι ℂ) (φ : ℝ) : Op ι ℂ :=
  (Real.cos φ : ℂ) • 1 - (I * Real.sin φ) • A

variable {A B U V : Op ι ℂ}

omit [DecidableEq ι] in
/-- **A rotation between an operator and its inverse.** -/
theorem mul_rotation_mul (h : V * U = 1) (A : Op ι ℂ) (φ : ℝ) :
    V * rotation A φ * U = rotation (V * A * U) φ := by
  rw [rotation, rotation, mul_sub, sub_mul, mul_smul_comm, mul_smul_comm, smul_mul_assoc,
    smul_mul_assoc, mul_one, h]

omit [DecidableEq ι] in
theorem commute_rotation (h : Commute A B) (φ : ℝ) : Commute (rotation A φ) B :=
  ((Commute.one_left B).smul_left _).sub_left (h.smul_left _)

omit [DecidableEq ι] in
theorem commute_rotation_rotation (h : Commute A B) (φ ψ : ℝ) :
    Commute (rotation A φ) (rotation B ψ) :=
  commute_rotation (commute_rotation h.symm ψ).symm φ

def pauliZ : Matrix Bool Bool ℂ := .diagonal fun b ↦ if b then -1 else 1

theorem onWire_rotZ_eq_rotation (q : ι) (θ : ℝ) :
    onWire q (rotZ θ) = rotation (onWire q pauliZ) (θ / 2) := by
  ext ψ x
  rw [rotZ, onWire_diagonal_apply, rotation, LinearMap.sub_apply, LinearMap.smul_apply,
    LinearMap.smul_apply, Pi.sub_apply, Pi.smul_apply, Pi.smul_apply, pauliZ,
    onWire_diagonal_apply, Module.End.one_apply, smul_eq_mul, smul_eq_mul]
  cases x q
  · rw [if_neg Bool.false_ne_true, if_neg Bool.false_ne_true, ← mul_neg, mul_comm I, exp_mul_I,
      ← ofReal_neg, ← ofReal_cos, ← ofReal_sin, Real.cos_neg, Real.sin_neg, ofReal_neg]
    ring
  · rw [if_pos rfl, if_pos rfl, mul_comm I, exp_mul_I, ← ofReal_cos, ← ofReal_sin]
    ring

theorem hadamard_mul_pauliZ_mul : hadamard * pauliZ * hadamard = pauliX := by
  have hhalf := inv_sqrt_two_mul_self
  ext i j
  cases i <;> cases j <;>
    simp [hadamard, pauliZ, pauliX, Matrix.mul_apply, hhalf] <;> norm_num

theorem rotX_mul_pauliZ_mul :
    rotX (Real.pi / 2) * pauliZ * rotX (-(Real.pi / 2)) = -pauliY := by
  have hsq : (√2 : ℂ) ^ 2 = 2 := by
    rw [← ofReal_pow, Real.sq_sqrt zero_le_two, ofReal_ofNat]
  have hangle : Real.pi / 2 / 2 = Real.pi / 4 := by ring
  have hangle' : -(Real.pi / 2) / 2 = -(Real.pi / 4) := by ring
  ext i j
  cases i <;> cases j <;>
    simp [rotX, pauliZ, pauliY, Matrix.mul_apply, hangle, hangle'] <;> ring_nf <;>
    simp only [hsq, I_sq] <;> ring

theorem rotX_mul_rotX (θ θ' : ℝ) : rotX θ * rotX θ' = rotX (θ + θ') := by
  ext i j
  cases i <;> cases j <;>
    simp [rotX, Matrix.mul_apply, add_div, cos_add, sin_add] <;> ring_nf <;>
    simp only [I_sq] <;> ring

theorem rotX_neg_pi : rotX (-Real.pi) = I • pauliX := by
  have hangle : -Real.pi / 2 = -(Real.pi / 2) := neg_div ..
  ext i j
  cases i <;> cases j <;> simp [rotX, pauliX, hangle]

/-! ## Parities -/

/-- The Z matrices of a list of wires have the parity of the wires as their sign. -/
theorem string_pauliZ_apply (l : List ι) (ψ : Amplitudes ι ℂ) (x : ι → Bool) :
    string (fun _ ↦ pauliZ) l ψ x = (-1) ^ l.countP x * ψ x := by
  induction l with
  | nil => simp
  | cons w l ih =>
    rw [string_cons, Module.End.mul_apply, pauliZ, onWire_diagonal_apply, ← pauliZ, ih,
      List.countP_cons]
    cases x w
    · simp
    · simp [pow_succ]

/-- **What commutes with the Z matrices keeps the parity** of their wires: it has no amplitude
between basis states of different parities. -/
theorem countP_mod_two_of_commute {A : Op ι ℂ} (h : Commute (string (fun _ ↦ pauliZ) l) A)
    {x y : ι → Bool} (hxy : A (ket x) y ≠ 0) : l.countP y % 2 = l.countP x % 2 := by
  have hket : string (fun _ ↦ pauliZ) l (ket x) = (-1 : ℂ) ^ l.countP x • ket x := by
    ext z
    rw [string_pauliZ_apply, Pi.smul_apply, smul_eq_mul, ket_apply]
    split_ifs with hz
    · rw [hz]
    · rw [mul_zero, mul_zero]
  have hsigns : (-1 : ℂ) ^ l.countP y * A (ket x) y = (-1) ^ l.countP x * A (ket x) y := by
    rw [← string_pauliZ_apply, ← Module.End.mul_apply, h.eq, Module.End.mul_apply, hket, map_smul,
      Pi.smul_apply, smul_eq_mul]
  have hpow := mul_right_cancel₀ hxy hsigns
  rcases Nat.even_or_odd (l.countP y) with hy | hy <;>
    rcases Nat.even_or_odd (l.countP x) with hx | hx
  · rw [Nat.even_iff.mp hy, Nat.even_iff.mp hx]
  · rw [hy.neg_one_pow, hx.neg_one_pow] at hpow
    norm_num at hpow
  · rw [hy.neg_one_pow, hx.neg_one_pow] at hpow
    norm_num at hpow
  · rw [Nat.odd_iff.mp hy, Nat.odd_iff.mp hx]

/-! ## Controlled negations along a list of wires -/

/-- Each wire of a list but the first, with the wire before it. -/
def links : List ι → List (ι × ι)
  | c :: t :: l => (c, t) :: links (t :: l)
  | _ => []

def negation (c t : ι) : Op ι ℂ := flip ℂ t fun x ↦ x c

theorem negation_mul_pauliZ_mul {c t : ι} (h : c ≠ t) :
    negation c t * onWire t pauliZ * negation c t = onWire c pauliZ * onWire t pauliZ := by
  ext ψ x
  have hback : flipWhen t (fun x ↦ x c) (flipWhen t (fun x ↦ x c) x) = x :=
    flipWhen_flipWhen (fun x b ↦ Function.update_of_ne h b x) x
  simp only [Module.End.mul_apply, negation, flip_apply, pauliZ, onWire_diagonal_apply, hback]
  simp only [flipWhen, Function.update_self]
  cases x c <;> cases x t <;> simp

/-- A negation goes past the Z matrices of all wires but its target. -/
theorem commute_negation_string {c t : ι} (h : t ∉ l) :
    Commute (negation c t) (string (fun _ ↦ pauliZ) l) := by
  induction l with
  | nil => exact Commute.one_right _
  | cons w l ih =>
    obtain ⟨hw, hl⟩ := not_or.mp (List.mem_cons.not.mp h)
    rw [string_cons]
    exact (commute_onWire_diagonal_flip (Ne.symm hw) _ _).symm.mul_right (ih hl)

theorem negation_mul_self {c t : ι} (h : c ≠ t) : negation c t * negation c t = 1 :=
  flip_mul_self fun x b ↦ Function.update_of_ne h b x

/-- The negations of all links, the first link first. -/
def forward (l : List ι) : Op ι ℂ := compose (fun p ↦ negation p.1 p.2) (links l)

/-- The negations of all links, the last link first. -/
def backward (l : List ι) : Op ι ℂ := compose (fun p ↦ negation p.1 p.2) (links l).reverse

theorem forward_cons_cons (c t : ι) (l : List ι) :
    forward (c :: t :: l) = forward (t :: l) * negation c t := rfl

theorem backward_cons_cons (c t : ι) (l : List ι) :
    backward (c :: t :: l) = negation c t * backward (t :: l) := by
  rw [backward, links, List.reverse_cons, compose_append, compose_cons, compose_nil, one_mul,
    backward]

theorem backward_mul_forward {l : List ι} (hl : l.Nodup) : backward l * forward l = 1 := by
  induction l with
  | nil => exact one_mul 1
  | cons c l ih =>
    obtain ⟨hc, hl⟩ := List.nodup_cons.mp hl
    cases l with
    | nil => exact one_mul 1
    | cons t l =>
      rw [forward_cons_cons, backward_cons_cons, mul_assoc, ← mul_assoc (backward _), ih hl,
        one_mul, negation_mul_self (List.ne_of_not_mem_cons hc)]

/-- **The Z matrix of the last wire** is that of all wires before the negations. -/
theorem backward_mul_pauliZ_mul_forward {l : List ι} (hl : l.Nodup) (hne : l ≠ []) :
    backward l * onWire (l.getLast hne) pauliZ * forward l = string (fun _ ↦ pauliZ) l := by
  induction l with
  | nil => contradiction
  | cons c l ih =>
    obtain ⟨hc, hl⟩ := List.nodup_cons.mp hl
    cases l with
    | nil => simp [backward, forward, links]
    | cons t l =>
      obtain ⟨ht, -⟩ := List.nodup_cons.mp hl
      have hct := List.ne_of_not_mem_cons hc
      have hcomm := (commute_negation_string (c := c) ht).eq
      have hlast := ih hl (List.cons_ne_nil t l)
      calc backward (c :: t :: l) * onWire ((c :: t :: l).getLast hne) pauliZ *
              forward (c :: t :: l)
          = negation c t * (backward (t :: l) *
              onWire ((t :: l).getLast (List.cons_ne_nil t l)) pauliZ * forward (t :: l)) *
              negation c t := by
            rw [forward_cons_cons, backward_cons_cons, List.getLast_cons (List.cons_ne_nil t l)]
            simp only [mul_assoc]
        _ = negation c t * onWire t pauliZ * negation c t * string (fun _ ↦ pauliZ) l := by
            rw [hlast, string_cons]
            simp only [mul_assoc, hcomm]
        _ = string (fun _ ↦ pauliZ) (c :: t :: l) := by
            rw [negation_mul_pauliZ_mul hct, string_cons, string_cons, mul_assoc]

/-- **The rotation of the last wire between the negations** is one about all wires. -/
theorem backward_mul_rotZ_mul_forward {l : List ι} (hl : l.Nodup) (hne : l ≠ []) (θ : ℝ) :
    backward l * onWire (l.getLast hne) (rotZ θ) * forward l =
      rotation (string (fun _ ↦ pauliZ) l) (θ / 2) := by
  rw [onWire_rotZ_eq_rotation, mul_rotation_mul (backward_mul_forward hl),
    backward_mul_pauliZ_mul_forward hl hne]

end Quantum
