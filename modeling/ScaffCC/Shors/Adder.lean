import ScaffCC.Shors.Qft

/-!
# Adding a constant in Fourier space

The adder turns each qubit of the register by the bits of the constant up to its own position, under
up to two controls. The bits above a position would make whole turns, so that all together the
phases are a multiple of the number in the register.
-/

namespace ScaffCC.Shors

open Quantum
open Reversible (up down mem_up mem_down)

variable {ι : Type*}

/-! ## The source -/

/-- The rotation under as many controls as are in use. -/
def rotate (cWidth : ℕ) (ctrl0 ctrl1 target : ι) (angle : ℚ) : List (Gate ι) :=
  match cWidth with
  | 0 => [.Rz target angle]
  | 1 => cRz ctrl0 target angle
  | 2 => ccRz ctrl0 ctrl1 target angle
  | _ => []

def cADD (cWidth : ℕ) (ctrl0 ctrl1 : ι) (width a : ℕ) (b : ℕ → ι) : List (Gate ι) :=
  (down 0 width).flatMap fun bIndx ↦ (down 0 (bIndx + 1)).flatMap fun aIndx ↦
    if (a >>> aIndx) % 2 = 1 then
      rotate cWidth ctrl0 ctrl1 (b bIndx) (1 / 2 ^ (bIndx - aIndx))
    else []

def ciADD (cWidth : ℕ) (ctrl0 ctrl1 : ι) (width a : ℕ) (b : ℕ → ι) : List (Gate ι) :=
  (up 0 width).flatMap fun bIndx ↦ (up 0 (bIndx + 1)).flatMap fun aIndx ↦
    if (a >>> aIndx) % 2 = 1 then
      rotate cWidth ctrl0 ctrl1 (b bIndx) (-1 / 2 ^ (bIndx - aIndx))
    else []

/-! ## Controls -/

def controls (cWidth : ℕ) (ctrl0 ctrl1 : ι) : List ι := [ctrl0, ctrl1].take cWidth

/-- All controls in use are set. -/
def allSet (cWidth : ℕ) (ctrl0 ctrl1 : ι) (x : ι → Bool) : Bool :=
  (controls cWidth ctrl0 ctrl1).all x

/-- At most two controls, different from each other and from the qubits of the register. -/
structure Controlled (cWidth : ℕ) (ctrl0 ctrl1 : ι) (width : ℕ) (b : ℕ → ι) : Prop where
  le_two : cWidth ≤ 2
  nodup : (controls cWidth ctrl0 ctrl1).Nodup
  ne : ∀ c ∈ controls cWidth ctrl0 ctrl1, ∀ i < width, b i ≠ c

variable [DecidableEq ι] {cw : ℕ} {c₀ c₁ : ι} {n : ℕ} {b : ℕ → ι}

/-- The rotation is a phase for the controls and the target, up to a phase for all states. -/
theorem meaning_rotate (h : Controlled cw c₀ c₁ n b) {i : ℕ} (hi : i < n) (angle : ℚ) :
    meaning (rotate cw c₀ c₁ (b i) angle) = phases fun x ↦
      angle * ((allSet cw c₀ c₁ x).toNat * (x (b i)).toNat) - angle / 2 ^ (cw + 1) := by
  obtain ⟨hle, hnodup, hne⟩ := h
  interval_cases cw
  · rw [rotate, meaning_cons, meaning_nil, one_mul, operator_Rz]
    congr 1
    funext x
    simp [allSet, controls]
  · have hc : c₀ ≠ b i := (hne c₀ (by simp [controls]) i hi).symm
    rw [rotate, meaning_cRz hc]
    congr 1
    funext x
    simp only [allSet, controls, List.take_succ_cons, List.take_zero, List.all_cons, List.all_nil,
      Bool.and_true]
    norm_num
  · have hc : c₀ ≠ b i := (hne c₀ (by simp [controls]) i hi).symm
    have hd : c₁ ≠ b i := (hne c₁ (by simp [controls]) i hi).symm
    have hcd : c₀ ≠ c₁ := by simpa [controls] using hnodup
    rw [rotate, meaning_ccRz hcd hc hd]
    congr 1
    funext x
    simp only [allSet, controls, List.take_succ_cons, List.take_zero, List.all_cons, List.all_nil,
      Bool.and_true]
    cases x c₀ <;> cases x c₁ <;> norm_num

/-! ## The phases -/

omit [DecidableEq ι] in
private theorem sum_down (k : ℕ) (F : ℕ → ℚ) :
    ((down 0 k).map F).sum = ∑ j ∈ Finset.range k, F j := by
  rw [down, List.map_reverse, List.sum_reverse, sum_up (Nat.zero_le k), Nat.Ico_zero_eq_range]

theorem mod_two_pow_eq_sum (a k : ℕ) :
    a % 2 ^ k = ∑ j ∈ Finset.range k, (a.testBit j).toNat * 2 ^ j := by
  rw [← Reversible.value_testBit, value_eq_sum]

private theorem meaning_row (h : Controlled cw c₀ c₁ n b) {i : ℕ} (hi : i < n) (a : ℕ) :
    meaning ((down 0 (i + 1)).flatMap fun j ↦
        if (a >>> j) % 2 = 1 then rotate cw c₀ c₁ (b i) (1 / 2 ^ (i - j)) else []) =
      phases fun x ↦ (allSet cw c₀ c₁ x).toNat * (x (b i)).toNat * (a % 2 ^ (i + 1) : ℕ) / 2 ^ i -
        (a % 2 ^ (i + 1) : ℕ) / 2 ^ i / 2 ^ (cw + 1) := by
  have hbit : ∀ j ∈ down 0 (i + 1),
      meaning (if (a >>> j) % 2 = 1 then rotate cw c₀ c₁ (b i) (1 / 2 ^ (i - j)) else []) =
        phases fun x ↦ (a.testBit j).toNat *
          (1 / 2 ^ (i - j) * ((allSet cw c₀ c₁ x).toNat * (x (b i)).toNat) -
            1 / 2 ^ (i - j) / 2 ^ (cw + 1)) := by
    intro j _
    have htest : a.testBit j = decide ((a >>> j) % 2 = 1) := by
      rw [Nat.testBit_eq_decide_div_mod_eq, Nat.shiftRight_eq_div_pow]
    rw [htest]
    split_ifs with hj
    · rw [meaning_rotate h hi, decide_eq_true hj]
      simp
    · rw [meaning_nil, decide_eq_false hj]
      simp [phases_zero]
  rw [meaning_flatMap_phases hbit]
  congr 1
  funext x
  rw [sum_down, mod_two_pow_eq_sum]
  push_cast
  rw [Finset.mul_sum, Finset.sum_div, Finset.sum_div, Finset.sum_div, ← Finset.sum_sub_distrib]
  refine Finset.sum_congr rfl fun j hj ↦ ?_
  have hj' := Finset.mem_range.mp hj
  have hpow : (2 : ℚ) ^ i = 2 ^ (i - j) * 2 ^ j := by
    rw [← pow_add, Nat.sub_add_cancel (Nat.le_of_lt_succ hj')]
  rw [hpow]
  field_simp

/-- The turns of the qubits from the first one on. -/
private def addPhases (cw : ℕ) (c₀ c₁ : ι) (a : ℕ) (b : ℕ → ι) (m : ℕ) (x : ι → Bool) : ℚ :=
  ∑ i ∈ Finset.range m,
    ((allSet cw c₀ c₁ x).toNat * (x (b i)).toNat * (a % 2 ^ (i + 1) : ℕ) / 2 ^ i -
      (a % 2 ^ (i + 1) : ℕ) / 2 ^ i / 2 ^ (cw + 1))

private theorem meaning_cADD (h : Controlled cw c₀ c₁ n b) (a : ℕ) :
    meaning (cADD cw c₀ c₁ n a b) = phases (addPhases cw c₀ c₁ a b n) := by
  rw [cADD, meaning_flatMap_phases fun i hi ↦ meaning_row h (mem_down.mp hi).2 a]
  congr 1
  funext x
  rw [sum_down, addPhases]

/-- The phase that all states get. -/
private noncomputable def addPhase (cw a m : ℕ) : ℂ :=
  cis (-∑ i ∈ Finset.range m, ((a % 2 ^ (i + 1) : ℕ) : ℚ) / 2 ^ i / 2 ^ (cw + 1))

omit [DecidableEq ι] in
private theorem cis_addPhases (cw : ℕ) (c₀ c₁ : ι) (a : ℕ) (b : ℕ → ι) (m : ℕ) (x : ι → Bool) :
    cis (addPhases cw c₀ c₁ a b m x) = addPhase cw a m *
      cis (((allSet cw c₀ c₁ x).toNat * a : ℕ) *
        ∑ i ∈ Finset.range m, ((x (b i)).toNat : ℚ) / 2 ^ i) := by
  induction m with
  | zero => simp [addPhases, addPhase]
  | succ m ih =>
    have hdiv : (a : ℚ) = (a % 2 ^ (m + 1) : ℕ) + 2 ^ (m + 1) * (a / 2 ^ (m + 1) : ℕ) := by
      exact_mod_cast (Nat.mod_add_div a (2 ^ (m + 1))).symm
    -- the bits of the constant above the position make whole turns
    have hterm : (((allSet cw c₀ c₁ x).toNat * a : ℕ) * (((x (b m)).toNat : ℚ) / 2 ^ m) : ℚ) =
        (allSet cw c₀ c₁ x).toNat * (x (b m)).toNat * (a % 2 ^ (m + 1) : ℕ) / 2 ^ m +
          2 * ((allSet cw c₀ c₁ x).toNat * (x (b m)).toNat * (a / 2 ^ (m + 1)) : ℕ) := by
      push_cast
      rw [hdiv]
      field_simp
      ring
    rw [addPhase, Finset.sum_range_succ, neg_add, cis_add, ← addPhase, Finset.sum_range_succ,
      mul_add, cis_add, hterm, cis_add_two_mul_natCast, addPhases, Finset.sum_range_succ,
      ← addPhases, cis_add, ih, sub_eq_add_neg, cis_add]
    ring

omit [DecidableEq ι] in
private theorem two_mul_number_div (n : ℕ) (b : ℕ → ι) (x : ι → Bool) :
    ∑ i ∈ Finset.range n, ((x (b i)).toNat : ℚ) / 2 ^ i =
      2 * (number (lowFirst n b) n x / 2 ^ n) := by
  rw [number_lowFirst, highFirst]
  push_cast
  rw [Finset.sum_div, Finset.mul_sum]
  refine Finset.sum_congr rfl fun i hi ↦ ?_
  have hi' := Finset.mem_range.mp hi
  have hpow : (2 : ℚ) ^ n = 2 ^ (n - 1 - i) * 2 ^ i * 2 := by
    rw [← pow_add, ← pow_succ]
    congr 1
    omega
  rw [hpow]
  field_simp

/-! ## Addition -/

/-- The sum in the register when all controls in use are set. -/
def addWhen (cw : ℕ) (c₀ c₁ : ι) (n a : ℕ) (b : ℕ → ι) (x : ι → Bool) : ι → Bool :=
  if allSet cw c₀ c₁ x then putHighFirst n b ((highFirst n b x + a) % 2 ^ n) x else x

theorem allSet_place (h : Controlled cw c₀ c₁ n b) (v : ℕ) (x : ι → Bool) :
    allSet cw c₀ c₁ (putHighFirst n b v x) = allSet cw c₀ c₁ x := by
  rw [allSet, allSet, Bool.eq_iff_iff, List.all_eq_true, List.all_eq_true]
  refine forall₂_congr fun c hc ↦ ?_
  have hne : ∀ s < n, lowFirst n b s ≠ c := fun s hs ↦ h.ne c hc (n - 1 - s) (by omega)
  rw [putHighFirst, place_of_ne hne]

/-- **The adder adds in Fourier space.** -/
theorem maps_cADD (hb : Set.InjOn b (Set.Iio n)) (h : Controlled cw c₀ c₁ n b) (a : ℕ) :
    Maps (meaning (cADD cw c₀ c₁ n a b)) (fourierState (lowFirst n b) n) (addWhen cw c₀ c₁ n a b)
      (fourierState (lowFirst n b) n) := by
  have hr := lowFirst_injOn hb
  refine ⟨addPhase cw a n, norm_cis _, fun x ↦ ?_⟩
  have hφ : ∀ x, cis (addPhases cw c₀ c₁ a b n x) = addPhase cw a n *
      cis (2 * (((allSet cw c₀ c₁ x).toNat * a : ℕ) * number (lowFirst n b) n x / 2 ^ n)) := by
    intro x
    rw [cis_addPhases, two_mul_number_div]
    congr 2
    ring
  rw [meaning_cADD h, phases_fourier hr hφ fun v x ↦ by
    rw [← putHighFirst, allSet_place h]]
  congr 2
  rw [addWhen, putHighFirst, place_mod hr, ← number_lowFirst]
  cases allSet cw c₀ c₁ x
  · simp [place_number hr]
  · simp

/-! ## The inverse -/

private theorem rotate_cancel (h : Controlled cw c₀ c₁ n b) {i : ℕ} (hi : i < n)
    {angle angle' : ℚ} (hsum : angle + angle' = 0) :
    meaning (rotate cw c₀ c₁ (b i) angle) * meaning (rotate cw c₀ c₁ (b i) angle') = 1 := by
  obtain rfl := eq_neg_of_add_eq_zero_left hsum
  rw [meaning_rotate h hi, meaning_rotate h hi, phases_mul, ← phases_zero]
  refine congrArg _ (funext fun x ↦ ?_)
  ring

private theorem bit_cancel (h : Controlled cw c₀ c₁ n b) {i : ℕ} (hi : i < n) {a j : ℕ}
    {angle angle' : ℚ} (hsum : angle + angle' = 0) :
    meaning (if (a >>> j) % 2 = 1 then rotate cw c₀ c₁ (b i) angle else []) *
      meaning (if (a >>> j) % 2 = 1 then rotate cw c₀ c₁ (b i) angle' else []) = 1 := by
  split_ifs
  · exact rotate_cancel h hi hsum
  · exact one_mul 1

/-- **The adder is undone exactly.** -/
theorem meaning_ciADD_mul_cADD (h : Controlled cw c₀ c₁ n b) (a : ℕ) :
    meaning (ciADD cw c₀ c₁ n a b) * meaning (cADD cw c₀ c₁ n a b) = 1 := by
  have hrows := meaning_reverse_mul (down 0 n)
    (fun i ↦ (down 0 (i + 1)).flatMap fun j ↦
      if (a >>> j) % 2 = 1 then rotate cw c₀ c₁ (b i) (1 / 2 ^ (i - j)) else [])
    (fun i ↦ (up 0 (i + 1)).flatMap fun j ↦
      if (a >>> j) % 2 = 1 then rotate cw c₀ c₁ (b i) (-1 / 2 ^ (i - j)) else [])
    fun i hi ↦ by
      have hbits := meaning_reverse_mul (down 0 (i + 1))
        (fun j ↦
          if (a >>> j) % 2 = 1 then rotate cw c₀ c₁ (b i) (1 / 2 ^ (i - j)) else [])
        (fun j ↦
          if (a >>> j) % 2 = 1 then rotate cw c₀ c₁ (b i) (-1 / 2 ^ (i - j)) else [])
        fun j _ ↦ bit_cancel h (mem_down.mp hi).2 (by ring)
      rwa [down, List.reverse_reverse, ← down] at hbits
  rwa [down, List.reverse_reverse, ← down] at hrows

theorem meaning_cADD_mul_ciADD (h : Controlled cw c₀ c₁ n b) (a : ℕ) :
    meaning (cADD cw c₀ c₁ n a b) * meaning (ciADD cw c₀ c₁ n a b) = 1 :=
  meaning_reverse_mul (up 0 n) _ _ fun i hi ↦
    meaning_reverse_mul (up 0 (i + 1)) _ _ fun j _ ↦
      bit_cancel h (mem_up.mp hi).2 (by ring)

/-- **The Fourier-space adder**, between the transform and its inverse, up to one phase for all
numbers and controls. -/
theorem adder (hb : Set.InjOn b (Set.Iio n)) (h : Controlled cw c₀ c₁ n b) (a : ℕ) :
    (∃ g : ℂ, ‖g‖ = 1 ∧ ∀ x,
      meaning (QFT n b ++ cADD cw c₀ c₁ n a b ++ iQFT n b) (ket x) = g • ket
        (if allSet cw c₀ c₁ x then putHighFirst n b ((highFirst n b x + a) % 2 ^ n) x else x)) ∧
      meaning (ciADD cw c₀ c₁ n a b) * meaning (cADD cw c₀ c₁ n a b) = 1 := by
  refine ⟨?_, meaning_ciADD_mul_cADD h a⟩
  have hmaps := ((maps_QFT hb).comp (maps_cADD hb h a)).comp (maps_iQFT hb)
  rw [meaning_append, meaning_append, ← mul_assoc]
  rwa [← mul_assoc] at hmaps

theorem adder_two_controls :
    (∃ g : ℂ, ‖g‖ = 1 ∧ ∀ x : ℕ → Bool,
      meaning (QFT 5 id ++ cADD 2 5 6 5 13 id ++ iQFT 5 id) (ket x) = g • ket
        (if allSet 2 5 6 x then putHighFirst 5 id ((highFirst 5 id x + 13) % 2 ^ 5) x else x)) ∧
      meaning (ciADD 2 5 6 5 13 (id : ℕ → ℕ)) * meaning (cADD 2 5 6 5 13 id) = 1 :=
  adder (Set.injOn_id _) ⟨le_rfl, by decide, by decide⟩ 13

end ScaffCC.Shors
