import ScaffCC.Quantum.Fourier
import ScaffCC.Shors.Circuit

/-!
# The quantum Fourier transform

The transform of the library works on the qubits from the first one on, that has the highest bit of
the number, and reverses the register in the end. The inverse transform undoes the steps in the
opposite order.

The circuit without the reversal is the ladder of the wires from the lowest bit on.
-/

namespace ScaffCC.Shors

open Quantum
open Reversible (up down mem_up up_succ_right up_self)

variable {ι : Type*}

/-! ## The source -/

/-- The register is reversed: `i` goes up and `j` goes down while `i` is below half the width. -/
def endian (width : ℕ) (qbits : ℕ → ι) : List (Gate ι) :=
  (up 0 (width / 2)).flatMap fun i ↦ SWAP (qbits i) (qbits (width - 1 - i))

def QFT (width : ℕ) (qbits : ℕ → ι) : List (Gate ι) :=
  (up 0 width).flatMap (fun t ↦
    .H (qbits t) :: (up (t + 1) width).flatMap fun c ↦
      cRz (qbits c) (qbits t) (1 / 2 ^ (c - t))) ++
  endian width qbits

def iQFT (width : ℕ) (qbits : ℕ → ι) : List (Gate ι) :=
  endian width qbits ++
  (down 0 width).flatMap fun t ↦
    ((down (t + 1) width).flatMap fun c ↦ cRz (qbits c) (qbits t) (-1 / 2 ^ (c - t))) ++
      [.H (qbits t)]

/-! ## Numbers -/

/-- The qubits from the lowest bit on. -/
def lowFirst (width : ℕ) (qbits : ℕ → ι) (s : ℕ) : ι := qbits (width - 1 - s)

theorem lowFirst_injOn {n : ℕ} {q : ℕ → ι} (hq : Set.InjOn q (Set.Iio n)) :
    Set.InjOn (lowFirst n q) (Set.Iio n) := by
  intro s hs t ht h
  have hs' : s < n := hs
  have ht' : t < n := ht
  have heq : n - 1 - s = n - 1 - t :=
    hq (show n - 1 - s < n by omega) (show n - 1 - t < n by omega) h
  omega

variable [DecidableEq ι]

/-! ## The reversal -/

theorem meaning_SWAP {a b : ι} (h : a ≠ b) :
    meaning (SWAP a b) = reindex ℂ fun x ↦ x ∘ Equiv.swap a b := by
  ext ψ x
  simp only [SWAP, meaning_cons, meaning_nil, one_mul, Gate.operator, Module.End.mul_apply,
    flip_apply, reindex_apply, comp_swap_eq_update]
  congr 1
  funext i
  by_cases ha : i = a
  · subst ha
    cases hxi : x i <;> cases hxb : x b <;> simp [flipWhen, h, h.symm, hxi, hxb]
  · by_cases hb : i = b
    · subst hb
      cases hxa : x a <;> cases hxi : x i <;> simp [flipWhen, h, h.symm, hxa, hxi]
    · simp [flipWhen, ha, hb]

/-- The basis state that is read at the reversed register. -/
private def mirror (n : ℕ) (q : ℕ → ι) (m : ℕ) (x : ι → Bool) : ι → Bool :=
  (up 0 m).foldr (fun i x ↦ x ∘ Equiv.swap (q i) (q (n - 1 - i))) x

private theorem meaning_endian_eq {n : ℕ} {q : ℕ → ι} (hq : Set.InjOn q (Set.Iio n)) {m : ℕ}
    (hm : m ≤ n / 2) :
    meaning ((up 0 m).flatMap fun i ↦ SWAP (q i) (q (n - 1 - i))) = reindex ℂ (mirror n q m) := by
  induction m with
  | zero => exact reindex_id.symm
  | succ m ih =>
    have hne : q m ≠ q (n - 1 - m) := fun h ↦ by
      have heq : m = n - 1 - m := hq (show m < n by omega) (show n - 1 - m < n by omega) h
      omega
    rw [up_succ_right (Nat.zero_le m), List.flatMap_append, List.flatMap_singleton, meaning_append,
      ih (by omega), meaning_SWAP hne, reindex_mul]
    congr 1
    funext x
    rw [mirror, up_succ_right (Nat.zero_le m), List.foldr_append]
    rfl

private theorem mirror_wire {n : ℕ} {q : ℕ → ι} (hq : Set.InjOn q (Set.Iio n)) {m : ℕ}
    (hm : m ≤ n / 2) (x : ι → Bool) {i : ℕ} (hi : i < n) :
    mirror n q m x (q i) = if i < m ∨ n - 1 - i < m then x (q (n - 1 - i)) else x (q i) := by
  induction m generalizing x with
  | zero => rfl
  | succ m ih =>
    have hfold : mirror n q (m + 1) x =
        mirror n q m (x ∘ Equiv.swap (q m) (q (n - 1 - m))) := by
      rw [mirror, up_succ_right (Nat.zero_le m), List.foldr_append]
      rfl
    have hwire : ∀ j < n, ∀ k < n, q j = q k ↔ j = k := fun j hj k hk ↦ hq.eq_iff hj hk
    have hswap : ∀ j < n, Equiv.swap (q m) (q (n - 1 - m)) (q j) =
        if j = m ∨ j = n - 1 - m then q (n - 1 - j) else q j := by
      intro j hj
      rw [Equiv.swap_apply_def]
      simp only [hwire j hj m (by omega), hwire j hj (n - 1 - m) (by omega)]
      split_ifs with h₁ h₂ h₃ h₄ h₅
      · rw [h₁]
      · exact absurd (Or.inl h₁) h₂
      · rw [h₃, show n - 1 - (n - 1 - m) = m by omega]
      · exact absurd (Or.inr h₃) h₄
      · exact (h₅.elim h₁ h₃).elim
      · rfl
    rw [hfold, ih (by omega)]
    simp only [Function.comp_apply]
    rw [hswap i hi, hswap (n - 1 - i) (by omega)]
    split_ifs <;> first | rfl | (congr 2; omega)

private theorem mirror_of_ne {n : ℕ} {q : ℕ → ι} {m : ℕ} (hm : m ≤ n / 2) {i : ι}
    (hi : ∀ j < n, q j ≠ i) (x : ι → Bool) : mirror n q m x i = x i := by
  induction m generalizing x with
  | zero => rfl
  | succ m ih =>
    rw [mirror, up_succ_right (Nat.zero_le m), List.foldr_append]
    refine (ih (by omega) _).trans (congrArg x ?_)
    exact Equiv.swap_apply_of_ne_of_ne (hi m (by omega)).symm (hi (n - 1 - m) (by omega)).symm

private theorem mirror_half {n : ℕ} {q : ℕ → ι} (hq : Set.InjOn q (Set.Iio n)) (x : ι → Bool)
    {i : ℕ} (hi : i < n) : mirror n q (n / 2) x (q i) = x (q (n - 1 - i)) := by
  rw [mirror_wire hq le_rfl x hi]
  split_ifs with h
  · rfl
  · rw [show n - 1 - i = i by omega]

private theorem mirror_mirror {n : ℕ} {q : ℕ → ι} (hq : Set.InjOn q (Set.Iio n)) (x : ι → Bool) :
    mirror n q (n / 2) (mirror n q (n / 2) x) = x := by
  funext i
  by_cases hi : ∃ j < n, q j = i
  · obtain ⟨j, hj, rfl⟩ := hi
    rw [mirror_half hq _ hj, mirror_half hq x (by omega), show n - 1 - (n - 1 - j) = j by omega]
  · have hne : ∀ j < n, q j ≠ i := fun j hj h ↦ hi ⟨j, hj, h⟩
    rw [mirror_of_ne le_rfl hne, mirror_of_ne le_rfl hne]

theorem meaning_endian_mul_self {n : ℕ} {q : ℕ → ι} (hq : Set.InjOn q (Set.Iio n)) :
    meaning (endian n q) * meaning (endian n q) = 1 := by
  rw [endian, meaning_endian_eq hq le_rfl, reindex_mul, ← reindex_id]
  exact congrArg _ (funext (mirror_mirror hq))

theorem meaning_endian_place {n : ℕ} {q : ℕ → ι} (hq : Set.InjOn q (Set.Iio n)) (y : ℕ)
    (x : ι → Bool) :
    meaning (endian n q) (ket (place (lowFirst n q) n y x)) =
      ket (place (lowFirst n q) n (revBits n y) x) := by
  have hr := lowFirst_injOn hq
  rw [endian, meaning_endian_eq hq le_rfl, reindex_ket (mirror_mirror hq) (mirror_mirror hq)]
  refine congrArg _ (eq_place hr (fun s hs ↦ ?_) fun i hi ↦ ?_)
  · have hwire : q (n - 1 - (n - 1 - s)) = lowFirst n q (n - 1 - s) := rfl
    rw [lowFirst, mirror_half hq _ (by omega), hwire, place_wire hr (by omega), revBits,
      Reversible.testBit_value hs]
  · have hne : ∀ j < n, q j ≠ i := fun j hj h ↦
      hi (n - 1 - j) (by omega) (by rw [lowFirst, show n - 1 - (n - 1 - j) = j by omega, h])
    rw [mirror_of_ne le_rfl hne, place_of_ne hi]

/-! ## The steps -/

theorem sum_up {a b : ℕ} (h : a ≤ b) (F : ℕ → ℚ) :
    ((up a b).map F).sum = ∑ c ∈ Finset.Ico a b, F c := by
  induction b, h using Nat.le_induction with
  | base => rw [up_self, Finset.Ico_self, Finset.sum_empty, List.map_nil, List.sum_nil]
  | succ b hab ih =>
    rw [up_succ_right hab, List.map_append, List.sum_append, ih, Finset.sum_Ico_succ_top hab,
      List.map_singleton, List.sum_singleton]

private theorem sum_up_last {n m : ℕ} (hm : m < n) (F : ℕ → ℚ) :
    ((up (n - 1 - m + 1) n).map F).sum = ∑ s ∈ Finset.range m, F (n - 1 - s) := by
  rw [sum_up (by omega), Finset.sum_Ico_eq_sum_range, ← Finset.sum_range_reflect,
    show n - (n - 1 - m + 1) = m by omega]
  refine Finset.sum_congr rfl fun s hs ↦ congrArg F ?_
  have hs' := Finset.mem_range.mp hs
  omega

/-- The phases that a wire gets from the wires below it. -/
private def stepPhases (n : ℕ) (q : ℕ → ι) (m : ℕ) (x : ι → Bool) : ℚ :=
  ((up (n - 1 - m + 1) n).map fun c ↦
    1 / 2 ^ (c - (n - 1 - m)) * (((x (q c)).toNat : ℚ) * (x (q (n - 1 - m))).toNat) -
      1 / 2 ^ (c - (n - 1 - m)) / 4).sum

private noncomputable def stepPhase (m : ℕ) : ℂ :=
  cis (-∑ s ∈ Finset.range m, 1 / 2 ^ (m - s) / 4)

omit [DecidableEq ι] in
private theorem isLadder_stepPhases (n : ℕ) (q : ℕ → ι) :
    IsLadder (lowFirst n q) (stepPhases n q) stepPhase n := by
  intro m hm x
  have hsum : stepPhases n q m x = -(∑ s ∈ Finset.range m, 1 / 2 ^ (m - s) / 4) +
      (x (lowFirst n q m)).toNat * number (lowFirst n q) m x / 2 ^ m := by
    rw [stepPhases, sum_up_last hm, number_eq_sum, Finset.sum_sub_distrib, neg_add_eq_sub]
    push_cast
    rw [Finset.mul_sum, Finset.sum_div]
    refine congrArg₂ _ (Finset.sum_congr rfl fun s hs ↦ ?_) (Finset.sum_congr rfl fun s hs ↦ ?_)
    · have hs' := Finset.mem_range.mp hs
      have hpow : (2 : ℚ) ^ m = 2 ^ (m - s) * 2 ^ s := by
        rw [← pow_add, Nat.sub_add_cancel hs'.le]
      rw [show n - 1 - s - (n - 1 - m) = m - s by omega, hpow, lowFirst, lowFirst]
      field_simp
    · have hs' := Finset.mem_range.mp hs
      rw [show n - 1 - s - (n - 1 - m) = m - s by omega]
  rw [hsum, cis_add, stepPhase]

private theorem meaning_step {n : ℕ} {q : ℕ → ι} (hq : Set.InjOn q (Set.Iio n)) (m : ℕ) :
    meaning (.H (q (n - 1 - m)) :: (up (n - 1 - m + 1) n).flatMap fun c ↦
        cRz (q c) (q (n - 1 - m)) (1 / 2 ^ (c - (n - 1 - m)))) =
      phases (stepPhases n q m) * onWire (lowFirst n q m) hadamard := by
  have hphases : ∀ c ∈ up (n - 1 - m + 1) n,
      meaning (cRz (q c) (q (n - 1 - m)) (1 / 2 ^ (c - (n - 1 - m)))) = phases fun x ↦
        1 / 2 ^ (c - (n - 1 - m)) * ((x (q c)).toNat * (x (q (n - 1 - m))).toNat) -
          1 / 2 ^ (c - (n - 1 - m)) / 4 := by
    intro c hc
    obtain ⟨hlow, hhigh⟩ := mem_up.mp hc
    have hne : q c ≠ q (n - 1 - m) := fun h ↦ by
      have heq : c = n - 1 - m := hq hhigh (show n - 1 - m < n by omega) h
      omega
    exact meaning_cRz hne _
  rw [meaning_cons, meaning_flatMap_phases hphases]
  rfl

private theorem meaning_steps {n : ℕ} {q : ℕ → ι} (hq : Set.InjOn q (Set.Iio n)) {m : ℕ}
    (hm : m ≤ n) :
    meaning ((up (n - m) n).flatMap fun t ↦
        .H (q t) :: (up (t + 1) n).flatMap fun c ↦ cRz (q c) (q t) (1 / 2 ^ (c - t))) =
      ladder (lowFirst n q) (stepPhases n q) m := by
  induction m with
  | zero =>
    rw [Nat.sub_zero, up_self]
    rfl
  | succ m ih =>
    have hup : up (n - (m + 1)) n = (n - 1 - m) :: up (n - m) n := by
      rw [up, up, show n - (n - (m + 1)) = m + 1 by omega, show n - (n - m) = m by omega,
        List.range'_succ, show n - (m + 1) = n - 1 - m by omega,
        show n - 1 - m + 1 = n - m by omega]
    rw [hup, List.flatMap_cons, meaning_append, ih (by omega), meaning_step hq, ladder]

/-! ## The inverse -/

private def step (n : ℕ) (q : ℕ → ι) (t : ℕ) : List (Gate ι) :=
  .H (q t) :: (up (t + 1) n).flatMap fun c ↦ cRz (q c) (q t) (1 / 2 ^ (c - t))

private def stepBack (n : ℕ) (q : ℕ → ι) (t : ℕ) : List (Gate ι) :=
  ((down (t + 1) n).flatMap fun c ↦ cRz (q c) (q t) (-1 / 2 ^ (c - t))) ++ [.H (q t)]

private theorem operator_H_mul_self (q : ι) :
    (Gate.H q).operator * (Gate.H q).operator = 1 := by
  rw [Gate.operator, onWire_mul, hadamard_mul_self, onWire_one]

omit [DecidableEq ι] in
private theorem cRz_ne {n : ℕ} {q : ℕ → ι} (hq : Set.InjOn q (Set.Iio n)) {t c : ℕ}
    (hc : c ∈ up (t + 1) n) : q c ≠ q t := by
  obtain ⟨hlow, hhigh⟩ := mem_up.mp hc
  intro h
  have heq : c = t := hq hhigh (show t < n by omega) h
  omega

private theorem phases_cancel {c t : ι} (h : c ≠ t) {angle angle' : ℚ} (hsum : angle + angle' = 0) :
    meaning (cRz c t angle) * meaning (cRz c t angle') = 1 := by
  obtain rfl := eq_neg_of_add_eq_zero_left hsum
  rw [meaning_cRz h, meaning_cRz h, phases_mul, ← phases_zero]
  refine congrArg _ (funext fun x ↦ ?_)
  ring

private theorem stepBack_mul_step {n : ℕ} {q : ℕ → ι} (hq : Set.InjOn q (Set.Iio n)) (t : ℕ) :
    meaning (stepBack n q t) * meaning (step n q t) = 1 := by
  have hphases := meaning_reverse_mul (up (t + 1) n) (fun c ↦ cRz (q c) (q t) (1 / 2 ^ (c - t)))
    (fun c ↦ cRz (q c) (q t) (-1 / 2 ^ (c - t)))
    fun c hc ↦ phases_cancel (cRz_ne hq hc) (by ring)
  rw [stepBack, step, meaning_append, meaning_cons, meaning_nil, one_mul, meaning_cons, down,
    mul_assoc, ← mul_assoc _ _ (Gate.operator _), hphases, one_mul, operator_H_mul_self]

private theorem step_mul_stepBack {n : ℕ} {q : ℕ → ι} (hq : Set.InjOn q (Set.Iio n)) (t : ℕ) :
    meaning (step n q t) * meaning (stepBack n q t) = 1 := by
  have hphases := meaning_reverse_mul (down (t + 1) n) (fun c ↦ cRz (q c) (q t) (-1 / 2 ^ (c - t)))
    (fun c ↦ cRz (q c) (q t) (1 / 2 ^ (c - t)))
    fun c hc ↦ phases_cancel (cRz_ne hq (List.mem_reverse.mp hc)) (by ring)
  rw [down, List.reverse_reverse, ← down] at hphases
  rw [stepBack, step, meaning_append, meaning_cons, meaning_cons, meaning_nil, one_mul, mul_assoc,
    ← mul_assoc (Gate.operator _), operator_H_mul_self, one_mul, hphases]

/-- **The inverse transform undoes the transform.** -/
theorem meaning_iQFT_mul_QFT {n : ℕ} {q : ℕ → ι} (hq : Set.InjOn q (Set.Iio n)) :
    meaning (iQFT n q) * meaning (QFT n q) = 1 := by
  have hsteps := meaning_reverse_mul (up 0 n) (step n q) (stepBack n q)
    fun t _ ↦ stepBack_mul_step hq t
  change meaning (endian n q ++ (up 0 n).reverse.flatMap (stepBack n q)) *
    meaning ((up 0 n).flatMap (step n q) ++ endian n q) = 1
  rw [meaning_append, meaning_append, mul_assoc, ← mul_assoc (meaning (endian n q)),
    meaning_endian_mul_self hq, one_mul, hsteps]

theorem meaning_QFT_mul_iQFT {n : ℕ} {q : ℕ → ι} (hq : Set.InjOn q (Set.Iio n)) :
    meaning (QFT n q) * meaning (iQFT n q) = 1 := by
  have hsteps := meaning_reverse_mul (down 0 n) (stepBack n q) (step n q)
    fun t _ ↦ step_mul_stepBack hq t
  rw [down, List.reverse_reverse] at hsteps
  change meaning ((up 0 n).flatMap (step n q) ++ endian n q) *
    meaning (endian n q ++ (up 0 n).reverse.flatMap (stepBack n q)) = 1
  rw [meaning_append, meaning_append, mul_assoc, ← mul_assoc (meaning ((up 0 n).flatMap _)),
    hsteps, one_mul, meaning_endian_mul_self hq]

/-! ## The transform -/

theorem maps_QFT {n : ℕ} {q : ℕ → ι} (hq : Set.InjOn q (Set.Iio n)) :
    Maps (meaning (QFT n q)) ket id (fourierState (lowFirst n q) n) := by
  have hsteps := meaning_steps hq (m := n) le_rfl
  rw [Nat.sub_self] at hsteps
  rw [QFT, meaning_append, hsteps]
  exact maps_fourier (lowFirst_injOn hq) (isLadder_stepPhases n q) (fun _ _ ↦ norm_cis _)
    (meaning_endian_place hq)

theorem maps_iQFT {n : ℕ} {q : ℕ → ι} (hq : Set.InjOn q (Set.Iio n)) :
    Maps (meaning (iQFT n q)) (fourierState (lowFirst n q) n) id ket :=
  (maps_QFT hq).of_leftInverse (meaning_iQFT_mul_QFT hq) fun _ ↦ rfl

/-- The number in the qubits, the first of which has the highest bit. -/
def highFirst (n : ℕ) (q : ℕ → ι) (x : ι → Bool) : ℕ :=
  ∑ i ∈ Finset.range n, (x (q i)).toNat * 2 ^ (n - 1 - i)

omit [DecidableEq ι] in
theorem number_lowFirst (n : ℕ) (q : ℕ → ι) (x : ι → Bool) :
    number (lowFirst n q) n x = highFirst n q x := by
  rw [number_eq_sum, highFirst, ← Finset.sum_range_reflect]
  refine Finset.sum_congr rfl fun s hs ↦ ?_
  have hs' := Finset.mem_range.mp hs
  rw [lowFirst, show n - 1 - (n - 1 - s) = s by omega]

/-- The basis state with a number in the qubits, the first of which has the highest bit. -/
def putHighFirst (n : ℕ) (q : ℕ → ι) (k : ℕ) (x : ι → Bool) : ι → Bool :=
  place (lowFirst n q) n k x

private theorem inv_sqrt_two_pow (n : ℕ) :
    invSqrtTwo ^ n = (((2 : ℝ) ^ (-(n : ℝ) / 2) : ℝ) : ℂ) := by
  have hreal : ((√2 : ℝ)⁻¹) ^ n = (2 : ℝ) ^ (-(n : ℝ) / 2) := by
    rw [Real.sqrt_eq_rpow, ← Real.rpow_neg zero_le_two, ← Real.rpow_mul_natCast zero_le_two]
    congr 1
    ring
  rw [← hreal, invSqrtTwo]
  push_cast
  rfl

private theorem cis_eq_exp (j k n : ℕ) : cis (2 * (j * k / 2 ^ n)) =
    Complex.exp (2 * Real.pi * Complex.I * j * k / 2 ^ n) := by
  rw [cis]
  congr 1
  push_cast
  ring

/-- **The quantum Fourier transform**, up to one phase, and its inverse. -/
theorem qft_iqft {n : ℕ} {q : ℕ → ι} (hq : Set.InjOn q (Set.Iio n)) :
    (∃ g : ℂ, ‖g‖ = 1 ∧ ∀ x, meaning (QFT n q) (ket x) =
      g • (((2 : ℝ) ^ (-(n : ℝ) / 2) : ℝ) : ℂ) • ∑ k ∈ Finset.range (2 ^ n),
        Complex.exp (2 * Real.pi * Complex.I * highFirst n q x * k / 2 ^ n) •
          ket (putHighFirst n q k x)) ∧
      meaning (iQFT n q) * meaning (QFT n q) = 1 := by
  refine ⟨?_, meaning_iQFT_mul_QFT hq⟩
  obtain ⟨g, hg, hmap⟩ := maps_QFT hq
  refine ⟨g, hg, fun x ↦ ?_⟩
  rw [hmap, id, fourierState, number_lowFirst, inv_sqrt_two_pow]
  simp only [cis_eq_exp, putHighFirst]

theorem qft_iqft_three :
    (∃ g : ℂ, ‖g‖ = 1 ∧ ∀ x : ℕ → Bool, meaning (QFT 3 id) (ket x) =
      g • (((2 : ℝ) ^ (-((3 : ℕ) : ℝ) / 2) : ℝ) : ℂ) • ∑ k ∈ Finset.range (2 ^ 3),
        Complex.exp (2 * Real.pi * Complex.I * highFirst 3 id x * k / 2 ^ 3) •
          ket (putHighFirst 3 id k x)) ∧
      meaning (iQFT 3 (id : ℕ → ℕ)) * meaning (QFT 3 id) = 1 :=
  qft_iqft (Set.injOn_id _)

end ScaffCC.Shors
