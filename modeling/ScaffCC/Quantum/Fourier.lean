import Mathlib.Algebra.BigOperators.Intervals
import Mathlib.Tactic.FieldSimp
import ScaffCC.Quantum.Ket
import ScaffCC.Reversible.Carry

/-!
# Fourier states of a register

A register is a sequence of wires, the lowest bit first. Its Fourier state for a basis state is the
sum of the kets with every number in the register, each with as many turns as the product of the two
numbers over the number of states.

The transform is built from the top wire down: a Hadamard gate, then phases by the lower wires. What
the steps below a wire make is the state for the lower part of the register, so that the proof is an
induction on the width. The numbers come out with their bits reversed.

Phases that are a multiple of the number in the register add to the number of a Fourier state.
-/

namespace Quantum

open ScaffCC.Reversible (value value_lt value_succ value_testBit testBit_value value_inj)

variable {ι : Type*}

/-! ## Numbers in registers -/

def number (r : ℕ → ι) (n : ℕ) (x : ι → Bool) : ℕ := value n fun s ↦ x (r s)

theorem number_lt (r : ℕ → ι) (n : ℕ) (x : ι → Bool) : number r n x < 2 ^ n := value_lt ..

theorem number_succ (r : ℕ → ι) (n : ℕ) (x : ι → Bool) :
    number r (n + 1) x = number r n x + 2 ^ n * (x (r n)).toNat := value_succ ..

theorem testBit_number (r : ℕ → ι) {n s : ℕ} (hs : s < n) (x : ι → Bool) :
    (number r n x).testBit s = x (r s) := testBit_value hs _

theorem number_mod (r : ℕ → ι) {m n : ℕ} (h : m ≤ n) (x : ι → Bool) :
    number r n x % 2 ^ m = number r m x := by
  rw [← value_testBit m, number]
  exact value_inj.mpr fun s hs ↦ testBit_number r (hs.trans_le h) x

theorem value_eq_sum (n : ℕ) (x : ℕ → Bool) :
    value n x = ∑ s ∈ Finset.range n, (x s).toNat * 2 ^ s := by
  induction n with
  | zero => rfl
  | succ n ih => rw [value_succ, ih, Finset.sum_range_succ, Nat.mul_comm]

theorem number_eq_sum (r : ℕ → ι) (n : ℕ) (x : ι → Bool) :
    number r n x = ∑ s ∈ Finset.range n, (x (r s)).toNat * 2 ^ s := value_eq_sum ..

variable [DecidableEq ι]

/-- A basis state with a number in the register. -/
def place (r : ℕ → ι) : ℕ → ℕ → (ι → Bool) → ι → Bool
  | 0, _, x => x
  | n + 1, v, x => Function.update (place r n v x) (r n) (v.testBit n)

theorem place_of_ne {r : ℕ → ι} {n : ℕ} {i : ι} (h : ∀ s < n, r s ≠ i) (v : ℕ) (x : ι → Bool) :
    place r n v x i = x i := by
  induction n with
  | zero => rfl
  | succ n ih =>
    rw [place, Function.update_of_ne (h n (Nat.lt_succ_self n)).symm,
      ih fun s hs ↦ h s (Nat.lt_succ_of_lt hs)]

section Register

variable {r : ℕ → ι} {n : ℕ} (hr : Set.InjOn r (Set.Iio n))

include hr

theorem place_wire {s : ℕ} (hs : s < n) (v : ℕ) (x : ι → Bool) :
    place r n v x (r s) = v.testBit s := by
  induction n with
  | zero => exact absurd hs (Nat.not_lt_zero s)
  | succ n ih =>
    rw [place]
    rcases Nat.lt_succ_iff_lt_or_eq.mp hs with hlt | rfl
    · have hne : r s ≠ r n := fun h ↦ hlt.ne (hr hs (Nat.lt_succ_self n) h)
      rw [Function.update_of_ne hne,
        ih (hr.mono fun t (ht : t < n) ↦ Nat.lt_succ_of_lt ht) hlt]
    · rw [Function.update_self]

theorem eq_place {v : ℕ} {x y : ι → Bool} (hin : ∀ s < n, y (r s) = v.testBit s)
    (hout : ∀ i, (∀ s < n, r s ≠ i) → y i = x i) : y = place r n v x := by
  funext i
  by_cases hi : ∃ s < n, r s = i
  · obtain ⟨s, hs, rfl⟩ := hi
    rw [hin s hs, place_wire hr hs]
  · have hne : ∀ s < n, r s ≠ i := fun s hs h ↦ hi ⟨s, hs, h⟩
    rw [hout i hne, place_of_ne hne]

theorem number_place (v : ℕ) (x : ι → Bool) : number r n (place r n v x) = v % 2 ^ n := by
  rw [← value_testBit, number]
  exact value_inj.mpr fun s hs ↦ place_wire hr hs v x

theorem place_place (v w : ℕ) (x : ι → Bool) :
    place r n v (place r n w x) = place r n v x :=
  eq_place hr (fun _ hs ↦ place_wire hr hs v _) fun _ hi ↦
    (place_of_ne hi v _).trans (place_of_ne hi w x)

theorem place_number (x : ι → Bool) : place r n (number r n x) x = x :=
  (eq_place hr (fun _ hs ↦ (testBit_number r hs x).symm) fun _ _ ↦ rfl).symm

theorem place_mod (v : ℕ) (x : ι → Bool) : place r n (v % 2 ^ n) x = place r n v x := by
  refine eq_place hr (fun s hs ↦ ?_) fun i hi ↦ place_of_ne hi _ x
  rw [place_wire hr hs, Nat.testBit_mod_two_pow, decide_eq_true hs, Bool.true_and]

omit hr in
theorem place_update {i : ι} (h : ∀ s < n, r s ≠ i) (v : ℕ) (x : ι → Bool) (b : Bool) :
    place r n v (Function.update x i b) = Function.update (place r n v x) i b := by
  induction n with
  | zero => rfl
  | succ n ih =>
    rw [place, place, ih fun s hs ↦ h s (Nat.lt_succ_of_lt hs),
      Function.update_comm (h n (Nat.lt_succ_self n)).symm]

omit hr in
theorem number_update {i : ι} (h : ∀ s < n, r s ≠ i) (x : ι → Bool) (b : Bool) :
    number r n (Function.update x i b) = number r n x :=
  value_inj.mpr fun s hs ↦ Function.update_of_ne (h s hs) b x

end Register

/-! ## Fourier states -/

noncomputable def fourierState (r : ℕ → ι) (n : ℕ) (x : ι → Bool) : Amplitudes ι ℂ :=
  invSqrtTwo ^ n • ∑ k ∈ Finset.range (2 ^ n),
    cis (2 * (number r n x * k / 2 ^ n)) • ket (place r n k x)

/-- **Adding in Fourier space**: phases that are multiples of the number in the register add to the
number of a Fourier state. -/
theorem phases_fourier {r : ℕ → ι} {n : ℕ} (hr : Set.InjOn r (Set.Iio n)) {φ : (ι → Bool) → ℚ}
    {a : (ι → Bool) → ℕ} {g : ℂ}
    (hφ : ∀ x, cis (φ x) = g * cis (2 * (a x * number r n x / 2 ^ n)))
    (ha : ∀ v x, a (place r n v x) = a x) (x : ι → Bool) :
    phases φ (fourierState r n x) = g • fourierState r n (place r n (number r n x + a x) x) := by
  rw [fourierState, fourierState, map_smul, map_sum, smul_comm g]
  refine congrArg _ ?_
  rw [Finset.smul_sum]
  refine Finset.sum_congr rfl fun k hk ↦ ?_
  have hk' : number r n (place r n k x) = k := by
    rw [number_place hr, Nat.mod_eq_of_lt (Finset.mem_range.mp hk)]
  set m := number r n x + a x with hm
  -- the whole turns of the sum are dropped
  have hsum : (2 * (number r n x * k / 2 ^ n) + 2 * (a x * k / 2 ^ n) : ℚ) =
      2 * ((m % 2 ^ n : ℕ) * k / 2 ^ n) + 2 * ((m / 2 ^ n * k : ℕ) : ℚ) := by
    have hdiv : ((m % 2 ^ n : ℕ) : ℚ) + 2 ^ n * (m / 2 ^ n : ℕ) = number r n x + a x := by
      rw [hm]
      exact_mod_cast Nat.mod_add_div (number r n x + a x) (2 ^ n)
    have hpow : (2 : ℚ) ^ n ≠ 0 := by positivity
    push_cast
    field_simp
    rw [hdiv]
  rw [map_smul, phases_ket, hφ, ha, hk', number_place hr, place_place hr, smul_smul, smul_smul,
    mul_left_comm, ← cis_add, hsum, cis_add_two_mul_natCast]

/-! ## The transform -/

/-- The number with the lowest `n` bits in the reverse order. -/
def revBits (n v : ℕ) : ℕ := value n fun s ↦ v.testBit (n - 1 - s)

theorem revBits_lt (n v : ℕ) : revBits n v < 2 ^ n := value_lt ..

theorem revBits_revBits {n v : ℕ} (hv : v < 2 ^ n) : revBits n (revBits n v) = v := by
  have hbits : revBits n (revBits n v) = value n v.testBit := by
    refine value_inj.mpr fun s hs ↦ ?_
    rw [revBits, testBit_value (by omega), show n - 1 - (n - 1 - s) = s by omega]
  rw [hbits, value_testBit, Nat.mod_eq_of_lt hv]

theorem two_mul_revBits_div (n v : ℕ) :
    (2 * (revBits n v / 2 ^ n) : ℚ) = ∑ s ∈ Finset.range n, ((v.testBit s).toNat : ℚ) / 2 ^ s := by
  rw [revBits, value_eq_sum, ← Finset.sum_range_reflect]
  push_cast
  rw [Finset.sum_div, Finset.mul_sum]
  refine Finset.sum_congr rfl fun s hs ↦ ?_
  have hs' := Finset.mem_range.mp hs
  have hpow : (2 : ℚ) ^ n = 2 ^ (n - 1 - s) * 2 ^ s * 2 := by
    rw [← pow_add, ← pow_succ]
    congr 1
    omega
  rw [show n - 1 - (n - 1 - s) = s by omega, hpow]
  field_simp

/-- The exponent of the transform without the reversal, by the wires from the lowest one on. -/
private def ladderExponent (r : ℕ → ι) (x : ι → Bool) (y : ℕ) : ℕ → ℚ
  | 0 => 0
  | n + 1 => ladderExponent r x y n + (y.testBit n).toNat * number r (n + 1) x / 2 ^ n

omit [DecidableEq ι] in
private theorem cis_ladderExponent (r : ℕ → ι) (n : ℕ) (x : ι → Bool) (y : ℕ) :
    cis (ladderExponent r x y n) = cis (2 * (number r n x * revBits n y / 2 ^ n)) := by
  have hsteps : ∀ m ≤ n, cis (ladderExponent r x y m) =
      cis (number r n x * ∑ s ∈ Finset.range m, ((y.testBit s).toNat : ℚ) / 2 ^ s) := by
    intro m hm
    induction m with
    | zero => simp [ladderExponent]
    | succ m ih =>
      -- the bits above the wire make whole turns
      have hdiv : (number r n x : ℚ) =
          number r (m + 1) x + 2 ^ (m + 1) * (number r n x / 2 ^ (m + 1) : ℕ) := by
        rw [← number_mod r hm]
        exact_mod_cast (Nat.mod_add_div (number r n x) (2 ^ (m + 1))).symm
      have hterm : (number r n x * ((y.testBit m).toNat / 2 ^ m) : ℚ) =
          (y.testBit m).toNat * number r (m + 1) x / 2 ^ m +
            2 * ((y.testBit m).toNat * (number r n x / 2 ^ (m + 1)) : ℕ) := by
        rw [hdiv]
        push_cast
        field_simp
        ring
      rw [ladderExponent, cis_add, ih (by omega), Finset.sum_range_succ, mul_add, cis_add, hterm,
        cis_add_two_mul_natCast]
  rw [hsteps n le_rfl, ← two_mul_revBits_div]
  congr 1
  ring

/-- The steps of the transform for the lowest `n` wires, the top one first: a Hadamard gate, then
phases. -/
noncomputable def ladder (r : ℕ → ι) (φ : ℕ → (ι → Bool) → ℚ) : ℕ → Op ι ℂ
  | 0 => 1
  | n + 1 => ladder r φ n * (phases (φ n) * onWire (r n) hadamard)

/-- The phases of each step turn the wire by the number in the wires below it. -/
def IsLadder (r : ℕ → ι) (φ : ℕ → (ι → Bool) → ℚ) (g : ℕ → ℂ) (n : ℕ) : Prop :=
  ∀ m < n, ∀ x, cis (φ m x) = g m * cis ((x (r m)).toNat * number r m x / 2 ^ m)

private theorem step_ket {r : ℕ → ι} {m : ℕ} (hr : Set.InjOn r (Set.Iio (m + 1)))
    {φ : (ι → Bool) → ℚ} {g : ℂ}
    (hφ : ∀ x, cis (φ x) = g * cis ((x (r m)).toNat * number r m x / 2 ^ m)) (x : ι → Bool) :
    (phases φ * onWire (r m) hadamard) (ket x) =
      (g * invSqrtTwo) • (ket (Function.update x (r m) false) +
        cis (number r (m + 1) x / 2 ^ m) • ket (Function.update x (r m) true)) := by
  have hne : ∀ s < m, r s ≠ r m := fun s hs h ↦
    hs.ne (hr (Nat.lt_succ_of_lt hs) (Nat.lt_succ_self m) h)
  have hturn : cis (if x (r m) then 1 else 0) * cis (number r m x / 2 ^ m) =
      cis (number r (m + 1) x / 2 ^ m) := by
    rw [← cis_add, number_succ]
    congr 1
    cases x (r m)
    · simp
    · push_cast
      rw [if_pos rfl, Bool.toNat_true]
      field_simp
      ring
  rw [Module.End.mul_apply, onWire_hadamard_ket, map_smul, map_add, map_smul, phases_ket,
    phases_ket, hφ, hφ, Function.update_self, Function.update_self, number_update hne,
    number_update hne, ← hturn]
  simp only [Bool.toNat_false, Bool.toNat_true, Nat.cast_zero, Nat.cast_one, zero_mul, zero_div,
    one_mul, cis_zero, mul_one, smul_add, smul_smul]
  congr 2 <;> ring

private theorem place_succ_low {r : ℕ → ι} {n y : ℕ} (hr : Set.InjOn r (Set.Iio (n + 1)))
    (hy : y < 2 ^ n) (x : ι → Bool) :
    place r n y (Function.update x (r n) false) = place r (n + 1) y x := by
  have hne : ∀ s < n, r s ≠ r n := fun s hs h ↦
    hs.ne (hr (Nat.lt_succ_of_lt hs) (Nat.lt_succ_self n) h)
  rw [place_update hne, place, Nat.testBit_lt_two_pow hy]

private theorem place_succ_high {r : ℕ → ι} {n y : ℕ} (hr : Set.InjOn r (Set.Iio (n + 1)))
    (hy : y < 2 ^ n) (x : ι → Bool) :
    place r n y (Function.update x (r n) true) = place r (n + 1) (2 ^ n + y) x := by
  have hne : ∀ s < n, r s ≠ r n := fun s hs h ↦
    hs.ne (hr (Nat.lt_succ_of_lt hs) (Nat.lt_succ_self n) h)
  have hlow : Set.InjOn r (Set.Iio n) := hr.mono fun t (ht : t < n) ↦ Nat.lt_succ_of_lt ht
  have htop : (2 ^ n + y).testBit n = true := by
    rw [Nat.testBit_two_pow_add_eq, Nat.testBit_lt_two_pow hy, Bool.not_false]
  have hmod : place r n (2 ^ n + y) x = place r n y x := by
    rw [← place_mod hlow (2 ^ n + y), Nat.add_mod_left, place_mod hlow]
  rw [place_update hne, place, htop, hmod]

omit [DecidableEq ι] in
private theorem ladderExponent_congr {r : ℕ → ι} {n y z : ℕ}
    (h : ∀ s < n, y.testBit s = z.testBit s) (x : ι → Bool) :
    ladderExponent r x y n = ladderExponent r x z n := by
  induction n with
  | zero => rfl
  | succ n ih =>
    rw [ladderExponent, ladderExponent, ih fun s hs ↦ h s (Nat.lt_succ_of_lt hs),
      h n (Nat.lt_succ_self n)]

private theorem ladderExponent_update {r : ℕ → ι} {n : ℕ} {i : ι} (h : ∀ s < n, r s ≠ i)
    (x : ι → Bool) (b : Bool) (y : ℕ) :
    ladderExponent r (Function.update x i b) y n = ladderExponent r x y n := by
  induction n with
  | zero => rfl
  | succ n ih =>
    rw [ladderExponent, ladderExponent, ih fun s hs ↦ h s (Nat.lt_succ_of_lt hs), number_update h]

private theorem ladder_ket {r : ℕ → ι} {φ : ℕ → (ι → Bool) → ℚ} {g : ℕ → ℂ} {n : ℕ}
    (hr : Set.InjOn r (Set.Iio n)) (hφ : IsLadder r φ g n) (x : ι → Bool) :
    ladder r φ n (ket x) = (∏ m ∈ Finset.range n, g m) • invSqrtTwo ^ n •
      ∑ y ∈ Finset.range (2 ^ n), cis (ladderExponent r x y n) • ket (place r n y x) := by
  induction n generalizing x with
  | zero => simp [ladder, ladderExponent, place]
  | succ n ih =>
    have hlow : Set.InjOn r (Set.Iio n) := hr.mono fun t (ht : t < n) ↦ Nat.lt_succ_of_lt ht
    have hne : ∀ s < n, r s ≠ r n := fun s hs h ↦
      hs.ne (hr (Nat.lt_succ_of_lt hs) (Nat.lt_succ_self n) h)
    have hrest := ih hlow fun m hm ↦ hφ m (Nat.lt_succ_of_lt hm)
    -- the numbers without and with the top bit
    have hfalse : ∑ y ∈ Finset.range (2 ^ n),
          cis (ladderExponent r (Function.update x (r n) false) y n) •
            ket (place r n y (Function.update x (r n) false)) =
        ∑ y ∈ Finset.range (2 ^ n),
          cis (ladderExponent r x y (n + 1)) • ket (place r (n + 1) y x) := by
      refine Finset.sum_congr rfl fun y hy ↦ ?_
      have hy' := Finset.mem_range.mp hy
      rw [place_succ_low hr hy', ladderExponent_update hne, ladderExponent,
        Nat.testBit_lt_two_pow hy', Bool.toNat_false, Nat.cast_zero, zero_mul, zero_div, add_zero]
    have htrue : cis (number r (n + 1) x / 2 ^ n) • ∑ y ∈ Finset.range (2 ^ n),
          cis (ladderExponent r (Function.update x (r n) true) y n) •
            ket (place r n y (Function.update x (r n) true)) =
        ∑ y ∈ Finset.range (2 ^ n),
          cis (ladderExponent r x (2 ^ n + y) (n + 1)) • ket (place r (n + 1) (2 ^ n + y) x) := by
      rw [Finset.smul_sum]
      refine Finset.sum_congr rfl fun y hy ↦ ?_
      have hy' := Finset.mem_range.mp hy
      have hbits : ∀ s < n, (2 ^ n + y).testBit s = y.testBit s := fun s hs ↦
        Nat.testBit_two_pow_add_gt hs y
      have htop : (2 ^ n + y).testBit n = true := by
        rw [Nat.testBit_two_pow_add_eq, Nat.testBit_lt_two_pow hy', Bool.not_false]
      rw [place_succ_high hr hy', ladderExponent_update hne, ladderExponent,
        ladderExponent_congr hbits, htop, Bool.toNat_true, Nat.cast_one, one_mul, smul_smul,
        ← cis_add, add_comm]
    rw [ladder, Module.End.mul_apply, step_ket hr (hφ n (Nat.lt_succ_self n)), map_smul, map_add,
      map_smul, hrest, hrest, hfalse, smul_comm (cis _), smul_comm (cis _), htrue, ← smul_add,
      ← smul_add, pow_succ 2 n, mul_two, Finset.sum_range_add, smul_smul, smul_smul, smul_smul,
      Finset.prod_range_succ]
    congr 1
    ring

/-- **The transform**: the ladder, and then the register read backwards, carries the kets to the
Fourier states. -/
theorem maps_fourier {r : ℕ → ι} {φ : ℕ → (ι → Bool) → ℚ} {g : ℕ → ℂ} {n : ℕ}
    (hr : Set.InjOn r (Set.Iio n)) (hφ : IsLadder r φ g n) (hg : ∀ m < n, ‖g m‖ = 1) {W : Op ι ℂ}
    (hW : ∀ y x, W (ket (place r n y x)) = ket (place r n (revBits n y) x)) :
    Maps (W * ladder r φ n) ket id (fourierState r n) := by
  refine ⟨∏ m ∈ Finset.range n, g m, ?_, fun x ↦ ?_⟩
  · rw [norm_prod]
    exact Finset.prod_eq_one fun m hm ↦ hg m (Finset.mem_range.mp hm)
  · rw [Module.End.mul_apply, ladder_ket hr hφ, map_smul, map_smul, map_sum, id, fourierState]
    refine congrArg _ (congrArg _ ?_)
    refine Finset.sum_nbij' (revBits n) (revBits n)
      (fun y _ ↦ Finset.mem_range.mpr (revBits_lt n y))
      (fun y _ ↦ Finset.mem_range.mpr (revBits_lt n y))
      (fun y hy ↦ revBits_revBits (Finset.mem_range.mp hy))
      (fun y hy ↦ revBits_revBits (Finset.mem_range.mp hy)) fun y _ ↦ ?_
    rw [map_smul, hW, cis_ladderExponent]

end Quantum
