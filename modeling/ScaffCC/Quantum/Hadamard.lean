import ScaffCC.Quantum.Fourier
import ScaffCC.Quantum.Search

/-!
# Hadamard gates on a register

A Hadamard gate on every wire carries the ket of a number to the sum of the kets of all numbers,
with a sign for each: it is negative when the two numbers share an odd number of bits. Between two
such layers the change of the sign of the state with a clear register is a reflection: it takes
twice the mean off every amplitude.
-/

open Finset

namespace Quantum

variable {ι : Type*} [DecidableEq ι] {q : ℕ → ι} {n : ℕ}

/-! ## Signs -/

/-- The sign of two numbers of `n` bits. -/
def walsh (n v w : ℕ) : ℂ := ∏ s ∈ range n, if v.testBit s && w.testBit s then -1 else 1

theorem walsh_succ (n v w : ℕ) :
    walsh (n + 1) v w = walsh n v w * if v.testBit n && w.testBit n then -1 else 1 :=
  prod_range_succ ..

theorem walsh_zero_left (n w : ℕ) : walsh n 0 w = 1 := by
  refine prod_eq_one fun s _ ↦ ?_
  rw [Nat.zero_testBit, Bool.false_and, if_neg Bool.false_ne_true]

theorem walsh_zero_right (n v : ℕ) : walsh n v 0 = 1 := by
  refine prod_eq_one fun s _ ↦ ?_
  rw [Nat.zero_testBit, Bool.and_false, if_neg Bool.false_ne_true]

theorem walsh_two_pow_add (n v w : ℕ) : walsh n v (2 ^ n + w) = walsh n v w := by
  refine prod_congr rfl fun s hs ↦ ?_
  rw [Nat.testBit_two_pow_add_gt (mem_range.mp hs)]

/-! ## Layers -/

/-- A Hadamard gate on each of the lowest `n` wires. -/
noncomputable def layer (q : ℕ → ι) : ℕ → Op ι ℂ
  | 0 => 1
  | n + 1 => onWire (q n) hadamard * layer q n

theorem commute_onWire_layer {i : ι} (h : ∀ s < n, q s ≠ i) (u : Matrix Bool Bool ℂ) :
    Commute (onWire i u) (layer q n) := by
  induction n with
  | zero => exact Commute.one_right _
  | succ n ih =>
    have hlast := commute_onWire (h n (Nat.lt_succ_self n)).symm u hadamard
    exact hlast.mul_right (ih fun s hs ↦ h s (Nat.lt_succ_of_lt hs))

theorem layer_mul_self (hq : Set.InjOn q (Set.Iio n)) : layer q n * layer q n = 1 := by
  induction n with
  | zero => exact one_mul 1
  | succ n ih =>
    have hne : ∀ s < n, q s ≠ q n := fun s hs h ↦
      hs.ne (hq (Nat.lt_succ_of_lt hs) (Nat.lt_succ_self n) h)
    have hrest := ih (hq.mono fun s (hs : s < n) ↦ Nat.lt_succ_of_lt hs)
    rw [layer, (commute_onWire_layer hne hadamard).symm.mul_mul_mul_comm, onWire_mul,
      hadamard_mul_self, onWire_one, hrest, one_mul]

theorem place_succ_of_lt {v : ℕ} (hv : v < 2 ^ n) (z : ι → Bool) :
    place q (n + 1) v z = Function.update (place q n v z) (q n) false := by
  rw [place, Nat.testBit_lt_two_pow hv]

theorem place_succ_two_pow_add (hq : Set.InjOn q (Set.Iio n)) {v : ℕ} (hv : v < 2 ^ n)
    (z : ι → Bool) :
    place q (n + 1) (2 ^ n + v) z = Function.update (place q n v z) (q n) true := by
  rw [place, Nat.testBit_two_pow_add_eq, Nat.testBit_lt_two_pow hv, Bool.not_false,
    ← place_mod hq (2 ^ n + v), Nat.add_mod_left, place_mod hq]

/-- **A layer on a ket**: the sum of all kets, with signs. -/
theorem layer_ket (hq : Set.InjOn q (Set.Iio n)) (v : ℕ) (z : ι → Bool) :
    layer q n (ket (place q n v z)) =
      invSqrtTwo ^ n • ∑ w ∈ range (2 ^ n), walsh n v w • ket (place q n w z) := by
  induction n generalizing z with
  | zero => simp [layer, walsh, place]
  | succ n ih =>
    have hne : ∀ s < n, q s ≠ q n := fun s hs h ↦
      hs.ne (hq (Nat.lt_succ_of_lt hs) (Nat.lt_succ_self n) h)
    have hq' := hq.mono fun s (hs : s < n) ↦ Nat.lt_succ_of_lt hs
    have hbit (w : ℕ) : onWire (q n) hadamard
        (ket (place q n w (Function.update z (q n) (v.testBit n)))) =
        invSqrtTwo • (ket (Function.update (place q n w z) (q n) false) +
          (if v.testBit n then (-1 : ℂ) else 1) •
            ket (Function.update (place q n w z) (q n) true)) := by
      rw [onWire_hadamard_ket, place_update hne, Function.update_self, Function.update_idem,
        Function.update_idem]
      congr 3
      split_ifs
      · exact cis_one
      · exact cis_zero
    have hplace : place q (n + 1) v z = place q n v (Function.update z (q n) (v.testBit n)) := by
      rw [place, place_update hne]
    rw [layer, Module.End.mul_apply, hplace, ih hq', map_smul, map_sum, pow_succ, mul_smul,
      pow_succ, mul_two, sum_range_add]
    congr 1
    rw [← sum_add_distrib, smul_sum]
    refine sum_congr rfl fun w hw ↦ ?_
    have hw' := mem_range.mp hw
    rw [map_smul, hbit, smul_comm, ← place_succ_of_lt hw', ← place_succ_two_pow_add hq' hw',
      walsh_succ, walsh_succ, walsh_two_pow_add, Nat.testBit_lt_two_pow hw',
      Nat.testBit_two_pow_add_eq, Nat.testBit_lt_two_pow hw', Bool.and_false, Bool.not_false,
      Bool.and_true, if_neg Bool.false_ne_true, mul_one, smul_add, mul_smul]

/-! ## The reflection -/

theorem invSqrtTwo_pow_mul_self (n : ℕ) :
    invSqrtTwo ^ n * invSqrtTwo ^ n = ((2 ^ n : ℕ) : ℂ)⁻¹ := by
  rw [← mul_pow, invSqrtTwo, inv_sqrt_two_mul_self, inv_pow]
  push_cast
  rfl

/-- **The reflection**: between two layers the sign of the clear register is changed. -/
theorem layer_sign_layer (hq : Set.InjOn q (Set.Iio n)) {A : Op ι ℂ} {z : ι → Bool}
    (hA : ∀ v < 2 ^ n, A (ket (place q n v z)) =
      (if v = 0 then (-1 : ℂ) else 1) • ket (place q n v z)) (f : ℕ → ℂ) :
    layer q n (A (layer q n (∑ v ∈ range (2 ^ n), f v • ket (place q n v z)))) =
      ∑ v ∈ range (2 ^ n), Search.reflect (range (2 ^ n)) f v • ket (place q n v z) := by
  set e := fun v ↦ ket (place q n v z) with he
  set c := invSqrtTwo ^ n with hc
  have hpos : 0 ∈ range (2 ^ n) := mem_range.mpr (Nat.two_pow_pos n)
  have hlayer (v : ℕ) : layer q n (e v) = c • ∑ w ∈ range (2 ^ n), walsh n v w • e w :=
    layer_ket hq v z
  -- the amplitudes between the layers
  set g := fun w ↦ ∑ v ∈ range (2 ^ n), f v * (c * walsh n v w) with hg
  have hbetween : layer q n (∑ v ∈ range (2 ^ n), f v • e v) = ∑ w ∈ range (2 ^ n), g w • e w := by
    rw [map_sum]
    simp only [hg, map_smul, hlayer, smul_sum, sum_smul, smul_smul]
    exact sum_comm
  have hg₀ : g 0 = c * ∑ v ∈ range (2 ^ n), f v := by
    simp only [hg, walsh_zero_right, mul_one]
    rw [← sum_mul, mul_comm]
  have hsign : A (∑ w ∈ range (2 ^ n), g w • e w) =
      ∑ w ∈ range (2 ^ n), g w • e w - (2 * g 0) • e 0 := by
    have hterm : ∀ w ∈ range (2 ^ n), A (g w • e w) =
        g w • e w - if w = 0 then (2 * g 0) • e 0 else 0 := by
      intro w hw
      rw [map_smul, he, hA w (mem_range.mp hw)]
      split_ifs with hw₀
      · subst hw₀
        rw [neg_one_smul, smul_neg, two_mul, add_smul, sub_add_cancel_left]
      · rw [one_smul, sub_zero]
    rw [map_sum, sum_congr rfl hterm, sum_sub_distrib, sum_ite_eq' _ _ fun _ ↦ (2 * g 0) • e 0,
      if_pos hpos]
  have hback : layer q n (∑ w ∈ range (2 ^ n), g w • e w) = ∑ v ∈ range (2 ^ n), f v • e v := by
    rw [← hbetween, ← Module.End.mul_apply, layer_mul_self hq, Module.End.one_apply]
  rw [hbetween, hsign, map_sub, map_smul, hback, hlayer, hg₀]
  simp only [walsh_zero_left, one_smul, smul_sum, ← sum_sub_distrib, smul_smul, ← sub_smul]
  refine sum_congr rfl fun v _ ↦ ?_
  rw [Search.reflect_apply, card_range, mul_assoc 2, mul_right_comm c, hc, invSqrtTwo_pow_mul_self]
  congr 2
  ring

end Quantum
