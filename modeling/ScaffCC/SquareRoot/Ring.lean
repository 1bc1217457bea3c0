import Mathlib.Algebra.CharP.Algebra
import Mathlib.Algebra.CharP.Two
import Mathlib.Algebra.Field.ZMod
import Mathlib.FieldTheory.Separable
import Mathlib.RingTheory.AdjoinRoot
import ScaffCC.Quantum.Fourier

/-!
# Polynomials in registers

The bits of a number are the coefficients of a polynomial over two elements, and polynomials are
taken modulo `x ^ n + x + 1`. Numbers of `n` bits are the elements of this ring, each once. The
modulus has no repeated factors, so that no two elements have the same square and every element is
one.
-/

namespace ScaffCC.SquareRoot

open Polynomial Quantum
open Finset (range mem_range)

/-! ## The modulus -/

/-- The polynomial `x ^ n + x + 1`. -/
noncomputable def modulus (n : ℕ) : (ZMod 2)[X] := X ^ n + (X + 1)

/-- The ring of polynomials modulo the modulus. -/
abbrev Poly (n : ℕ) := AdjoinRoot (modulus n)

/-- The polynomial `x`. -/
noncomputable def root (n : ℕ) : Poly n := AdjoinRoot.root (modulus n)

variable {n : ℕ}

theorem degree_tail (hn : 2 ≤ n) : (X + 1 : (ZMod 2)[X]).degree < n := by
  rw [← C_1, degree_X_add_C]
  exact_mod_cast (by omega : 1 < n)

theorem modulus_monic (hn : 2 ≤ n) : (modulus n).Monic := monic_X_pow_add (degree_tail hn)

theorem degree_modulus (hn : 2 ≤ n) : (modulus n).degree = n := by
  rw [modulus, degree_add_eq_left_of_degree_lt] <;> rw [degree_X_pow]
  exact degree_tail hn

/-- **The modulus has no repeated factors.** -/
theorem modulus_squarefree (n : ℕ) : Squarefree (modulus n) := by
  refine Separable.squarefree ?_
  have htwo : (2 : (ZMod 2)[X]) = 0 := CharTwo.two_eq_zero
  rw [separable_def, modulus, derivative_add, derivative_X_pow, derivative_add, derivative_X,
    derivative_one, add_zero]
  rcases Nat.even_or_odd n with hn | hn
  · -- the derivative is one
    have hzero : (n : ZMod 2) = 0 := (ZMod.natCast_eq_zero_iff_even).mpr hn
    rw [hzero, C_0, zero_mul, zero_add]
    exact isCoprime_one_right
  · -- the modulus is `x` times the derivative, and one
    have hone : (n : ZMod 2) = 1 := (ZMod.natCast_eq_one_iff_odd).mpr hn
    have hpow : (X : (ZMod 2)[X]) ^ n = X * X ^ (n - 1) := by
      rw [← pow_succ', Nat.sub_add_cancel hn.pos]
    rw [hone, C_1, one_mul]
    refine ⟨1, X, ?_⟩
    rw [hpow]
    linear_combination (X * X ^ (n - 1) + X) * htwo

theorem two_eq_zero (n : ℕ) : (2 : Poly n) = 0 := by
  have htwo : (2 : (ZMod 2)[X]) = 0 := CharTwo.two_eq_zero
  calc (2 : Poly n) = AdjoinRoot.mk (modulus n) 2 := (map_ofNat _ 2).symm
    _ = 0 := by rw [htwo, map_zero]

theorem root_pow (n : ℕ) : root n ^ n = root n + 1 := by
  have hmod : AdjoinRoot.mk (modulus n) (X ^ n + (X + 1)) = 0 := AdjoinRoot.mk_self
  rw [map_add, map_add, map_pow, map_one, AdjoinRoot.mk_X] at hmod
  rw [root]
  linear_combination hmod - (AdjoinRoot.root (modulus n) + 1) * two_eq_zero n

theorem charP_poly (hn : 2 ≤ n) : CharP (Poly n) 2 := by
  have hdegree : (modulus n).degree ≠ 0 := by
    rw [degree_modulus hn]
    exact_mod_cast (by omega : n ≠ 0)
  have hnontrivial := AdjoinRoot.nontrivial (modulus n) hdegree
  exact charP_of_injective_algebraMap' (ZMod 2) 2

/-! ## Numbers as elements -/

/-- The polynomial with the bits of a number. -/
noncomputable def polynomial (n v : ℕ) : (ZMod 2)[X] :=
  ∑ i ∈ range n, if v.testBit i then X ^ i else 0

/-- The element with the bits of a number. -/
noncomputable def element (n v : ℕ) : Poly n := ∑ i ∈ range n, if v.testBit i then root n ^ i else 0

theorem mk_polynomial (n v : ℕ) : AdjoinRoot.mk (modulus n) (polynomial n v) = element n v := by
  rw [polynomial, element, map_sum]
  refine Finset.sum_congr rfl fun i _ ↦ ?_
  split_ifs
  · rw [map_pow, AdjoinRoot.mk_X, root]
  · exact map_zero _

theorem coeff_polynomial (n v i : ℕ) :
    (polynomial n v).coeff i = if i < n ∧ v.testBit i then 1 else 0 := by
  rw [polynomial, finsetSum_coeff]
  have hterm : ∀ j ∈ range n, (if v.testBit j then X ^ j else 0 : (ZMod 2)[X]).coeff i =
      if i = j then (if v.testBit i then 1 else 0) else 0 := by
    intro j _
    by_cases hij : i = j
    · subst hij
      rw [if_pos rfl]
      split_ifs <;> simp
    · rw [if_neg hij]
      split_ifs <;> simp [coeff_X_pow, hij]
  rw [Finset.sum_congr rfl hterm, Finset.sum_ite_eq]
  by_cases hi : i < n <;> simp [hi]

theorem degree_polynomial_lt (n v : ℕ) : (polynomial n v).degree < n := by
  rw [degree_lt_iff_coeff_zero]
  intro i hi
  rw [coeff_polynomial, if_neg fun h ↦ absurd h.1 (Nat.not_lt.mpr hi)]

theorem element_injOn (hn : 2 ≤ n) : Set.InjOn (element n) (Set.Iio (2 ^ n)) := by
  intro v hv w hw h
  rw [← mk_polynomial, ← mk_polynomial, ← sub_eq_zero, ← map_sub, AdjoinRoot.mk_eq_zero] at h
  have hdegree : (polynomial n v - polynomial n w).degree < (modulus n).degree := by
    rw [degree_modulus hn]
    exact (degree_sub_le _ _).trans_lt
      (max_lt (degree_polynomial_lt n v) (degree_polynomial_lt n w))
  have hpoly := sub_eq_zero.mp (eq_zero_of_dvd_of_degree_lt h hdegree)
  refine Nat.eq_of_testBit_eq fun i ↦ ?_
  by_cases hi : i < n
  · have hcoeff := congrArg (coeff · i) hpoly
    simp only [coeff_polynomial, hi, true_and] at hcoeff
    cases hv' : v.testBit i <;> cases hw' : w.testBit i <;> simp_all
  · have hpow := Nat.pow_le_pow_right two_pos (Nat.not_lt.mp hi)
    rw [Nat.testBit_lt_two_pow (lt_of_lt_of_le hv hpow),
      Nat.testBit_lt_two_pow (lt_of_lt_of_le hw hpow)]

theorem exists_element (hn : 2 ≤ n) (r : Poly n) : ∃ v < 2 ^ n, element n v = r := by
  obtain ⟨p, rfl⟩ := AdjoinRoot.mk_surjective r
  set s := p %ₘ modulus n with hs
  set v := Reversible.value n fun i ↦ s.coeff i == 1 with hv
  have hmk : AdjoinRoot.mk (modulus n) p = AdjoinRoot.mk (modulus n) s := by
    rw [← modByMonic_add_div p (modulus n), map_add, map_mul, AdjoinRoot.mk_self, zero_mul,
      add_zero]
  have hdegree : s.degree < n := by
    rw [← degree_modulus hn]
    exact degree_modByMonic_lt p (modulus_monic hn)
  have hpoly : polynomial n v = s := by
    ext i
    rw [coeff_polynomial]
    by_cases hi : i < n
    · have hbits : ∀ c : ZMod 2, (if (c == 1) = true then 1 else 0) = c := by decide
      rw [hv, Reversible.testBit_value hi]
      simp only [hi, true_and]
      exact hbits _
    · rw [if_neg fun h ↦ hi h.1, (degree_lt_iff_coeff_zero s n).mp hdegree i (Nat.not_lt.mp hi)]
  exact ⟨v, Reversible.value_lt _ _, by rw [← mk_polynomial, hpoly, hmk]⟩

/-! ## Squares -/

theorem sq_injective (hn : 2 ≤ n) : Function.Injective fun r : Poly n ↦ r ^ 2 := by
  have hchar := charP_poly hn
  intro r s h
  obtain ⟨p, rfl⟩ := AdjoinRoot.mk_surjective r
  obtain ⟨q, rfl⟩ := AdjoinRoot.mk_surjective s
  have hsq : AdjoinRoot.mk (modulus n) ((p + q) ^ 2) = 0 := by
    rw [map_pow, map_add, CharTwo.add_sq]
    exact (congrArg (· + _) h).trans (CharTwo.add_self_eq_zero _)
  rw [AdjoinRoot.mk_eq_zero, (modulus_squarefree n).dvd_pow_iff_dvd two_ne_zero,
    ← AdjoinRoot.mk_eq_zero, map_add] at hsq
  exact CharTwo.add_eq_zero.mp hsq

/-- **Every element has exactly one square root**, and its number is one of `n` bits. -/
theorem existsUnique_sqrt (hn : 2 ≤ n) (r : Poly n) :
    ∃! v, v < 2 ^ n ∧ element n v ^ 2 = r := by
  have hfinite : Finite (Poly n) := by
    refine Finite.of_surjective (fun v : Fin (2 ^ n) ↦ element n v) fun r ↦ ?_
    obtain ⟨v, hv, hr⟩ := exists_element hn r
    exact ⟨⟨v, hv⟩, hr⟩
  obtain ⟨s, hs⟩ := (Finite.injective_iff_surjective.mp (sq_injective hn)) r
  obtain ⟨v, hv, rfl⟩ := exists_element hn s
  refine ⟨v, ⟨hv, hs⟩, ?_⟩
  rintro w ⟨hw, hw'⟩
  exact element_injOn hn hw hv (sq_injective hn (hw'.trans hs.symm))

end ScaffCC.SquareRoot
