import Mathlib.Algebra.Order.Ring.Nat
import Mathlib.Data.Nat.Bitwise
import Mathlib.Data.Nat.ModEq
import Mathlib.Tactic.Linarith
import Mathlib.Tactic.Ring

/-!
# Carries

Numbers from their bits, the carries of an addition and the borrows of a subtraction. The bits of a
sum are the bits of the summands and the carries, added without carry.
-/

namespace ScaffCC.Reversible

/-! ## Numbers -/

/-- The number with the bits below `n`. -/
def value (n : ℕ) (x : ℕ → Bool) : ℕ := Nat.ofBits fun i : Fin n ↦ x i

@[simp] theorem value_zero (x : ℕ → Bool) : value 0 x = 0 := rfl

theorem value_lt (n : ℕ) (x : ℕ → Bool) : value n x < 2 ^ n := Nat.ofBits_lt_two_pow _

theorem testBit_value {n i : ℕ} (h : i < n) (x : ℕ → Bool) : (value n x).testBit i = x i :=
  Nat.testBit_ofBits_lt _ i h

theorem value_inj {n : ℕ} {x y : ℕ → Bool} : value n x = value n y ↔ ∀ i < n, x i = y i := by
  constructor
  · intro h i hi
    rw [← testBit_value hi x, h, testBit_value hi y]
  · intro h
    exact congrArg Nat.ofBits (funext fun i ↦ h i i.isLt)

theorem value_succ (n : ℕ) (x : ℕ → Bool) :
    value (n + 1) x = value n x + 2 ^ n * (x n).toNat := by
  have hbits : ∀ n x, value (n + 1) x = 2 * value n (fun i ↦ x (i + 1)) + (x 0).toNat :=
    fun n x ↦ Nat.ofBits_succ _
  induction n generalizing x with
  | zero => simp [hbits]
  | succ n ih => rw [hbits, ih, hbits n x, pow_succ]; ring

theorem value_testBit (n v : ℕ) : value n v.testBit = v % 2 ^ n := Nat.ofBits_testBit v n

/-! ## Sums -/

/-- The carry into every position. -/
def carry (x y : ℕ → Bool) : ℕ → Bool
  | 0 => false
  | i + 1 => Bool.atLeastTwo (x i) (y i) (carry x y i)

@[simp] theorem carry_zero (x y : ℕ → Bool) : carry x y 0 = false := rfl

def sumBit (x y : ℕ → Bool) (i : ℕ) : Bool := (x i ^^ y i) ^^ carry x y i

/-- **The bits of a sum**, and the carry out of them. -/
theorem value_sumBit_add (n : ℕ) (x y : ℕ → Bool) :
    value n (sumBit x y) + 2 ^ n * (carry x y n).toNat = value n x + value n y := by
  induction n with
  | zero => rfl
  | succ n ih =>
    have hbit : (sumBit x y n).toNat + 2 * (carry x y (n + 1)).toNat =
        (x n).toNat + (y n).toNat + (carry x y n).toNat := by
      rw [sumBit, carry]
      cases x n <;> cases y n <;> cases carry x y n <;> rfl
    rw [value_succ, value_succ, value_succ]
    calc value n (sumBit x y) + 2 ^ n * (sumBit x y n).toNat +
          2 ^ (n + 1) * (carry x y (n + 1)).toNat
        = value n (sumBit x y) +
            2 ^ n * ((sumBit x y n).toNat + 2 * (carry x y (n + 1)).toNat) := by ring
      _ = (value n (sumBit x y) + 2 ^ n * (carry x y n).toNat) +
            2 ^ n * ((x n).toNat + (y n).toNat) := by rw [hbit]; ring
      _ = value n x + 2 ^ n * (x n).toNat + (value n y + 2 ^ n * (y n).toNat) := by rw [ih]; ring

theorem value_sumBit (n : ℕ) (x y : ℕ → Bool) :
    value n (sumBit x y) = (value n x + value n y) % 2 ^ n := by
  rw [← value_sumBit_add, Nat.add_mul_mod_self_left, Nat.mod_eq_of_lt (value_lt _ _)]

theorem value_add (j m : ℕ) (x : ℕ → Bool) :
    value (j + m) x = value j x + 2 ^ j * value m fun i ↦ x (i + j) := by
  induction m with
  | zero => simp
  | succ m ih => rw [← Nat.add_assoc, value_succ, ih, value_succ, Nat.add_comm m j, pow_add]; ring

/-- **A sum with a shifted summand.** -/
theorem value_add_shifted {j n : ℕ} (h : j ≤ n) (x y : ℕ → Bool) :
    value n (fun i ↦ if i < j then x i else sumBit (fun k ↦ x (k + j)) y (i - j)) =
      (value n x + 2 ^ j * value n y) % 2 ^ n := by
  obtain ⟨m, rfl⟩ := Nat.exists_eq_add_of_le h
  set z : ℕ → Bool := fun i ↦ if i < j then x i else sumBit (fun k ↦ x (k + j)) y (i - j) with hz
  have hlow : value j z = value j x := value_inj.mpr fun i hi ↦ if_pos hi
  have hhigh : (fun i ↦ z (i + j)) = sumBit (fun k ↦ x (k + j)) y := by
    funext i
    rw [hz]
    simp
  have hy : value m y ≡ value (j + m) y [MOD 2 ^ m] := by
    rw [Nat.add_comm j m, value_add]
    exact (Nat.ModEq.refl _).trans (Nat.ModEq.symm (by simp [Nat.ModEq]))
  have hsum : value m (sumBit (fun k ↦ x (k + j)) y) ≡
      value m (fun k ↦ x (k + j)) + value (j + m) y [MOD 2 ^ m] := by
    rw [value_sumBit]
    exact (Nat.mod_modEq _ _).trans (hy.add_left _)
  have hmod : value (j + m) z ≡ value (j + m) x + 2 ^ j * value (j + m) y [MOD 2 ^ (j + m)] := by
    rw [value_add j m z, hlow, hhigh, value_add j m x, Nat.add_assoc, ← Nat.mul_add, pow_add]
    exact (hsum.mul_left' (2 ^ j)).add_left _
  rw [← Nat.mod_eq_of_lt (value_lt (j + m) z)]
  exact hmod

/-! ## Differences -/

/-- The borrow into every position. -/
def borrow (x y : ℕ → Bool) : ℕ → Bool
  | 0 => false
  | i + 1 => Bool.atLeastTwo (!x i) (y i) (borrow x y i)

@[simp] theorem borrow_zero (x y : ℕ → Bool) : borrow x y 0 = false := rfl

def diffBit (x y : ℕ → Bool) (i : ℕ) : Bool := (x i ^^ y i) ^^ borrow x y i

theorem carry_diffBit (x y : ℕ → Bool) (i : ℕ) : carry (diffBit x y) y i = borrow x y i := by
  induction i with
  | zero => rfl
  | succ i ih =>
    rw [carry, borrow, ih, diffBit]
    cases x i <;> cases y i <;> cases borrow x y i <;> rfl

theorem sumBit_diffBit (x y : ℕ → Bool) : sumBit (diffBit x y) y = x := by
  funext i
  rw [sumBit, carry_diffBit, diffBit]
  cases x i <;> cases y i <;> cases borrow x y i <;> rfl

/-- **The bits of a difference.** -/
theorem value_diffBit (n : ℕ) (x y : ℕ → Bool) :
    (value n (diffBit x y) : ℤ) = ((value n x : ℤ) - value n y) % 2 ^ n := by
  have hsum := value_sumBit_add n (diffBit x y) y
  rw [sumBit_diffBit, carry_diffBit] at hsum
  have hlt : (value n (diffBit x y) : ℤ) < 2 ^ n := by exact_mod_cast value_lt n _
  have heq : (value n x : ℤ) - value n y =
      value n (diffBit x y) - 2 ^ n * ((borrow x y n).toNat : ℤ) := by
    have hcast : (value n x : ℤ) + 2 ^ n * (borrow x y n).toNat =
        value n (diffBit x y) + value n y := by exact_mod_cast hsum
    linarith
  rw [heq, Int.sub_mul_emod_self_left, Int.emod_eq_of_lt (Int.natCast_nonneg _) hlt]

end ScaffCC.Reversible
