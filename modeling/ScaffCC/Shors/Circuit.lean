import ScaffCC.Quantum.Circuit
import ScaffCC.Quantum.Ket
import ScaffCC.Reversible.Circuit

/-!
# Gates of the quantum library

The modules of the library are lists of gates. The angles of rotations are multiples of pi, and the
multiples are exact. Loops are lists of indices, upwards or downwards, with a body for each index.
-/

namespace ScaffCC.Shors

open Quantum
open Reversible (up down)

/-! ## Gates -/

/-- A gate. The angle of a rotation is a multiple of `M_PI`. -/
inductive Gate (ι : Type*)
  | H (q : ι)
  | X (q : ι)
  | Rz (q : ι) (angle : ℚ)
  | CNOT (control target : ι)
  | Toffoli (control1 control2 target : ι)
deriving DecidableEq

variable {ι : Type*}

/-- A rotation under the control of a qubit. -/
def cRz (ctrl target : ι) (angle : ℚ) : List (Gate ι) :=
  [.Rz target (angle / 2), .CNOT ctrl target, .Rz target (-angle / 2), .CNOT ctrl target,
    .Rz ctrl (angle / 2)]

/-- A rotation under the control of two qubits. -/
def ccRz (ctrl0 ctrl1 target : ι) (angle : ℚ) : List (Gate ι) :=
  cRz ctrl1 target (angle / 2) ++ [.CNOT ctrl0 ctrl1] ++ cRz ctrl1 target (-angle / 2) ++
    [.CNOT ctrl0 ctrl1] ++ cRz ctrl0 target (angle / 2)

def SWAP (a b : ι) : List (Gate ι) := [.CNOT b a, .CNOT a b, .CNOT b a]

/-! ## Meaning -/

variable [DecidableEq ι]

noncomputable def Gate.operator : Gate ι → Op ι ℂ
  | H q => onWire q hadamard
  | X q => onWire q pauliX
  | Rz q angle => onWire q (rotZ (angle * Real.pi))
  | CNOT c t => flip ℂ t fun x ↦ x c
  | Toffoli c d t => flip ℂ t fun x ↦ x c && x d

/-- The operator of a circuit. -/
noncomputable def meaning (C : List (Gate ι)) : Op ι ℂ := compose Gate.operator C

@[simp] theorem meaning_nil : meaning ([] : List (Gate ι)) = 1 := rfl

@[simp] theorem meaning_cons (g : Gate ι) (C : List (Gate ι)) :
    meaning (g :: C) = meaning C * g.operator := rfl

theorem meaning_append (C D : List (Gate ι)) : meaning (C ++ D) = meaning D * meaning C :=
  compose_append C D

/-- A loop backwards, with bodies that undo the bodies, undoes the loop. -/
theorem meaning_reverse_mul (l : List ℕ) (body body' : ℕ → List (Gate ι))
    (h : ∀ i ∈ l, meaning (body' i) * meaning (body i) = 1) :
    meaning (l.reverse.flatMap body') * meaning (l.flatMap body) = 1 := by
  induction l with
  | nil => exact one_mul 1
  | cons i l ih =>
    obtain ⟨hi, hl⟩ := List.forall_mem_cons.mp h
    rw [List.reverse_cons, List.flatMap_append, List.flatMap_singleton, List.flatMap_cons,
      meaning_append, meaning_append, mul_assoc, ← mul_assoc _ _ (meaning (body i)), ih hl, one_mul,
      hi]

theorem meaning_flatMap_phases {body : ℕ → List (Gate ι)} {φ : ℕ → (ι → Bool) → ℚ} {l : List ℕ}
    (h : ∀ i ∈ l, meaning (body i) = phases (φ i)) :
    meaning (l.flatMap body) = phases fun x ↦ (l.map fun i ↦ φ i x).sum := by
  induction l with
  | nil => exact phases_zero.symm
  | cons i l ih =>
    obtain ⟨hi, hl⟩ := List.forall_mem_cons.mp h
    rw [List.flatMap_cons, meaning_append, hi, ih hl, phases_mul]
    simp only [List.map_cons, List.sum_cons, add_comm]

/-! ## Rotations -/

theorem indep_of_ne {c t : ι} (h : c ≠ t) : Indep (fun x : ι → Bool ↦ x c) t :=
  fun x b ↦ Function.update_of_ne h b x

theorem operator_Rz (q : ι) (angle : ℚ) :
    (Gate.Rz q angle).operator = phases fun x ↦ angle * (x q).toNat - angle / 2 := by
  rw [Gate.operator, onWire_rotZ]
  congr 1
  funext x
  cases x q
  · simp
  · rw [if_pos rfl, Bool.toNat_true, Nat.cast_one]
    ring

/-- **The controlled rotation** is a phase for the two bits, up to a phase that is the same for all
states. -/
theorem meaning_cRz {c t : ι} (h : c ≠ t) (angle : ℚ) :
    meaning (cRz c t angle) =
      phases fun x ↦ angle * ((x c).toNat * (x t).toNat) - angle / 4 := by
  have hflip : flip ℂ t (fun x ↦ x c) * flip ℂ t (fun x ↦ x c) = 1 := flip_mul_self (indep_of_ne h)
  simp only [cRz, meaning_cons, meaning_nil, one_mul, operator_Rz]
  simp only [Gate.operator]
  rw [mul_assoc (phases _) (flip ℂ t fun x ↦ x c) (phases _), flip_mul_phases, ← mul_assoc,
    mul_assoc _ _ (flip ℂ t fun x ↦ x c), hflip, mul_one, phases_mul, phases_mul]
  congr 1
  funext x
  rw [flipWhen, Function.update_self]
  cases x c <;> cases x t <;> norm_num <;> ring

/-- **The rotation under two controls**. -/
theorem meaning_ccRz {c d t : ι} (hcd : c ≠ d) (hct : c ≠ t) (hdt : d ≠ t) (angle : ℚ) :
    meaning (ccRz c d t angle) =
      phases fun x ↦ angle * ((x c).toNat * (x d).toNat * (x t).toNat) - angle / 8 := by
  have hflip : flip ℂ d (fun x ↦ x c) * flip ℂ d (fun x ↦ x c) = 1 :=
    flip_mul_self (indep_of_ne hcd)
  simp only [ccRz, meaning_append, meaning_cons, meaning_nil, one_mul, meaning_cRz hct,
    meaning_cRz hdt]
  simp only [Gate.operator]
  rw [← mul_assoc (flip ℂ d _) (phases _), flip_mul_phases, mul_assoc (phases _) (flip ℂ d _),
    ← mul_assoc (flip ℂ d _) (flip ℂ d _), hflip, one_mul, phases_mul, phases_mul]
  congr 1
  funext x
  rw [flipWhen, Function.update_self, Function.update_of_ne hdt.symm]
  cases x c <;> cases x d <;> cases x t <;> norm_num <;> ring

end ScaffCC.Shors
