import ScaffCC.IR.Gate

/-!
# The Toffoli implementation

The sixteen gates that replace a Toffoli gate, and the proof that they are the Toffoli gate exactly,
phase included.

Between the two Hadamards the gates only flip wires under one another and put phases on basis
states. The seven flips undo each other, and the seven phases, powers of an eighth root of unity
read off at seven parities of the three wires, multiply to `-1` when all three wires are set and to
`1` otherwise. Conjugating that phase by a Hadamard on the target turns it into a flip.
-/

namespace ScaffCC.ToffoliReplace

open Quantum GateCall

variable {ι : Type*}

/-- The calls between the two Hadamards, from the three operands. -/
def implPhase (control1 control2 target : ι) : List (GateCall ι) :=
  [gate1 .T control1, gate1 .T control2, gate1 .T target,
   CNOT control2 control1, CNOT target control2, CNOT control1 target,
   gate1 .Tdag control2, gate1 .T target,
   CNOT control1 control2,
   gate1 .Tdag control1, gate1 .Tdag control2,
   CNOT target control2, CNOT control1 target, CNOT control2 control1]

/-- The calls of the generated body. -/
def implGates (control1 control2 target : ι) : List (GateCall ι) :=
  gate1 .H target :: (implPhase control1 control2 target ++ [gate1 .H target])

variable [DecidableEq ι]

section Distinct

variable {c₁ c₂ t : ι} (h₁₂ : c₁ ≠ c₂) (h₁ : c₁ ≠ t) (h₂ : c₂ ≠ t)
include h₁₂ h₁ h₂

/-- The seven flips of the implementation, the last first, restore the basis state. -/
private theorem flips_uncompute (x : ι → Bool) :
    flipWhen c₁ (· c₂) (flipWhen c₂ (· t) (flipWhen t (· c₁) (flipWhen c₂ (· c₁)
      (flipWhen c₂ (· t) (flipWhen t (· c₁) (flipWhen c₁ (· c₂) x)))))) = x := by
  ext i
  simp only [flipWhen, Function.update_of_ne h₁₂, Function.update_of_ne h₁₂.symm,
    Function.update_of_ne h₁, Function.update_of_ne h₁.symm, Function.update_of_ne h₂,
    Function.update_of_ne h₂.symm, Function.update_self]
  by_cases hi₁ : i = c₁
  · subst hi₁
    rw [Function.update_self]
    cases x i <;> cases x c₂ <;> cases x t <;> rfl
  by_cases hi₂ : i = c₂
  · subst hi₂
    rw [Function.update_of_ne hi₁, Function.update_self]
    cases x i <;> cases x c₁ <;> cases x t <;> rfl
  rw [Function.update_of_ne hi₁, Function.update_of_ne hi₂]
  by_cases hi : i = t
  · subst hi
    rw [Function.update_self]
    cases x i <;> cases x c₁ <;> cases x c₂ <;> rfl
  · rw [Function.update_of_ne hi, Function.update_of_ne hi₂, Function.update_of_ne hi₂,
      Function.update_of_ne hi, Function.update_of_ne hi₁]

/-- The part between the Hadamards is the doubly controlled sign. -/
private theorem compose_implPhase_apply (ψ : Amplitudes ι ℂ) (x : ι → Bool) :
    compose operator (implPhase c₁ c₂ t) ψ x = (if x c₁ && x c₂ && x t then -1 else 1) * ψ x := by
  have hne := omega8_ne_zero
  simp only [implPhase, compose_cons, compose_nil, one_mul, operator, Gate1.matrix,
    Module.End.mul_apply, onWire_phase_apply, flip_apply]
  rw [flips_uncompute h₁₂ h₁ h₂]
  simp only [flipWhen, Function.update_of_ne h₁₂, Function.update_of_ne h₁₂.symm,
    Function.update_of_ne h₁, Function.update_of_ne h₁.symm, Function.update_of_ne h₂,
    Function.update_of_ne h₂.symm, Function.update_self]
  cases x c₁ <;> cases x c₂ <;> cases x t <;> simp [hne]
  -- all three set: the four remaining phases are the half turn
  linear_combination ψ x * omega8_pow_four

/-- A Hadamard on each side turns the doubly controlled sign into the doubly controlled flip. -/
private theorem compose_implGates :
    compose operator (implGates c₁ c₂ t) = flip ℂ t fun x ↦ x c₁ && x c₂ := by
  have hindep : Indep (fun x : ι → Bool ↦ x c₁ && x c₂) t := fun x b ↦ by
    simp only [Function.update_of_ne h₁, Function.update_of_ne h₂]
  rw [implGates, compose_cons, compose_append, compose_cons, compose_nil, one_mul]
  exact hadamard_sign_hadamard hindep (compose_implPhase_apply h₁₂ h₁ h₂)

/-- **The generated body is the Toffoli gate.** -/
theorem circuit_implGates :
    circuit (implGates c₁ c₂ t) = circuit [Toffoli c₁ c₂ t] := by
  have hgates : ∀ g ∈ implGates c₁ c₂ t, g.IsUnitary := by
    simp [implGates, implPhase, IsUnitary]
  rw [circuit_of_isUnitary hgates, compose_implGates h₁₂ h₁ h₂, circuit, run_cons, run_nil,
    outcomes, andThen_one]

end Distinct

end ScaffCC.ToffoliReplace
