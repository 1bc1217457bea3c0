import ScaffCC.Reverse.Resolve
import ScaffCC.Toffoli.Replace

/-!
# Circuits with lowered Toffoli gates

The passes behind the replacement may turn an implementation round. What a function performs in the
end is therefore what it stands for with some of the Toffoli gates as the implementation, forth or
back. The relation is kept when circuits are put behind each other and turned round, and it keeps
the meaning of a circuit.
-/

namespace ScaffCC.ToffoliReplace

open Quantum GateCall FunctionReverse

variable {ι : Type*} {g : GateCall ι} {p C C' D D' : List (GateCall ι)}

/-- A gate against the gates that stand for it in the end. -/
inductive LoweredGate : GateCall ι → List (GateCall ι) → Prop
  | same (g : GateCall ι) : LoweredGate g [g]
  | forth (c₁ c₂ t : ι) : LoweredGate (Toffoli c₁ c₂ t) (implGates c₁ c₂ t)
  | back (c₁ c₂ t : ι) : LoweredGate (Toffoli c₁ c₂ t) (inverse (implGates c₁ c₂ t))

/-- A circuit against the circuit in the end. -/
inductive Lowered : List (GateCall ι) → List (GateCall ι) → Prop
  | nil : Lowered [] []
  | cons {g : GateCall ι} {p C C' : List (GateCall ι)} :
      LoweredGate g p → Lowered C C' → Lowered (g :: C) (p ++ C')

theorem LoweredGate.lowered (h : LoweredGate g p) : Lowered [g] p := by
  have hone := Lowered.cons h .nil
  rwa [List.append_nil] at hone

theorem Lowered.append (h : Lowered C C') (h' : Lowered D D') : Lowered (C ++ D) (C' ++ D') := by
  induction h with
  | nil => exact h'
  | cons hg _ ih =>
    rw [List.append_assoc]
    exact .cons hg ih

/-! ## Circuits turned round -/

theorem anglesZero_implGates (c₁ c₂ t : ι) : AnglesZero (implGates c₁ c₂ t) := by
  intro a q θ hmem
  simp [implGates, implPhase] at hmem

theorem dagger_implGates (c₁ c₂ t : ι) :
    (implGates c₁ c₂ t).map dagger = (implGates c₁ c₂ t).map inverseGate :=
  dagger_of_anglesZero (anglesZero_implGates c₁ c₂ t)

theorem LoweredGate.turned (h : LoweredGate g p) :
    LoweredGate (dagger g) (p.map dagger).reverse := by
  cases h with
  | same g => exact .same (dagger g)
  | forth c₁ c₂ t =>
    rw [dagger_implGates]
    exact .back c₁ c₂ t
  | back c₁ c₂ t =>
    have hback : ((inverse (implGates c₁ c₂ t)).map dagger).reverse = implGates c₁ c₂ t := by
      rw [inverse, List.map_reverse, List.reverse_reverse]
      rfl
    rw [hback]
    exact .forth c₁ c₂ t

theorem Lowered.turned (h : Lowered C C') (k : ℕ) :
    Lowered (turned dagger k C) (turned dagger k C') := by
  rw [FunctionReverse.turned, FunctionReverse.turned]
  split_ifs
  · induction h with
    | nil => exact .nil
    | cons hg _ ih =>
      rw [List.map_cons, List.reverse_cons, List.map_append, List.reverse_append]
      exact ih.append hg.turned.lowered
  · exact h

theorem Lowered.anglesZero (h : Lowered C C') (hC : AnglesZero C) : AnglesZero C' := by
  induction h with
  | nil => exact hC
  | @cons g p C C' hg _ ih =>
    intro a q θ hmem
    rcases List.mem_append.mp hmem with hp | hmem
    · cases hg with
      | same g => exact hC a q θ (List.mem_cons.mpr (.inl (List.mem_singleton.mp hp)))
      | forth c₁ c₂ t => exact anglesZero_implGates c₁ c₂ t a q θ hp
      | back c₁ c₂ t =>
        obtain ⟨g, hg, hrot⟩ := List.mem_map.mp (List.mem_reverse.mp hp)
        rw [eq_rot_of_inverseGate hrot] at hg
        exact anglesZero_implGates c₁ c₂ t a q θ hg
    · exact ih (fun a q θ h ↦ hC a q θ (List.mem_cons_of_mem g h)) a q θ hmem

/-! ## The meaning of the circuits -/

section Meaning

variable [DecidableEq ι]

theorem circuit_inverse_implGates {c₁ c₂ t : ι} (h₁₂ : c₁ ≠ c₂) (h₁ : c₁ ≠ t) (h₂ : c₂ ≠ t) :
    circuit (inverse (implGates c₁ c₂ t)) = circuit [Toffoli c₁ c₂ t] := by
  have hunitary : ∀ g ∈ implGates c₁ c₂ t, g.IsUnitary := by
    simp [implGates, implPhase, IsUnitary]
  have hback : ∀ g ∈ inverse (implGates c₁ c₂ t), g.IsUnitary := by
    intro g hg
    obtain ⟨g', hg', rfl⟩ := List.mem_map.mp (List.mem_reverse.mp hg)
    exact isUnitary_inverseGate (hunitary g' hg')
  have hdistinct : Distinct (implGates c₁ c₂ t) := by
    simp [Distinct, implGates, implPhase, operands, h₁₂, h₁₂.symm, h₁, h₂.symm]
  have himpl : compose operator (implGates c₁ c₂ t) = (Toffoli c₁ c₂ t).operator := by
    have hsame := circuit_implGates h₁₂ h₁ h₂
    rwa [circuit_of_isUnitary hunitary, circuit_of_isUnitary (by simp [IsUnitary]),
      List.cons.injEq, compose_cons, compose_nil, one_mul, and_iff_left rfl] at hsame
  have hundo := compose_append_inverse hunitary hdistinct (anglesZero_implGates c₁ c₂ t)
  have hself : (Toffoli c₁ c₂ t).operator * (Toffoli c₁ c₂ t).operator = 1 := by
    refine flip_mul_self fun x b ↦ ?_
    simp only [Function.update_of_ne h₁, Function.update_of_ne h₂]
  rw [compose_append, himpl] at hundo
  rw [circuit_of_isUnitary hback, circuit_of_isUnitary (by simp [IsUnitary]), compose_cons,
    compose_nil, one_mul]
  exact congrArg (fun A ↦ [A]) (left_inv_eq_right_inv hundo hself)

/-- **A lowered circuit means the same.** -/
theorem Lowered.circuit_eq (h : Lowered C C') (hd : ToffolisDistinct C) :
    circuit C' = circuit C := by
  induction h with
  | nil => rfl
  | @cons g p C C' hg _ ih =>
    have htail := ih fun c₁ c₂ t hm ↦ hd c₁ c₂ t (List.mem_cons_of_mem g hm)
    have hhead : circuit p = circuit [g] := by
      cases hg with
      | same g => rfl
      | forth c₁ c₂ t =>
        obtain ⟨h₁₂, h₁, h₂⟩ := hd c₁ c₂ t List.mem_cons_self
        exact circuit_implGates h₁₂ h₁ h₂
      | back c₁ c₂ t =>
        obtain ⟨h₁₂, h₁, h₂⟩ := hd c₁ c₂ t List.mem_cons_self
        exact circuit_inverse_implGates h₁₂ h₁ h₂
    rw [circuit, circuit] at hhead htail
    rw [circuit, circuit, run_append, hhead, htail, ← run_append, List.singleton_append]

end Meaning

end ScaffCC.ToffoliReplace
