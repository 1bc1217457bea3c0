import ScaffCC.Reversible.Circuit

/-!
# Reversible circuits backwards

A gate whose target is none of its controls is its own inverse, so that a circuit of such gates is
undone by the same gates in the opposite order. A wire that no gate names can be changed before or
after the circuit.
-/

namespace ScaffCC.Reversible

open Quantum (Indep flipWhen flipWhen_flipWhen)

variable {ι : Type*} [DecidableEq ι] {g : Gate ι} {gs : List (Gate ι)} {w : ι}

/-! ## Backwards -/

omit [DecidableEq ι] in
/-- The target is none of the controls. -/
def Gate.Proper (g : Gate ι) : Prop := g.target ∉ g.controls

namespace Gate.Proper

theorem indep (h : g.Proper) : Indep g.fires g.target := by
  intro s b
  rw [Gate.fires, Gate.fires, Bool.eq_iff_iff, List.all_eq_true, List.all_eq_true]
  refine forall₂_congr fun c hc ↦ ?_
  have hne : c ≠ g.target := fun h' ↦ h (h' ▸ hc)
  rw [Function.update_of_ne hne]

theorem act_act (h : g.Proper) (s : ι → Bool) : g.act (g.act s) = s :=
  flipWhen_flipWhen h.indep s

end Gate.Proper

/-- **The gates in the opposite order undo a circuit.** -/
theorem run_reverse_run (h : ∀ g ∈ gs, g.Proper) (s : ι → Bool) :
    run gs.reverse (run gs s) = s := by
  induction gs generalizing s with
  | nil => rfl
  | cons g gs ih =>
    obtain ⟨hg, hgs⟩ := List.forall_mem_cons.mp h
    rw [List.reverse_cons, run_append, run_cons, run_cons, ih hgs, run_nil, hg.act_act]

/-! ## Wires that are not named -/

omit [DecidableEq ι] in
/-- The gate does not name the wire. -/
def Gate.Avoids (w : ι) (g : Gate ι) : Prop := w ∉ g.controls ∧ w ≠ g.target

theorem Gate.Avoids.act_update (h : g.Avoids w) (s : ι → Bool) (b : Bool) :
    g.act (Function.update s w b) = Function.update (g.act s) w b := by
  have hfires : g.fires (Function.update s w b) = g.fires s := by
    rw [Gate.fires, Gate.fires, Bool.eq_iff_iff, List.all_eq_true, List.all_eq_true]
    refine forall₂_congr fun c hc ↦ ?_
    have hne : c ≠ w := fun h' ↦ h.1 (h' ▸ hc)
    rw [Function.update_of_ne hne]
  rw [Gate.act, Gate.act, flipWhen, flipWhen, hfires, Function.update_of_ne h.2.symm,
    Function.update_comm h.2]

theorem run_update (h : ∀ g ∈ gs, g.Avoids w) (s : ι → Bool) (b : Bool) :
    run gs (Function.update s w b) = Function.update (run gs s) w b := by
  induction gs generalizing s with
  | nil => rfl
  | cons g gs ih =>
    obtain ⟨hg, hgs⟩ := List.forall_mem_cons.mp h
    rw [run_cons, run_cons, hg.act_update, ih hgs]

end ScaffCC.Reversible
