import Mathlib.Analysis.CStarAlgebra.Classes
import Mathlib.Topology.Algebra.InfiniteSum.ENNReal
import ScaffCC.Quantum.Circuit
import ScaffCC.Quantum.Ket

/-!
# Results of programs with outcomes

A program with preparations and measurements has one result for each choice of outcomes, a state
that is not normalised. The chance that the wires hold bits of some kind at the end is the sum of
the squares of the amplitudes, over the results and over the basis states of that kind. It is taken
in `ℝ≥0∞`, where sums have no side conditions.

A program is certain on a state when all results but one are impossible. Steps that are certain are
composed like operators, and observations do not change the chances of the wires.
-/

open scoped ENNReal

namespace Quantum

variable {ι γ : Type*} {m : γ → List (Op ι ℂ)} {C D : List γ} {ψ φ χ : Amplitudes ι ℂ}

/-! ## Results -/

/-- The states the steps may end in, one for each choice of outcomes. -/
noncomputable def results (m : γ → List (Op ι ℂ)) (C : List γ) (ψ : Amplitudes ι ℂ) :
    List (Amplitudes ι ℂ) :=
  (run m C).map (· ψ)

theorem results_append (C D : List γ) (ψ : Amplitudes ι ℂ) :
    results m (C ++ D) ψ = (results m C ψ).flatMap (results m D) := by
  rw [results, run_append, andThen, List.map_flatMap, results, List.flatMap_map]
  refine List.flatMap_congr fun A _ ↦ ?_
  rw [List.map_map]
  rfl

theorem results_singleton (g : γ) (ψ : Amplitudes ι ℂ) : results m [g] ψ = (m g).map (· ψ) := by
  rw [results, run_cons, run_nil, andThen_one]

theorem results_zero (C : List γ) : results m C 0 = List.replicate (run m C).length 0 := by
  rw [results, List.eq_replicate_iff]
  refine ⟨List.length_map _, fun φ hφ ↦ ?_⟩
  obtain ⟨A, -, rfl⟩ := List.mem_map.mp hφ
  exact map_zero A

/-! ## Certain results -/

/-- All results but one are impossible. -/
def Certain (m : γ → List (Op ι ℂ)) (C : List γ) (ψ φ : Amplitudes ι ℂ) : Prop :=
  ∃ j, (results m C ψ).Perm (φ :: List.replicate j 0)

namespace Certain

theorem nil (ψ : Amplitudes ι ℂ) : Certain m [] ψ ψ := ⟨0, .refl _⟩

theorem append (hC : Certain m C ψ φ) (hD : Certain m D φ χ) : Certain m (C ++ D) ψ χ := by
  obtain ⟨i, hC⟩ := hC
  obtain ⟨j, hD⟩ := hD
  refine ⟨j + i * (run m D).length, ?_⟩
  have hzeros : (List.replicate i (0 : Amplitudes ι ℂ)).flatMap (results m D) =
      List.replicate (i * (run m D).length) 0 := by
    rw [List.flatMap_replicate, results_zero, List.flatten_replicate_replicate]
  calc (results m (C ++ D) ψ).Perm ((φ :: List.replicate i 0).flatMap (results m D)) := by
        rw [results_append]
        exact hC.flatMap_right _
    List.Perm _ (χ :: List.replicate j 0 ++ List.replicate (i * (run m D).length) 0) := by
        rw [List.flatMap_cons, hzeros]
        exact hD.append_right _
    _ = χ :: List.replicate (j + i * (run m D).length) 0 := by
        rw [List.cons_append, List.replicate_append_replicate]

theorem of_operators {op : γ → Op ι ℂ} (h : ∀ g ∈ C, m g = [op g]) (ψ : Amplitudes ι ℂ) :
    Certain m C ψ (compose op C ψ) := by
  refine ⟨0, ?_⟩
  rw [results, run_eq_compose h]
  exact .refl _

/-- A loop of steps that are certain and keep a state is certain and keeps the state. -/
theorem of_forall (h : ∀ g ∈ C, Certain m [g] ψ ψ) : Certain m C ψ ψ := by
  induction C with
  | nil => exact nil ψ
  | cons g C ih =>
    obtain ⟨hg, hC⟩ := List.forall_mem_cons.mp h
    exact hg.append (ih hC)

end Certain

/-! ## Chances -/

/-- The sum of the squares of the amplitudes of the basis states of a kind. -/
noncomputable def weight (p : Set (ι → Bool)) (ψ : Amplitudes ι ℂ) : ℝ≥0∞ :=
  tsum fun x : p ↦ ‖ψ x‖ₑ ^ 2

/-- The chance that the wires hold bits of a kind at the end. -/
noncomputable def chance (m : γ → List (Op ι ℂ)) (C : List γ) (ψ : Amplitudes ι ℂ)
    (p : Set (ι → Bool)) : ℝ≥0∞ :=
  ((results m C ψ).map (weight p)).sum

@[simp] theorem weight_zero (p : Set (ι → Bool)) : weight p 0 = 0 := by
  simp [weight]

theorem Certain.chance_append (hC : Certain m C ψ φ) (D : List γ) (p : Set (ι → Bool)) :
    chance m (C ++ D) ψ p = chance m D φ p := by
  obtain ⟨j, hC⟩ := hC
  have hzeros : ((List.replicate j (0 : Amplitudes ι ℂ)).flatMap (results m D)).map (weight p) =
      List.replicate (j * (run m D).length) 0 := by
    rw [List.flatMap_replicate, results_zero, List.flatten_replicate_replicate,
      List.map_replicate, weight_zero]
  have hperm := ((hC.flatMap_right (results m D)).map (weight p)).sum_eq
  rw [chance, results_append, hperm, List.flatMap_cons, List.map_append, List.sum_append, hzeros,
    List.sum_replicate, smul_zero, add_zero, chance]

/-- A step whose outcomes share out the square of every amplitude. -/
def Observes (m : γ → List (Op ι ℂ)) (g : γ) : Prop :=
  ∀ (ψ : Amplitudes ι ℂ) (x : ι → Bool), ((m g).map fun A ↦ ‖A ψ x‖ₑ ^ 2).sum = ‖ψ x‖ₑ ^ 2

theorem sum_weight (L : List (Op ι ℂ)) (ψ : Amplitudes ι ℂ) (p : Set (ι → Bool)) :
    (L.map fun A ↦ weight p (A ψ)).sum =
      tsum fun x : p ↦ (L.map fun A ↦ ‖A ψ x‖ₑ ^ 2).sum := by
  induction L with
  | nil => simp
  | cons A L ih =>
    simp only [List.map_cons, List.sum_cons, ih]
    exact ENNReal.tsum_add.symm

/-- **Observing does not change the chances of the wires.** -/
theorem chance_of_observes (h : ∀ g ∈ C, Observes m g) (ψ : Amplitudes ι ℂ)
    (p : Set (ι → Bool)) : chance m C ψ p = weight p ψ := by
  induction C generalizing ψ with
  | nil => simp [chance, results]
  | cons g C ih =>
    obtain ⟨hg, hC⟩ := List.forall_mem_cons.mp h
    have hsplit : ∀ L : List (Amplitudes ι ℂ),
        ((L.flatMap (results m C)).map (weight p)).sum = (L.map (weight p)).sum := by
      intro L
      induction L with
      | nil => rfl
      | cons φ L ihL =>
        rw [List.flatMap_cons, List.map_append, List.sum_append, ihL, List.map_cons,
          List.sum_cons]
        exact congrArg (· + _) (ih hC φ)
    rw [chance, ← List.singleton_append, results_append, hsplit, results_singleton, List.map_map]
    exact (sum_weight (m g) ψ p).trans (tsum_congr fun x ↦ hg ψ x)

/-! ## Sums of kets -/

section Kets

variable {α : Type*} {s : Finset α} {y : α → ι → Bool}

theorem sum_ket_apply (f : α → ℂ) (hy : Set.InjOn y s) {a : α} (ha : a ∈ s) :
    (∑ b ∈ s, f b • ket (y b)) (y a) = f a := by
  rw [Finset.sum_apply, Finset.sum_eq_single a]
  · rw [Pi.smul_apply, ket_apply, if_pos rfl, smul_eq_mul, mul_one]
  · intro b hb hba
    rw [Pi.smul_apply, ket_apply, if_neg fun h ↦ hba (hy hb ha h.symm), smul_zero]
  · exact fun h ↦ absurd ha h

theorem sum_ket_apply_of_ne (f : α → ℂ) {x : ι → Bool} (hx : ∀ a ∈ s, x ≠ y a) :
    (∑ b ∈ s, f b • ket (y b)) x = 0 := by
  rw [Finset.sum_apply]
  refine Finset.sum_eq_zero fun b hb ↦ ?_
  rw [Pi.smul_apply, ket_apply, if_neg (hx b hb), smul_zero]

/-- **The weight of a sum of different kets.** -/
theorem weight_sum_ket (f : α → ℂ) (hy : Set.InjOn y s) (p : Set (ι → Bool))
    [DecidablePred fun a ↦ y a ∈ p] :
    weight p (∑ a ∈ s, f a • ket (y a)) = ∑ a ∈ s with y a ∈ p, ‖f a‖ₑ ^ 2 := by
  classical
  set ψ := ∑ a ∈ s, f a • ket (y a) with hψ
  have hsupport : ∀ x ∉ (s.filter fun a ↦ y a ∈ p).image y,
      p.indicator (fun x ↦ ‖ψ x‖ₑ ^ 2) x = 0 := by
    intro x hx
    by_cases hp : x ∈ p
    · have hne : ∀ a ∈ s, x ≠ y a := by
        rintro a ha rfl
        exact hx (Finset.mem_image_of_mem y (Finset.mem_filter.mpr ⟨ha, hp⟩))
      rw [Set.indicator_of_mem hp, hψ, sum_ket_apply_of_ne f hne, enorm_zero, zero_pow two_ne_zero]
    · exact Set.indicator_of_notMem hp _
  have hsubset := Finset.coe_subset.mpr (Finset.filter_subset (fun a ↦ y a ∈ p) s)
  rw [weight, tsum_subtype p fun x ↦ ‖ψ x‖ₑ ^ 2, tsum_eq_sum hsupport,
    Finset.sum_image (hy.mono hsubset)]
  refine Finset.sum_congr rfl fun a ha ↦ ?_
  obtain ⟨ha, hp⟩ := Finset.mem_filter.mp ha
  rw [Set.indicator_of_mem hp, hψ, sum_ket_apply f hy ha]

end Kets

end Quantum
