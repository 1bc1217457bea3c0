import ScaffCC.Quantum.Hadamard
import ScaffCC.SquareRoot.Program

/-!
# The marking and the diffusion

The marking changes the sign of the basis states with the polynomial `x` in the register, or flips
the result qubit there. The diffusion is a reflection: between the Hadamard gates it changes the
sign of the state with a clear register, so that it takes twice the mean off every amplitude.
-/

namespace ScaffCC.SquareRoot

open GateCall Quantum
open Reversible (up down)

variable {ι : Type*} [DecidableEq ι] {n : ℕ} {b q x : ℕ → ι} {t : ι} {z : ι → Bool}

/-! ## The marking -/

structure MarkWires (n : ℕ) (b : ℕ → ι) (t : ι) (x : ℕ → ι) : Prop extends Scratch n b x where
  result_b : ∀ i < n, b i ≠ t
  result_x : ∀ j < n - 1, x j ≠ t

omit [DecidableEq ι] in
theorem EQxMark_eq (n : ℕ) (b : ℕ → ι) (t : ι) (x : ℕ → ι) (tF : ℤ) : EQxMark n b t x tF =
    negations n b (· ≠ 1) ++ (up 0 (n - 1)).map (fun j ↦ prep .z (x j) 0) ++
      (compute n b x ++ (if tF ≠ 0 then [CNOT (x (n - 2)) t] else [gate1 .Z (x (n - 2))]) ++
        undo n b x ++ negations n b (· ≠ 1)) := by
  simp only [EQxMark, negations, decide_eq_true_eq, List.append_assoc]

theorem keeps_negations {w : ι} {p : ℕ → Bool} (h : ∀ i < n, q i ≠ w) :
    ∀ g ∈ negations n q p, Keeps w g.operator := by
  intro g hg
  obtain ⟨j, hj, rfl⟩ := mem_negations hg
  exact Keeps.onWire (h j hj) _

omit [DecidableEq ι] in
theorem testBit_two (k : ℕ) : Nat.testBit 2 k = decide (1 = k) := by
  have hbit : Nat.testBit (2 ^ 1) k = decide (1 = k) := Nat.testBit_two_pow
  rwa [pow_one] at hbit

omit [DecidableEq ι] in
theorem allSet_negated (hn : 2 ≤ n) {s : ι → Bool} (hs : Negated n b (· ≠ 1) z s) :
    allSet n b s = decide (number b n z = 2) := by
  have hlt : 2 < 2 ^ n := lt_of_lt_of_le (by norm_num) (Nat.pow_le_pow_right two_pos hn)
  have htwo : Reversible.value n (Nat.testBit 2) = 2 := by
    rw [Reversible.value_testBit, Nat.mod_eq_of_lt hlt]
  have hbits : number b n z = 2 ↔ ∀ k < n, z (b k) = Nat.testBit 2 k := by
    rw [number, ← Reversible.value_inj, htwo]
  rw [Bool.eq_iff_iff, allSet, decide_eq_true_iff, decide_eq_true_iff, hbits]
  refine forall₂_congr fun k hk ↦ ?_
  rw [hs.wire k hk, testBit_two]
  by_cases hk₁ : k = 1
  · simp [hk₁]
  · simp [hk₁, Ne.symm hk₁]

section Mark

variable (h : MarkWires n b t x) (hn : 2 ≤ n)

include h hn

theorem certain_EQxMark (tF : ℤ) {ψ : Amplitudes ι ℂ} (hψ : ∀ j < n - 1, Cleared (x j) ψ) :
    Certain outcomes (EQxMark n b t x tF) ψ (compose operator (EQxMark n b t x tF) ψ) := by
  rw [EQxMark_eq]
  refine certain_of_cleared (fun g hg ↦ (isFlip_negations g hg).isUnitary) (fun g hg ↦ ?_)
    (fun j hj ↦ hψ j (Reversible.mem_up.mp hj).2) fun j hj ↦
      keeps_negations fun i hi ↦ h.apart i hi j (Reversible.mem_up.mp hj).2
  rcases List.mem_append.mp hg with hg | hg
  · rcases List.mem_append.mp hg with hg | hg
    · rcases List.mem_append.mp hg with hg | hg
      · exact (isFlip_compute h.toScratch hn g hg).isUnitary
      · split_ifs at hg
        · rw [List.mem_singleton.mp hg]
          exact trivial
        · rw [List.mem_singleton.mp hg]
          exact trivial
    · exact (isFlip_undo h.toScratch hn g hg).isUnitary
  · exact (isFlip_negations g hg).isUnitary

theorem compose_EQxMark_zero (hz : Clear n x z) : compose operator (EQxMark n b t x 0) (ket z) =
    (if number b n z = 2 then (-1 : ℂ) else 1) • ket z := by
  have hs := negated h.injOn_q (· ≠ 1) z
  have hclear : Clear n x (Reversible.run ((negations n b (· ≠ 1)).flatMap flips) z) :=
    fun j hj ↦ (hs.other _ fun i hi ↦ h.apart i hi j hj).trans (hz j hj)
  rw [EQxMark_eq, if_neg (not_not_intro rfl), compose_around_prep,
    compose_append _ (negations n b (· ≠ 1)), Module.End.mul_apply, Module.End.mul_apply,
    compose_ket isFlip_negations, compose_phase h.toScratch hn hclear, allSet_negated hn hs,
    map_smul, compose_ket isFlip_negations, run_negations_run_negations h.injOn_q]
  simp only [decide_eq_true_eq]

theorem compose_EQxMark_of_ne {tF : ℤ} (htF : tF ≠ 0) (hz : Clear n x z) :
    compose operator (EQxMark n b t x tF) (ket z) =
      ket (Function.update z t (z t ^^ decide (number b n z = 2))) := by
  have hs := negated h.injOn_q (· ≠ 1) z
  have hclear : Clear n x (Reversible.run ((negations n b (· ≠ 1)).flatMap flips) z) :=
    fun j hj ↦ (hs.other _ fun i hi ↦ h.apart i hi j hj).trans (hz j hj)
  have havoids : ∀ r ∈ (negations n b (· ≠ 1)).flatMap flips, r.Avoids t := by
    intro r hr
    obtain ⟨g, hg, hr⟩ := List.mem_flatMap.mp hr
    obtain ⟨j, hj, rfl⟩ := mem_negations hg
    rw [List.mem_singleton.mp hr]
    exact ⟨List.not_mem_nil, (h.result_b j hj).symm⟩
  rw [EQxMark_eq, if_pos htF, compose_around_prep, compose_append _ (negations n b (· ≠ 1)),
    Module.End.mul_apply, Module.End.mul_apply,
    compose_ket isFlip_negations, compose_flag h.toScratch hn hclear h.result_b h.result_x,
    allSet_negated hn hs, compose_ket isFlip_negations, Reversible.run_update havoids,
    run_negations_run_negations h.injOn_q, hs.other t h.result_b]

end Mark

/-! ## The diffusion -/

omit [DecidableEq ι] in
theorem diffuse_eq (n : ℕ) (q x : ℕ → ι) : diffuse n q x =
    (up 0 n).map (fun j ↦ gate1 .H (q j)) ++ negations n q (fun _ ↦ true) ++
      (up 0 (n - 1)).map (fun j ↦ prep .z (x j) 0) ++
      (compute n q x ++ [gate1 .Z (x (n - 2))] ++ undo n q x ++ negations n q (fun _ ↦ true) ++
        (up 0 n).map (fun j ↦ gate1 .H (q j))) := by
  have hmap : (up 0 n).map (fun j ↦ gate1 .X (q j)) = negations n q (fun _ ↦ true) := by
    rw [negations, ← List.flatMap_pure_eq_map]
    rfl
  simp only [diffuse, hmap, List.append_assoc]

theorem compose_hadamards (n : ℕ) (q : ℕ → ι) :
    compose operator ((up 0 n).map fun j ↦ gate1 .H (q j)) = layer q n := by
  induction n with
  | zero => rfl
  | succ n ih =>
    rw [Reversible.up_succ_right (Nat.zero_le n), List.map_append, compose_append, ih]
    exact congrArg (· * _) (one_mul _)

omit [DecidableEq ι] in
theorem allSet_negated_all {s : ι → Bool} (hs : Negated n q (fun _ ↦ true) z s) :
    allSet n q s = decide (number q n z = 0) := by
  have hzero : Reversible.value n (Nat.testBit 0) = 0 := by
    rw [Reversible.value_testBit, Nat.zero_mod]
  have hbits : number q n z = 0 ↔ ∀ k < n, z (q k) = Nat.testBit 0 k := by
    rw [number, ← Reversible.value_inj, hzero]
  rw [Bool.eq_iff_iff, allSet, decide_eq_true_iff, decide_eq_true_iff, hbits]
  refine forall₂_congr fun k hk ↦ ?_
  rw [hs.wire k hk, Nat.zero_testBit, Bool.xor_true, Bool.not_eq_true']

omit [DecidableEq ι] in
theorem Scratch.clear_place [DecidableEq ι] (h : Scratch n q x) (hz : Clear n x z) (v : ℕ) :
    Clear n x (place q n v z) :=
  fun j hj ↦ (place_of_ne (fun s hs ↦ h.apart s hs j hj) v z).trans (hz j hj)

section Diffuse

variable (h : Scratch n q x) (hn : 2 ≤ n)

include h hn

theorem certain_diffuse {ψ : Amplitudes ι ℂ} (hψ : ∀ j < n - 1, Cleared (x j) ψ) :
    Certain outcomes (diffuse n q x) ψ (compose operator (diffuse n q x) ψ) := by
  have hhadamards : ∀ g ∈ (up 0 n).map fun j ↦ gate1 .H (q j), ∃ j < n, g = gate1 .H (q j) := by
    intro g hg
    obtain ⟨j, hj, rfl⟩ := List.mem_map.mp hg
    exact ⟨j, (Reversible.mem_up.mp hj).2, rfl⟩
  have hunitary : ∀ g ∈ (up 0 n).map fun j ↦ gate1 .H (q j), g.IsUnitary := by
    intro g hg
    obtain ⟨j, -, rfl⟩ := hhadamards g hg
    exact trivial
  have hnegations : ∀ g ∈ negations n q (fun _ ↦ true), g.IsUnitary :=
    fun g hg ↦ (isFlip_negations g hg).isUnitary
  rw [diffuse_eq]
  refine certain_of_cleared ?_ ?_ (fun j hj ↦ hψ j (Reversible.mem_up.mp hj).2) fun j hj g hg ↦ ?_
  · exact List.forall_mem_append.mpr ⟨hunitary, hnegations⟩
  · simp only [List.forall_mem_append, List.forall_mem_singleton]
    exact ⟨⟨⟨⟨fun g hg ↦ (isFlip_compute h hn g hg).isUnitary, trivial⟩,
      fun g hg ↦ (isFlip_undo h hn g hg).isUnitary⟩, hnegations⟩, hunitary⟩
  · have hne : ∀ i < n, q i ≠ x j := fun i hi ↦ h.apart i hi j (Reversible.mem_up.mp hj).2
    rcases List.mem_append.mp hg with hg | hg
    · obtain ⟨i, hi, rfl⟩ := hhadamards g hg
      exact Keeps.onWire (hne i hi) _
    · exact keeps_negations hne g hg

theorem compose_middle (hz : Clear n x z) :
    compose operator (negations n q (fun _ ↦ true) ++
      (compute n q x ++ [gate1 .Z (x (n - 2))] ++ undo n q x) ++
        negations n q (fun _ ↦ true)) (ket z) =
      (if number q n z = 0 then (-1 : ℂ) else 1) • ket z := by
  have hs := negated h.injOn_q (fun _ ↦ true) z
  have hclear : Clear n x (Reversible.run ((negations n q fun _ ↦ true).flatMap flips) z) :=
    fun j hj ↦ (hs.other _ fun i hi ↦ h.apart i hi j hj).trans (hz j hj)
  rw [compose_append, compose_append (negations n q fun _ ↦ true), Module.End.mul_apply,
    Module.End.mul_apply, compose_ket isFlip_negations, compose_phase h hn hclear,
    allSet_negated_all hs, map_smul, compose_ket isFlip_negations,
    run_negations_run_negations h.injOn_q]
  simp only [decide_eq_true_eq]

/-- **The diffusion takes twice the mean off every amplitude.** -/
theorem compose_diffuse (hz : Clear n x z) (f : ℕ → ℂ) :
    compose operator (diffuse n q x)
        (∑ v ∈ Finset.range (2 ^ n), f v • ket (place q n v z)) =
      ∑ v ∈ Finset.range (2 ^ n),
        Search.reflect (Finset.range (2 ^ n)) f v • ket (place q n v z) := by
  have hsign : ∀ v < 2 ^ n, compose operator (negations n q (fun _ ↦ true) ++
      (compute n q x ++ [gate1 .Z (x (n - 2))] ++ undo n q x) ++
        negations n q (fun _ ↦ true)) (ket (place q n v z)) =
      (if v = 0 then (-1 : ℂ) else 1) • ket (place q n v z) := by
    intro v hv
    rw [compose_middle h hn (h.clear_place hz v), number_place h.injOn_q, Nat.mod_eq_of_lt hv]
  rw [← layer_sign_layer h.injOn_q hsign, diffuse_eq, compose_around_prep]
  simp only [compose_append, compose_hadamards, Module.End.mul_apply]

end Diffuse

end ScaffCC.SquareRoot
