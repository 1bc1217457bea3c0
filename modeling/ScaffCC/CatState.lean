import ScaffCC.IR.Classical
import ScaffCC.Quantum.Fourier

/-!
# Cat states

A Hadamard gate on the first qubit and a chain of controlled negations make the sum of the state
with all bits clear and the state with all bits set. The gates in the opposite order undo them,
whatever the register holds.
-/

namespace ScaffCC.CatState

open GateCall Quantum
open Reversible (up down)

variable {ι : Type*} {bit : ℕ → ι} {n : ℕ} {z : ι → Bool}

/-! ## The source -/

def catN (bit : ℕ → ι) (n : ℕ) : List (GateCall ι) :=
  [gate1 .H (bit 0)] ++ (up 1 n).map fun i ↦ CNOT (bit (i - 1)) (bit i)

def unCatN (bit : ℕ → ι) (n : ℕ) : List (GateCall ι) :=
  (down 1 n).map (fun i ↦ CNOT (bit (i - 1)) (bit i)) ++ [gate1 .H (bit 0)]

/-! ## The chain -/

theorem isFlip_chain (h : Set.InjOn bit (Set.Iio n)) :
    ∀ g ∈ (up 1 n).map fun i ↦ CNOT (bit (i - 1)) (bit i), g.IsFlip := by
  intro g hg
  obtain ⟨i, hi, rfl⟩ := List.mem_map.mp hg
  obtain ⟨hi₁, hi₂⟩ := Reversible.mem_up.mp hi
  intro heq
  have hsame := h (show i - 1 < n by omega) hi₂ heq
  omega

variable [DecidableEq ι]

/-- **The chain copies the first bit** to the others, that are clear. -/
theorem run_chain (h : Set.InjOn bit (Set.Iio n)) (hn : 1 ≤ n) (c : Bool)
    (hz : ∀ i < n, z (bit i) = false) :
    Reversible.run (((up 1 n).map fun i ↦ CNOT (bit (i - 1)) (bit i)).flatMap flips)
      (Function.update z (bit 0) c) = place bit n (if c then 2 ^ n - 1 else 0) z := by
  have hne {i j : ℕ} (hi : i < n) (hj : j < n) (hij : i ≠ j) : bit i ≠ bit j :=
    fun heq ↦ hij (h hi hj heq)
  have hbits {j : ℕ} (hj : j < n) : (if c then 2 ^ n - 1 else 0).testBit j = c := by
    cases c
    · exact Nat.zero_testBit j
    · rw [if_pos rfl, Nat.testBit_two_pow_sub_one, decide_eq_true hj]
  rw [List.flatMap_map]
  -- the wires below the index hold the first bit
  have hloop := Reversible.run_up hn (P := fun i s ↦
      (∀ j < n, s (bit j) = (decide (j < i) && c)) ∧ ∀ w, (∀ j < n, bit j ≠ w) → s w = z w)
    (B := fun i ↦ flips (CNOT (bit (i - 1)) (bit i))) (s := Function.update z (bit 0) c)
    ⟨fun j hj ↦ ?_, fun w hw ↦ ?_⟩ fun i s hi₁ hi hs ↦ ?_
  · refine eq_place h (fun j hj ↦ ?_) hloop.2
    rw [hloop.1 j hj, decide_eq_true hj, Bool.true_and, hbits hj]
  · rcases Nat.eq_zero_or_pos j with rfl | hpos
    · rw [Function.update_self, decide_eq_true one_pos, Bool.true_and]
    · rw [Function.update_of_ne (hne hj hn (by omega)), hz j hj,
        decide_eq_false (by omega), Bool.false_and]
  · exact Function.update_of_ne (hw 0 hn).symm c z
  · have hprev : s (bit (i - 1)) = c := by
      rw [hs.1 (i - 1) (by omega), decide_eq_true (by omega), Bool.true_and]
    have hact (w : ι) : Reversible.run (flips (CNOT (bit (i - 1)) (bit i))) s w =
        if w = bit i then s w ^^ c else s w := by
      rw [flips, Reversible.run_cons, Reversible.run_nil, Reversible.Gate.act_apply,
        Reversible.Gate.fires, List.all_cons, List.all_nil, Bool.and_true, hprev]
    refine ⟨fun j hj ↦ ?_, fun w hw ↦ ?_⟩
    · rw [hact, hs.1 j hj]
      by_cases hji : j = i
      · subst hji
        simp
      · have hlt : j ≤ i ↔ j < i := by omega
        rw [if_neg (hne hj hi hji)]
        simp [hlt]
    · rw [hact, if_neg (hw i hi).symm, hs.2 w hw]

/-! ## The programs -/

omit [DecidableEq ι] in
theorem isUnitary_catN (h : Set.InjOn bit (Set.Iio n)) : ∀ g ∈ catN bit n, g.IsUnitary := by
  rw [catN, List.singleton_append]
  exact List.forall_mem_cons.mpr ⟨trivial, fun g hg ↦ (isFlip_chain h g hg).isUnitary⟩

omit [DecidableEq ι] in
theorem unCatN_eq (bit : ℕ → ι) (n : ℕ) : unCatN bit n = (catN bit n).reverse := by
  rw [unCatN, catN, List.reverse_append, down, List.map_reverse, List.reverse_singleton]

/-- From a clear register the program makes the sum of the two constant states. -/
theorem results_catN (h : Set.InjOn bit (Set.Iio n)) (hn : 1 ≤ n)
    (hz : ∀ i < n, z (bit i) = false) :
    results outcomes (catN bit n) (ket z) =
      [invSqrtTwo • (ket (place bit n 0 z) + ket (place bit n (2 ^ n - 1) z))] := by
  rw [results, ← circuit, circuit_of_isUnitary (isUnitary_catN h), List.map_singleton, catN,
    compose_append, Module.End.mul_apply, compose_cons, compose_nil, one_mul, operator,
    Gate1.matrix, onWire_hadamard_ket, hz 0 hn, if_neg Bool.false_ne_true, cis_zero, one_smul,
    map_smul, map_add, compose_ket (isFlip_chain h), compose_ket (isFlip_chain h),
    run_chain h hn _ hz, run_chain h hn _ hz, if_neg Bool.false_ne_true, if_pos rfl]

theorem circuit_catN_unCatN (h : Set.InjOn bit (Set.Iio n)) :
    circuit (catN bit n ++ unCatN bit n) = [1] := by
  have hinvolution : ∀ g ∈ catN bit n, operator (id g) * operator g = 1 := by
    rw [catN, List.singleton_append]
    refine List.forall_mem_cons.mpr ⟨?_, fun g hg ↦ ?_⟩
    · rw [id, operator, Gate1.matrix, onWire_mul, hadamard_mul_self, onWire_one]
    · have hflip := isFlip_chain h g hg
      obtain ⟨i, -, rfl⟩ := List.mem_map.mp hg
      exact flip_mul_self fun x b ↦ Function.update_of_ne hflip b x
  have hunitary : ∀ g ∈ catN bit n ++ unCatN bit n, g.IsUnitary := by
    intro g hg
    rw [unCatN_eq, List.mem_append, List.mem_reverse, or_self] at hg
    exact isUnitary_catN h g hg
  have hundo := compose_append_reverse_map id hinvolution
  rw [List.map_id] at hundo
  rw [circuit_of_isUnitary hunitary, unCatN_eq, hundo]

/-- **The cat state**: from a clear register the program makes the sum of the two constant states,
and whatever the register holds, the inverse program undoes it. -/
theorem cat_state (h : Set.InjOn bit (Set.Iio n)) (hn : 1 ≤ n) :
    (∀ z : ι → Bool, (∀ i < n, z (bit i) = false) →
      results outcomes (catN bit n) (ket z) =
        [invSqrtTwo • (ket (place bit n 0 z) + ket (place bit n (2 ^ n - 1) z))]) ∧
      ∀ ψ : Amplitudes ι ℂ, results outcomes (catN bit n ++ unCatN bit n) ψ = [ψ] := by
  refine ⟨fun z hz ↦ results_catN h hn hz, fun ψ ↦ ?_⟩
  rw [results, ← circuit, circuit_catN_unCatN h, List.map_singleton, Module.End.one_apply]

/-- The program of the source has four qubits. -/
theorem cat_state_four :
    (∀ z : ℕ → Bool, (∀ i < 4, z (id i) = false) →
      results outcomes (catN id 4) (ket z) =
        [invSqrtTwo • (ket (place id 4 0 z) + ket (place id 4 (2 ^ 4 - 1) z))]) ∧
      ∀ ψ : Amplitudes ℕ ℂ, results outcomes (catN id 4 ++ unCatN id 4) ψ = [ψ] :=
  cat_state Function.injective_id.injOn (by norm_num)

end ScaffCC.CatState
