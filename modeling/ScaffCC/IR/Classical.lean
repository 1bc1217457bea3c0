import ScaffCC.IR.Gate
import ScaffCC.Quantum.Diagonal
import ScaffCC.Quantum.Outcome
import ScaffCC.Reversible.Undo

/-!
# Calls on basis states

The calls of `X`, `CNOT` and `Toffoli` carry basis states to basis states, as the gates of a
reversible circuit do. A preparation in the Z basis of a wire that is clear is certain and does
nothing, and a measurement in the Z basis does not change the chances of the wires.
-/

namespace ScaffCC.GateCall

open Quantum

variable {ι : Type*} {C : List (GateCall ι)}

/-! ## Negations under controls -/

/-- The negations of a call. -/
def flips : GateCall ι → List (Reversible.Gate ι)
  | gate1 .X q => [⟨[], q⟩]
  | CNOT c t => [⟨[c], t⟩]
  | Toffoli c₁ c₂ t => [⟨[c₁, c₂], t⟩]
  | _ => []

/-- A call that is a negation under controls other than the target. -/
def IsFlip : GateCall ι → Prop
  | gate1 .X _ => True
  | CNOT c t => c ≠ t
  | Toffoli c₁ c₂ t => c₁ ≠ t ∧ c₂ ≠ t
  | _ => False

theorem IsFlip.isUnitary {g : GateCall ι} (h : g.IsFlip) : g.IsUnitary := by
  cases g with
  | gate1 g q => exact trivial
  | CNOT c t => exact trivial
  | Toffoli c₁ c₂ t => exact trivial
  | rot a q θ => exact h.elim
  | prep b q v => exact h.elim
  | meas b q => exact h.elim
  | Fredkin c a b => exact h.elim

theorem IsFlip.proper {g : GateCall ι} (h : g.IsFlip) : ∀ r ∈ g.flips, r.Proper := by
  cases g with
  | gate1 g q =>
    cases g with
    | X => exact List.forall_mem_singleton.mpr List.not_mem_nil
    | H | Y | Z | S | Sdag | T | Tdag => exact h.elim
  | CNOT c t => exact List.forall_mem_singleton.mpr (List.mem_singleton.not.mpr h.symm)
  | Toffoli c₁ c₂ t =>
    refine List.forall_mem_singleton.mpr fun ht ↦ ?_
    rcases List.mem_cons.mp ht with ht | ht
    · exact h.1 ht.symm
    · exact h.2 (List.mem_singleton.mp ht).symm
  | rot a q θ => exact h.elim
  | prep b q v => exact h.elim
  | meas b q => exact h.elim
  | Fredkin c a b => exact h.elim

theorem proper_of_mem_flips (h : ∀ g ∈ C, g.IsFlip) : ∀ r ∈ C.flatMap flips, r.Proper := by
  intro r hr
  obtain ⟨g, hg, hr⟩ := List.mem_flatMap.mp hr
  exact (h g hg).proper r hr

variable [DecidableEq ι]

theorem IsFlip.operator_ket {g : GateCall ι} (h : g.IsFlip) (x : ι → Bool) :
    g.operator (ket x) = ket (Reversible.run g.flips x) := by
  cases g with
  | gate1 g q =>
    cases g with
    | X =>
      rw [operator, Gate1.matrix, onWire_pauliX, flip_ket fun _ _ ↦ rfl]
      rfl
    | H | Y | Z | S | Sdag | T | Tdag => exact h.elim
  | CNOT c t =>
    have hindep : Indep (fun x : ι → Bool ↦ x c) t := fun x b ↦ Function.update_of_ne h b x
    rw [operator, flip_ket hindep, flips, Reversible.run_cons, Reversible.run_nil,
      Reversible.Gate.act, flipWhen, flipWhen, Reversible.Gate.fires, List.all_cons, List.all_nil,
      Bool.and_true]
  | Toffoli c₁ c₂ t =>
    have hindep : Indep (fun x : ι → Bool ↦ x c₁ && x c₂) t := fun x b ↦ by
      simp only [Function.update_of_ne h.1, Function.update_of_ne h.2]
    rw [operator, flip_ket hindep, flips, Reversible.run_cons, Reversible.run_nil,
      Reversible.Gate.act, flipWhen, flipWhen, Reversible.Gate.fires, List.all_cons, List.all_cons,
      List.all_nil, Bool.and_true]
  | rot a q θ => exact h.elim
  | prep b q v => exact h.elim
  | meas b q => exact h.elim
  | Fredkin c a b => exact h.elim

/-- **Negations carry kets along the reversible circuit.** -/
theorem compose_ket (h : ∀ g ∈ C, g.IsFlip) (x : ι → Bool) :
    compose operator C (ket x) = ket (Reversible.run (C.flatMap flips) x) := by
  induction C generalizing x with
  | nil => rfl
  | cons g C ih =>
    obtain ⟨hg, hC⟩ := List.forall_mem_cons.mp h
    rw [compose_cons, Module.End.mul_apply, hg.operator_ket, ih hC, List.flatMap_cons,
      Reversible.run_append]

theorem certain_flips (h : ∀ g ∈ C, g.IsFlip) {α : Type*} (s : Finset α) (f : α → ℂ)
    (y : α → ι → Bool) :
    Certain outcomes C (∑ a ∈ s, f a • ket (y a))
      (∑ a ∈ s, f a • ket (Reversible.run (C.flatMap flips) (y a))) := by
  have hunitary : ∀ g ∈ C, outcomes g = [operator g] :=
    fun g hg ↦ outcomes_of_isUnitary (h g hg).isUnitary
  have hcertain := Certain.of_operators hunitary (∑ a ∈ s, f a • ket (y a))
  simpa only [map_sum, map_smul, compose_ket h] using hcertain

theorem operator_Z_ket (q : ι) (x : ι → Bool) :
    (gate1 .Z q).operator (ket x) = (if x q then (-1 : ℂ) else 1) • ket x := by
  rw [operator, Gate1.matrix]
  ext y
  rw [onWire_phase_apply, Pi.smul_apply, smul_eq_mul, ket_apply]
  split_ifs <;> simp_all

/-! ## Preparations of clear wires -/

/-- The wire is clear in every basis state with an amplitude. -/
def Cleared (w : ι) (ψ : Amplitudes ι ℂ) : Prop := ∀ x, x w = true → ψ x = 0

omit [DecidableEq ι] in
theorem cleared_iff {w : ι} {ψ : Amplitudes ι ℂ} :
    Cleared w ψ ↔ diag (fun x ↦ if x w then 0 else 1) ψ = ψ := by
  constructor
  · intro h
    ext x
    rw [diag_apply]
    cases hx : x w
    · rw [if_neg Bool.false_ne_true, one_mul]
    · rw [if_pos rfl, zero_mul, h x hx]
  · intro h x hx
    rw [← h, diag_apply, if_pos hx, zero_mul]

omit [DecidableEq ι] in
theorem cleared_ket {w : ι} {x : ι → Bool} (h : x w = false) : Cleared w (ket x) := by
  intro y hy
  rw [ket_apply, if_neg]
  rintro rfl
  exact absurd (hy.symm.trans h) (Bool.false_ne_true ·.symm)

omit [DecidableEq ι] in
theorem cleared_sum {α : Type*} {s : Finset α} {w : ι} {ψ : α → Amplitudes ι ℂ} (f : α → ℂ)
    (h : ∀ a ∈ s, Cleared w (ψ a)) : Cleared w (∑ a ∈ s, f a • ψ a) := by
  intro x hx
  rw [Finset.sum_apply]
  refine Finset.sum_eq_zero fun a ha ↦ ?_
  rw [Pi.smul_apply, h a ha x hx, smul_zero]

omit [DecidableEq ι] in
theorem Cleared.keeps {w : ι} {ψ : Amplitudes ι ℂ} {A : Op ι ℂ} (h : Cleared w ψ)
    (hA : Keeps w A) : Cleared w (A ψ) := by
  rw [cleared_iff] at h ⊢
  have hcomm := LinearMap.congr_fun (hA fun b ↦ if b then 0 else 1).eq ψ
  rw [Module.End.mul_apply, Module.End.mul_apply, h] at hcomm
  exact hcomm.symm

theorem certain_prep {w : ι} {ψ : Amplitudes ι ℂ} (h : Cleared w ψ) :
    Certain outcomes [prep .z w 0] ψ ψ := by
  refine ⟨1, ?_⟩
  have hfalse : onWire w (Basis.z.matrix * ketBra false false) ψ = ψ := by
    ext x
    rw [Basis.matrix, one_mul, onWire_apply]
    cases hx : x w
    · simp [ketBra, ← hx, Function.update_eq_self]
    · simp [ketBra, h x hx]
  have htrue : onWire w (Basis.z.matrix * ketBra false true) ψ = 0 := by
    ext x
    rw [Basis.matrix, one_mul, onWire_apply, h _ (Function.update_self ..)]
    simp [ketBra]
  rw [results_singleton, outcomes]
  simp only [bne_self_eq_false, List.map_cons, List.map_nil, hfalse, htrue]
  exact .refl _

theorem compose_prep (l : List ℕ) (x : ℕ → ι) :
    compose operator (l.map fun j ↦ prep .z (x j) 0) = 1 := by
  induction l with
  | nil => rfl
  | cons j l ih => rw [List.map_cons, compose_cons, ih, operator, one_mul]

theorem compose_around_prep (A B : List (GateCall ι)) (l : List ℕ) (x : ℕ → ι) :
    compose operator (A ++ l.map (fun j ↦ prep .z (x j) 0) ++ B) =
      compose operator B * compose operator A := by
  rw [compose_append, compose_append, compose_prep, one_mul]

/-- **Preparations of wires that are clear** at first and kept up to there do nothing. -/
theorem certain_of_cleared {A B : List (GateCall ι)} (hA : ∀ g ∈ A, g.IsUnitary)
    (hB : ∀ g ∈ B, g.IsUnitary) {l : List ℕ} {x : ℕ → ι} {ψ : Amplitudes ι ℂ}
    (hclear : ∀ j ∈ l, Cleared (x j) ψ) (hkeeps : ∀ j ∈ l, ∀ g ∈ A, Keeps (x j) g.operator) :
    Certain outcomes (A ++ l.map (fun j ↦ prep .z (x j) 0) ++ B) ψ
      (compose operator (A ++ l.map (fun j ↦ prep .z (x j) 0) ++ B) ψ) := by
  have hunitary {D : List (GateCall ι)} (hD : ∀ g ∈ D, g.IsUnitary) (χ : Amplitudes ι ℂ) :
      Certain outcomes D χ (compose operator D χ) :=
    Certain.of_operators (fun g hg ↦ outcomes_of_isUnitary (hD g hg)) χ
  have hpreps : Certain outcomes (l.map fun j ↦ prep .z (x j) 0) (compose operator A ψ)
      (compose operator A ψ) := by
    refine Certain.of_forall fun g hg ↦ ?_
    obtain ⟨j, hj, rfl⟩ := List.mem_map.mp hg
    exact certain_prep ((hclear j hj).keeps (Keeps.compose (hkeeps j hj)))
  rw [compose_around_prep, Module.End.mul_apply]
  exact ((hunitary hA ψ).append hpreps).append (hunitary hB _)

/-! ## Negations of many wires -/

/-- The negations of the wires of a register with indices of a kind. -/
def negations (n : ℕ) (r : ℕ → ι) (p : ℕ → Bool) : List (GateCall ι) :=
  (Reversible.up 0 n).flatMap fun j ↦ if p j then [gate1 .X (r j)] else []

omit [DecidableEq ι] in
theorem mem_negations {n : ℕ} {r : ℕ → ι} {p : ℕ → Bool} {g : GateCall ι}
    (h : g ∈ negations n r p) : ∃ j < n, g = gate1 .X (r j) := by
  obtain ⟨j, hj, hg⟩ := List.mem_flatMap.mp h
  obtain ⟨-, hjn⟩ := Reversible.mem_up.mp hj
  split_ifs at hg
  · exact ⟨j, hjn, List.mem_singleton.mp hg⟩
  · exact absurd hg List.not_mem_nil

omit [DecidableEq ι] in
theorem isFlip_negations {n : ℕ} {r : ℕ → ι} {p : ℕ → Bool} :
    ∀ g ∈ negations n r p, g.IsFlip := by
  intro g hg
  obtain ⟨j, -, rfl⟩ := mem_negations hg
  exact trivial

/-- The basis state with the wires of a register with indices of a kind negated. -/
structure Negated (n : ℕ) (r : ℕ → ι) (p : ℕ → Bool) (z s : ι → Bool) : Prop where
  wire : ∀ j < n, s (r j) = (z (r j) ^^ p j)
  other : ∀ w, (∀ j < n, r j ≠ w) → s w = z w

theorem negated {n : ℕ} {r : ℕ → ι} (hr : Set.InjOn r (Set.Iio n)) (p : ℕ → Bool)
    (z : ι → Bool) :
    Negated n r p z (Reversible.run ((negations n r p).flatMap flips) z) := by
  have hflips : (negations n r p).flatMap flips =
      (Reversible.up 0 n).flatMap fun j ↦ if p j then [⟨[], r j⟩] else [] := by
    rw [negations, List.flatMap_assoc]
    refine List.flatMap_congr fun j _ ↦ ?_
    split_ifs <;> rfl
  -- the wires below the index are done
  have hloop : (∀ j < n, Reversible.run ((negations n r p).flatMap flips) z (r j) =
      (z (r j) ^^ (decide (j < n) && p j))) ∧ ∀ w, (∀ j < n, r j ≠ w) →
        Reversible.run ((negations n r p).flatMap flips) z w = z w := by
    rw [hflips]
    refine Reversible.run_up (P := fun i s ↦ (∀ j < n, s (r j) =
      (z (r j) ^^ (decide (j < i) && p j))) ∧ ∀ w, (∀ j < n, r j ≠ w) → s w = z w)
      (Nat.zero_le n) ⟨fun j _ ↦ ?_, fun _ _ ↦ rfl⟩ fun i s _ hi hs ↦ ?_
    · rw [decide_eq_false (Nat.not_lt_zero j), Bool.false_and, Bool.xor_false]
    have hact (w : ι) : Reversible.run (if p i then [⟨[], r i⟩] else []) s w =
        (s w ^^ (decide (w = r i) && p i)) := by
      cases p i
      · rw [if_neg Bool.false_ne_true, Bool.and_false, Bool.xor_false, Reversible.run_nil]
      · rw [if_pos rfl, Reversible.run_cons, Reversible.run_nil, Reversible.Gate.act_apply]
        by_cases hw : w = r i
        · rw [if_pos hw, decide_eq_true hw]
          rfl
        · rw [if_neg hw, decide_eq_false hw, Bool.false_and, Bool.xor_false]
    refine ⟨fun j hj ↦ ?_, fun w hw ↦ ?_⟩
    · rw [hact, hs.1 j hj, Bool.xor_assoc]
      congr 1
      by_cases hji : j = i
      · subst hji
        simp
      · have hne : r j ≠ r i := fun h ↦ hji (hr hj hi h)
        have hlt : j ≤ i ↔ j < i := by omega
        simp [hne, hlt]
    · rw [hact, hs.2 w hw, decide_eq_false (hw i hi).symm, Bool.false_and, Bool.xor_false]
  refine ⟨fun j hj ↦ ?_, hloop.2⟩
  rw [hloop.1 j hj, decide_eq_true hj, Bool.true_and]

theorem run_negations_run_negations {n : ℕ} {r : ℕ → ι} (hr : Set.InjOn r (Set.Iio n))
    (p : ℕ → Bool) (z : ι → Bool) :
    Reversible.run ((negations n r p).flatMap flips)
      (Reversible.run ((negations n r p).flatMap flips) z) = z := by
  obtain ⟨hwire, hother⟩ := negated hr p z
  obtain ⟨hwire', hother'⟩ := negated hr p (Reversible.run ((negations n r p).flatMap flips) z)
  funext w
  by_cases hw : ∃ j < n, r j = w
  · obtain ⟨j, hj, rfl⟩ := hw
    rw [hwire' j hj, hwire j hj, Bool.xor_assoc, Bool.xor_self, Bool.xor_false]
  · have hne : ∀ j < n, r j ≠ w := fun j hj h ↦ hw ⟨j, hj, h⟩
    rw [hother' w hne, hother w hne]

/-! ## Measurements -/

theorem observes_measZ (q : ι) : Observes outcomes (meas .z q) := by
  intro ψ x
  have hmatrix : ∀ b : Bool, onWire q (Basis.z.matrix * ketBra b b * Basis.z.matrix) ψ x =
      if x q = b then ψ x else 0 := by
    intro b
    rw [Basis.matrix, one_mul, mul_one, onWire_apply]
    cases hx : x q <;> cases b <;> simp [ketBra, ← hx, Function.update_eq_self]
  simp only [outcomes, List.map_cons, List.map_nil, List.sum_cons, List.sum_nil, hmatrix]
  cases x q <;> simp

end ScaffCC.GateCall
