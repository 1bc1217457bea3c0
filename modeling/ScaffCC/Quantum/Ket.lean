import ScaffCC.Quantum.Gate

/-!
# Basis states and phases

A ket is the state that is at one basis state. The gates are given on kets, and diagonal operators
by their phases, which are measured in half turns: phases of operators in sequence add up.

An operator often does to a family of states what a function does to their names, up to one phase
for all of them. This is `Maps`, that has rules for sequences and for inverses.
-/

open Complex

namespace Quantum

/-! ## Half turns -/

/-- The phase of `r` half turns. -/
noncomputable def cis (r : ℚ) : ℂ := exp ((r * Real.pi : ℝ) * I)

@[simp] theorem cis_zero : cis 0 = 1 := by
  simp [cis]

theorem cis_add (r s : ℚ) : cis (r + s) = cis r * cis s := by
  rw [cis, cis, cis, ← Complex.exp_add]
  push_cast
  ring_nf

@[simp] theorem norm_cis (r : ℚ) : ‖cis r‖ = 1 := Complex.norm_exp_ofReal_mul_I _

theorem cis_one : cis 1 = -1 := by
  rw [cis, Rat.cast_one, one_mul, Complex.exp_pi_mul_I]

theorem cis_two_mul_natCast (m : ℕ) : cis (2 * m) = 1 := by
  rw [cis, Complex.exp_eq_one_iff]
  refine ⟨m, ?_⟩
  push_cast
  ring

theorem cis_add_two_mul_natCast (r : ℚ) (m : ℕ) : cis (r + 2 * m) = cis r := by
  rw [cis_add, cis_two_mul_natCast, mul_one]

variable {ι : Type*}

/-! ## Kets -/

open Classical in
/-- The state at a basis state. -/
noncomputable def ket (x : ι → Bool) : Amplitudes ι ℂ := Pi.single x 1

open Classical in
theorem ket_apply (x y : ι → Bool) : ket x y = if y = x then 1 else 0 :=
  Pi.single_apply x 1 y

theorem reindex_ket {f h : (ι → Bool) → ι → Bool} (hf : ∀ x, f (h x) = x) (hh : ∀ x, h (f x) = x)
    (x : ι → Bool) : reindex ℂ f (ket x) = ket (h x) := by
  classical
  ext y
  have hiff : f y = x ↔ y = h x := by
    constructor
    · rintro rfl
      exact (hh y).symm
    · rintro rfl
      exact hf x
  simp only [reindex_apply, ket_apply, hiff]

variable [DecidableEq ι]

theorem flip_ket {t : ι} {p : (ι → Bool) → Bool} (hp : Indep p t) (x : ι → Bool) :
    flip ℂ t p (ket x) = ket (flipWhen t p x) :=
  reindex_ket (flipWhen_flipWhen hp) (flipWhen_flipWhen hp) x

theorem onWire_ket (q : ι) (u : Matrix Bool Bool ℂ) (x : ι → Bool) :
    onWire q u (ket x) = u false (x q) • ket (Function.update x q false) +
      u true (x q) • ket (Function.update x q true) := by
  classical
  ext y
  -- off the wire, `y` is either `x` or not
  have hupdate (b : Bool) : Function.update y q b = x ↔
      b = x q ∧ y = Function.update x q (y q) := by
    constructor
    · rintro rfl
      simp
    · rintro ⟨rfl, hy⟩
      rw [hy]
      simp
  have hvalue (b : Bool) : y = Function.update x q b ↔
      b = y q ∧ y = Function.update x q (y q) := by
    constructor
    · intro hy
      have hb : b = y q := by
        rw [hy]
        simp
      exact ⟨hb, hb ▸ hy⟩
    · rintro ⟨rfl, hy⟩
      exact hy
  rw [onWire_apply, Pi.add_apply, Pi.smul_apply, Pi.smul_apply, ket_apply, ket_apply, ket_apply,
    ket_apply]
  simp only [hupdate false, hupdate true, hvalue false, hvalue true]
  by_cases hy : y = Function.update x q (y q)
  · simp only [eq_true hy, and_true]
    cases y q <;> cases x q <;> simp
  · simp only [eq_false hy, and_false, if_false, mul_zero, smul_zero]

/-! ## Phases -/

/-- The diagonal operator with phases. -/
noncomputable def phases (φ : (ι → Bool) → ℚ) : Op ι ℂ where
  toFun ψ x := cis (φ x) * ψ x
  map_add' ψ χ := by
    ext x
    exact mul_add ..
  map_smul' c ψ := by
    ext x
    exact mul_left_comm ..

omit [DecidableEq ι] in
theorem phases_apply (φ : (ι → Bool) → ℚ) (ψ : Amplitudes ι ℂ) (x : ι → Bool) :
    phases φ ψ x = cis (φ x) * ψ x := rfl

omit [DecidableEq ι] in
theorem phases_mul (φ χ : (ι → Bool) → ℚ) : phases φ * phases χ = phases fun x ↦ φ x + χ x := by
  ext ψ x
  rw [Module.End.mul_apply, phases_apply, phases_apply, phases_apply, cis_add, mul_assoc]

omit [DecidableEq ι] in
theorem phases_zero : phases (fun _ : ι → Bool ↦ 0) = 1 := by
  ext ψ x
  rw [phases_apply, cis_zero, one_mul, Module.End.one_apply]

omit [DecidableEq ι] in
theorem phases_ket (φ : (ι → Bool) → ℚ) (x : ι → Bool) : phases φ (ket x) = cis (φ x) • ket x := by
  classical
  ext y
  rw [phases_apply, Pi.smul_apply, ket_apply, smul_eq_mul]
  split_ifs with h
  · rw [h]
  · rw [mul_zero, mul_zero]

theorem flip_mul_phases (t : ι) (p : (ι → Bool) → Bool) (φ : (ι → Bool) → ℚ) :
    flip ℂ t p * phases φ = (phases fun x ↦ φ (flipWhen t p x)) * flip ℂ t p := rfl

theorem onWire_rotZ (q : ι) (r : ℚ) :
    onWire q (rotZ (r * Real.pi)) = phases fun x ↦ if x q then r / 2 else -(r / 2) := by
  ext ψ x
  rw [rotZ, onWire_diagonal_apply, phases_apply]
  congr 1
  cases x q
  · rw [if_neg Bool.false_ne_true, if_neg Bool.false_ne_true, cis]
    congr 1
    push_cast
    ring
  · rw [if_pos rfl, if_pos rfl, cis]
    congr 1
    push_cast
    ring

theorem onWire_pauliX (q : ι) : onWire q pauliX = flip ℂ q fun _ ↦ true := by
  ext ψ x
  rw [onWire_apply, flip_apply, flipWhen, Bool.xor_true]
  cases x q <;> simp [pauliX]

/-- The Hadamard gate on a ket: the sum over the bit, with a half turn where both bits are set. -/
theorem onWire_hadamard_ket (q : ι) (x : ι → Bool) :
    onWire q hadamard (ket x) = invSqrtTwo • (ket (Function.update x q false) +
      cis (if x q then 1 else 0) • ket (Function.update x q true)) := by
  rw [onWire_ket, smul_add, smul_smul]
  congr 2
  cases x q
  · simp [hadamard, invSqrtTwo]
  · rw [if_pos rfl, cis_one]
    simp [hadamard, invSqrtTwo]

/-! ## Operators on families of states -/

/-- The operator carries the states `e` to the states `e'` along a function, up to a phase. -/
def Maps (A : Op ι ℂ) (e : (ι → Bool) → Amplitudes ι ℂ) (f : (ι → Bool) → ι → Bool)
    (e' : (ι → Bool) → Amplitudes ι ℂ) : Prop :=
  ∃ g : ℂ, ‖g‖ = 1 ∧ ∀ x, A (e x) = g • e' (f x)

namespace Maps

variable {A B : Op ι ℂ} {e e' e'' : (ι → Bool) → Amplitudes ι ℂ} {f h : (ι → Bool) → ι → Bool}

omit [DecidableEq ι] in
theorem of_eq (hA : ∀ x, A (e x) = e' (f x)) : Maps A e f e' :=
  ⟨1, norm_one, fun x ↦ by rw [one_smul, hA]⟩

omit [DecidableEq ι] in
theorem comp (hA : Maps A e f e') (hB : Maps B e' h e'') : Maps (B * A) e (h ∘ f) e'' := by
  obtain ⟨g, hg, hA⟩ := hA
  obtain ⟨g', hg', hB⟩ := hB
  refine ⟨g * g', by rw [norm_mul, hg, hg', one_mul], fun x ↦ ?_⟩
  rw [Module.End.mul_apply, hA, map_smul, hB, smul_smul, Function.comp_apply]

omit [DecidableEq ι] in
theorem of_leftInverse (hA : Maps A e f e') (hinv : B * A = 1) (hf : ∀ x, f (h x) = x) :
    Maps B e' h e := by
  obtain ⟨g, hg, hA⟩ := hA
  have hg₀ : g ≠ 0 := fun h₀ ↦ by simp [h₀] at hg
  refine ⟨g⁻¹, by rw [norm_inv, hg, inv_one], fun x ↦ ?_⟩
  have hback : B (A (e (h x))) = e (h x) := LinearMap.congr_fun hinv (e (h x))
  rw [hA, hf, map_smul] at hback
  rw [← hback, smul_smul, inv_mul_cancel₀ hg₀, one_smul]

end Maps

/-- The operator carries the states `e` with names in a set to the states `e'`, up to a phase. -/
def MapsOn (S : Set (ι → Bool)) (A : Op ι ℂ) (e : (ι → Bool) → Amplitudes ι ℂ)
    (f : (ι → Bool) → ι → Bool) (e' : (ι → Bool) → Amplitudes ι ℂ) : Prop :=
  ∃ g : ℂ, ‖g‖ = 1 ∧ ∀ x ∈ S, A (e x) = g • e' (f x)

omit [DecidableEq ι] in
theorem Maps.mapsOn {A : Op ι ℂ} {e e' : (ι → Bool) → Amplitudes ι ℂ}
    {f : (ι → Bool) → ι → Bool} (hA : Maps A e f e') (S : Set (ι → Bool)) : MapsOn S A e f e' := by
  obtain ⟨g, hg, hA⟩ := hA
  exact ⟨g, hg, fun x _ ↦ hA x⟩

omit [DecidableEq ι] in
theorem ket_eq_of_smul_eq {g g' : ℂ} (hg : g ≠ 0) {x y : ι → Bool} (h : g • ket x = g' • ket y) :
    x = y := by
  classical
  by_contra hne
  have hx := congrFun h x
  rw [Pi.smul_apply, Pi.smul_apply, ket_apply, ket_apply, if_pos rfl, if_neg hne, smul_zero,
    smul_eq_mul, mul_one] at hx
  exact hg hx

namespace MapsOn

variable {A B : Op ι ℂ} {e e' e'' : (ι → Bool) → Amplitudes ι ℂ} {f h : (ι → Bool) → ι → Bool}
  {S T : Set (ι → Bool)}

omit [DecidableEq ι] in
theorem comp (hA : MapsOn S A e f e') (hf : Set.MapsTo f S T) (hB : MapsOn T B e' h e'') :
    MapsOn S (B * A) e (h ∘ f) e'' := by
  obtain ⟨g, hg, hA⟩ := hA
  obtain ⟨g', hg', hB⟩ := hB
  refine ⟨g * g', by rw [norm_mul, hg, hg', one_mul], fun x hx ↦ ?_⟩
  rw [Module.End.mul_apply, hA x hx, map_smul, hB _ (hf hx), smul_smul, Function.comp_apply]

omit [DecidableEq ι] in
theorem mono (hA : MapsOn S A e f e') (hTS : T ⊆ S) : MapsOn T A e f e' := by
  obtain ⟨g, hg, hA⟩ := hA
  exact ⟨g, hg, fun x hx ↦ hA x (hTS hx)⟩

omit [DecidableEq ι] in
theorem congr (hA : MapsOn S A e f e') (hfh : Set.EqOn f h S) : MapsOn S A e h e' := by
  obtain ⟨g, hg, hA⟩ := hA
  exact ⟨g, hg, fun x hx ↦ by rw [hA x hx, hfh hx]⟩

omit [DecidableEq ι] in
theorem of_leftInverse (hA : MapsOn S A e f e') (hinv : B * A = 1) (hh : Set.MapsTo h T S)
    (hf : ∀ x ∈ T, f (h x) = x) : MapsOn T B e' h e := by
  obtain ⟨g, hg, hA⟩ := hA
  have hg₀ : g ≠ 0 := fun h₀ ↦ by simp [h₀] at hg
  refine ⟨g⁻¹, by rw [norm_inv, hg, inv_one], fun x hx ↦ ?_⟩
  have hback : B (A (e (h x))) = e (h x) := LinearMap.congr_fun hinv (e (h x))
  rw [hA _ (hh hx), hf x hx, map_smul] at hback
  rw [← hback, smul_smul, inv_mul_cancel₀ hg₀, one_smul]

omit [DecidableEq ι] in
/-- **An operator carries kets along one function only.** -/
theorem iff_eqOn (hA : MapsOn S A ket f ket) : MapsOn S A ket h ket ↔ Set.EqOn f h S := by
  constructor
  · rintro ⟨g', -, hA'⟩ x hx
    obtain ⟨g, hg, hA⟩ := hA
    have hg₀ : g ≠ 0 := fun h₀ ↦ by simp [h₀] at hg
    exact ket_eq_of_smul_eq hg₀ ((hA x hx).symm.trans (hA' x hx))
  · exact hA.congr

end MapsOn

end Quantum
