import Mathlib.Algebra.Module.LinearMap.End
import Mathlib.Data.Matrix.Mul
import Mathlib.Data.Matrix.Diagonal
import Mathlib.LinearAlgebra.Pi

/-!
# Operators on registers of wires

A register is indexed by an arbitrary type `ι` of wires, its basis states are the functions
`ι → Bool`, and a state assigns an amplitude to every basis state. Every operation used here acts
on finitely many wires, so no finiteness of `ι` is needed: an operator reads the amplitudes of
finitely many neighbours of a basis state, and equality of two operators is equality on every
register at once.

Three families cover everything the developments above this file need: a matrix applied to one
wire, the reindexing of basis states along a function, and the flip of one wire under a condition
on the others. The commutation lemmas are stated for these families, with the condition that makes
them true as an explicit hypothesis on wires.
-/

namespace Quantum

variable {ι R : Type*} [DecidableEq ι] [CommSemiring R]

/-- The states of a register: one amplitude for each basis state. -/
abbrev Amplitudes (ι R : Type*) := (ι → Bool) → R

/-- The operators on a register. Multiplication is composition, so the left factor acts last. -/
abbrev Op (ι R : Type*) [CommSemiring R] := Module.End R (Amplitudes ι R)

/-! ## A matrix on one wire -/

/-- The matrix `u` applied to wire `q`. -/
def onWire (q : ι) (u : Matrix Bool Bool R) : Op ι R where
  toFun ψ x := u (x q) false * ψ (Function.update x q false)
    + u (x q) true * ψ (Function.update x q true)
  map_add' ψ φ := by
    ext x
    simp only [Pi.add_apply]
    ring
  map_smul' c ψ := by
    ext x
    simp only [Pi.smul_apply, smul_eq_mul, RingHom.id_apply]
    ring

theorem onWire_apply (q : ι) (u : Matrix Bool Bool R) (ψ : Amplitudes ι R) (x : ι → Bool) :
    onWire q u ψ x = u (x q) false * ψ (Function.update x q false)
      + u (x q) true * ψ (Function.update x q true) := rfl

theorem onWire_mul (q : ι) (u v : Matrix Bool Bool R) :
    onWire q u * onWire q v = onWire q (u * v) := by
  ext ψ x
  simp only [Module.End.mul_apply, onWire_apply, Function.update_self, Function.update_idem,
    Matrix.mul_apply, Fintype.sum_bool]
  ring

@[simp] theorem onWire_one (q : ι) : onWire q (1 : Matrix Bool Bool R) = 1 := by
  ext ψ x
  rw [onWire_apply, Module.End.one_apply]
  cases hx : x q <;> simp [← hx, Function.update_eq_self]

theorem onWire_injective (q : ι) :
    Function.Injective (onWire q : Matrix Bool Bool R → Op ι R) := by
  intro u v h
  ext i j
  -- read the entry off at the basis states that are `j` on the wire
  have hψ := congrFun (LinearMap.congr_fun h fun y ↦ if y q = j then 1 else 0) fun _ ↦ i
  simp only [onWire_apply, Function.update_self] at hψ
  cases j <;> simpa using hψ

theorem commute_onWire {q r : ι} (h : q ≠ r) (u v : Matrix Bool Bool R) :
    Commute (onWire q u) (onWire r v) := by
  ext ψ x
  simp only [Module.End.mul_apply, onWire_apply, Function.update_of_ne h,
    Function.update_of_ne h.symm, Function.update_comm h]
  ring

theorem onWire_diagonal_apply (q : ι) (d : Bool → R) (ψ : Amplitudes ι R) (x : ι → Bool) :
    onWire q (Matrix.diagonal d) ψ x = d (x q) * ψ x := by
  rw [onWire_apply]
  cases hx : x q <;> simp [← hx, Function.update_eq_self]

theorem commute_onWire_diagonal (q : ι) (d e : Bool → R) :
    Commute (onWire q (Matrix.diagonal d)) (onWire q (Matrix.diagonal e)) := by
  ext ψ x
  simp only [Module.End.mul_apply, onWire_diagonal_apply]
  ring

/-! ## Reindexing basis states -/

/-- The operator that reads each amplitude at the image of the basis state under `f`. -/
def reindex (R : Type*) [CommSemiring R] (f : (ι → Bool) → ι → Bool) : Op ι R :=
  LinearMap.funLeft R R f

omit [DecidableEq ι] in
@[simp] theorem reindex_apply (f : (ι → Bool) → ι → Bool) (ψ : Amplitudes ι R) (x : ι → Bool) :
    reindex R f ψ x = ψ (f x) := rfl

omit [DecidableEq ι] in
theorem reindex_mul (f g : (ι → Bool) → ι → Bool) :
    reindex R f * reindex R g = reindex R (g ∘ f) := rfl

omit [DecidableEq ι] in
theorem reindex_injective [Nontrivial R] :
    Function.Injective (reindex R : ((ι → Bool) → ι → Bool) → Op ι R) := by
  classical
  intro f g h
  ext1 x
  -- the state concentrated at the image of `x` tells the two images apart
  have hψ := congrFun (LinearMap.congr_fun h fun y ↦ if y = f x then 1 else 0) x
  simp only [reindex_apply, if_true] at hψ
  by_contra hne
  rw [if_neg (Ne.symm hne)] at hψ
  exact one_ne_zero hψ

omit [DecidableEq ι] in
@[simp] theorem reindex_id : reindex R (id : (ι → Bool) → ι → Bool) = 1 := rfl

/-! ## Conditional flips

A condition `p` on basis states is *independent* of a wire when changing that wire does not change
it. A controlled gate flips its target under a condition independent of the target. -/

/-- `p` does not read wire `q`. -/
def Indep (p : (ι → Bool) → Bool) (q : ι) : Prop :=
  ∀ x b, p (Function.update x q b) = p x

/-- The basis states with wire `t` flipped where `p` holds. -/
def flipWhen (t : ι) (p : (ι → Bool) → Bool) (x : ι → Bool) : ι → Bool :=
  Function.update x t (x t ^^ p x)

/-- The operator flipping wire `t` under the condition `p`. -/
def flip (R : Type*) [CommSemiring R] (t : ι) (p : (ι → Bool) → Bool) : Op ι R :=
  reindex R (flipWhen t p)

@[simp] theorem flip_apply (t : ι) (p : (ι → Bool) → Bool) (ψ : Amplitudes ι R) (x : ι → Bool) :
    flip R t p ψ x = ψ (flipWhen t p x) := rfl

theorem flipWhen_flipWhen {t : ι} {p : (ι → Bool) → Bool} (hp : Indep p t) (x : ι → Bool) :
    flipWhen t p (flipWhen t p x) = x := by
  simp [flipWhen, hp x]

theorem flip_mul_self {t : ι} {p : (ι → Bool) → Bool} (hp : Indep p t) :
    flip R t p * flip R t p = 1 := by
  ext ψ x
  simp [flipWhen_flipWhen hp]

theorem flipWhen_comm {t t' : ι} {p p' : (ι → Bool) → Bool} (h : Indep p t') (h' : Indep p' t)
    (x : ι → Bool) : flipWhen t p (flipWhen t' p' x) = flipWhen t' p' (flipWhen t p x) := by
  by_cases ht : t = t'
  · subst ht
    simp only [flipWhen, h x, h' x, Function.update_self, Function.update_idem, Bool.xor_right_comm]
  · simp only [flipWhen, h x, h' x, Function.update_of_ne ht, Function.update_of_ne (Ne.symm ht),
      Function.update_comm ht]

theorem commute_flip {t t' : ι} {p p' : (ι → Bool) → Bool} (h : Indep p t') (h' : Indep p' t) :
    Commute (flip R t p) (flip R t' p') := by
  ext ψ x
  simp [flipWhen_comm h h']

theorem commute_onWire_flip {q t : ι} {p : (ι → Bool) → Bool} (hq : q ≠ t) (hp : Indep p q)
    (u : Matrix Bool Bool R) : Commute (onWire q u) (flip R t p) := by
  ext ψ x
  simp only [Module.End.mul_apply, onWire_apply, flip_apply, flipWhen, hp x,
    Function.update_of_ne hq, Function.update_of_ne hq.symm, Function.update_comm hq]

theorem commute_onWire_diagonal_flip {q t : ι} (hq : q ≠ t) (d : Bool → R)
    (p : (ι → Bool) → Bool) : Commute (onWire q (Matrix.diagonal d)) (flip R t p) := by
  ext ψ x
  simp only [Module.End.mul_apply, onWire_diagonal_apply, flip_apply, flipWhen,
    Function.update_of_ne hq]

/-! ## Conditional exchanges -/

/-- The basis states with wires `a` and `b` exchanged where `p` holds. -/
def exchangeWhen (a b : ι) (p : (ι → Bool) → Bool) (x : ι → Bool) : ι → Bool :=
  if p x then x ∘ Equiv.swap a b else x

/-- The operator exchanging wires `a` and `b` under the condition `p`. -/
def exchange (R : Type*) [CommSemiring R] (a b : ι) (p : (ι → Bool) → Bool) : Op ι R :=
  reindex R (exchangeWhen a b p)

theorem comp_swap_eq_update (a b : ι) (x : ι → Bool) :
    x ∘ Equiv.swap a b = Function.update (Function.update x a (x b)) b (x a) := by
  ext i
  by_cases hb : i = b
  · subst hb
    simp
  · by_cases ha : i = a
    · subst ha
      simp [Function.update_of_ne hb]
    · simp [Equiv.swap_apply_of_ne_of_ne ha hb, Function.update_of_ne ha, Function.update_of_ne hb]

theorem exchange_mul_self {a b : ι} {p : (ι → Bool) → Bool} (ha : Indep p a) (hb : Indep p b) :
    exchange R a b p * exchange R a b p = 1 := by
  ext ψ x
  have hp : p (x ∘ Equiv.swap a b) = p x := by rw [comp_swap_eq_update, hb, ha]
  have hx : (x ∘ Equiv.swap a b) ∘ Equiv.swap a b = x := by
    ext i
    simp
  rw [exchange, reindex_mul, reindex_apply, Function.comp_apply, Module.End.one_apply]
  by_cases h : p x <;> simp [exchangeWhen, hp, h, hx]

/-! ## Renaming wires -/

/-- The operator that carries the content of wire `i` to wire `σ i`. -/
def rename (R : Type*) [CommSemiring R] (σ : Equiv.Perm ι) : Op ι R :=
  reindex R fun x ↦ x ∘ σ

omit [DecidableEq ι] in
@[simp] theorem rename_one : rename R (1 : Equiv.Perm ι) = 1 := rfl

end Quantum
