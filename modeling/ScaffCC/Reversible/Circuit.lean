import Mathlib.Data.Set.Function
import ScaffCC.Quantum.Operator

/-!
# Reversible circuits

A gate negates its target when all its controls are set; without controls it is a negation, with
one a controlled negation, with two a Toffoli gate. Circuits are lists of gates and act on the
assignments of bits to wires. Loops are lists of indices, upwards or downwards, with a body for each
index, and have a rule with an invariant.
-/

namespace ScaffCC.Reversible

open Quantum (flipWhen)

/-! ## Gates -/

/-- A negation of the target under controls. -/
structure Gate (ι : Type*) where
  controls : List ι
  target : ι
deriving DecidableEq

section Act

variable {ι : Type*} [DecidableEq ι]

/-- All controls are set. -/
def Gate.fires (g : Gate ι) (s : ι → Bool) : Bool := g.controls.all s

def Gate.act (g : Gate ι) (s : ι → Bool) : ι → Bool :=
  flipWhen g.target g.fires s

/-- The effect of a circuit. -/
def run (gs : List (Gate ι)) (s : ι → Bool) : ι → Bool :=
  gs.foldl (fun s g ↦ g.act s) s

@[simp] theorem run_nil (s : ι → Bool) : run [] s = s := rfl

@[simp] theorem run_cons (g : Gate ι) (gs : List (Gate ι)) (s : ι → Bool) :
    run (g :: gs) s = run gs (g.act s) := rfl

@[simp] theorem run_append (gs hs : List (Gate ι)) (s : ι → Bool) :
    run (gs ++ hs) s = run hs (run gs s) :=
  List.foldl_append

theorem Gate.act_target (g : Gate ι) (s : ι → Bool) :
    g.act s g.target = (s g.target ^^ g.fires s) :=
  Function.update_self ..

theorem Gate.act_of_ne {g : Gate ι} {w : ι} (h : w ≠ g.target) (s : ι → Bool) : g.act s w = s w :=
  Function.update_of_ne h ..

theorem Gate.act_apply (g : Gate ι) (s : ι → Bool) (w : ι) :
    g.act s w = if w = g.target then s w ^^ g.fires s else s w := by
  split_ifs with h
  · rw [h, g.act_target]
  · exact act_of_ne h s

theorem run_of_notMem {gs : List (Gate ι)} {w : ι} (h : w ∉ gs.map Gate.target) (s : ι → Bool) :
    run gs s w = s w := by
  induction gs generalizing s with
  | nil => rfl
  | cons g gs ih =>
    obtain ⟨hg, hgs⟩ := not_or.mp (List.mem_cons.not.mp h)
    rw [run_cons, ih hgs, Gate.act_of_ne hg]

/-! ## A common control -/

/-- A gate with one more control. -/
def Gate.under (c : ι) (g : Gate ι) : Gate ι := { g with controls := c :: g.controls }

/-- **A circuit under a control acts when the control is set and is idle otherwise.** -/
theorem run_under {c : ι} {gs : List (Gate ι)} (h : c ∉ gs.map Gate.target) (s : ι → Bool) :
    run (gs.map (Gate.under c)) s = if s c then run gs s else s := by
  induction gs generalizing s with
  | nil => exact (ite_self _).symm
  | cons g gs ih =>
    obtain ⟨hg, hgs⟩ := not_or.mp (List.mem_cons.not.mp h)
    have hact : (g.under c).act s = if s c then g.act s else s := by
      funext w
      rw [Gate.act_apply, Gate.fires, Gate.under, List.all_cons]
      cases hc : s c
      · simp
      · simpa [Gate.fires] using (g.act_apply s w).symm
    rw [List.map_cons, run_cons, ih hgs, hact]
    cases hc : s c
    · simp [hc]
    · simp [Gate.act_of_ne hg, hc]

end Act

/-! ## Other wires -/

section Map

variable {ι κ : Type*} [DecidableEq ι] [DecidableEq κ]

def Gate.map (f : ι → κ) (g : Gate ι) : Gate κ := ⟨g.controls.map f, f g.target⟩

/-- The wires of a gate lie in a set. -/
def Gate.Within (S : Set ι) (g : Gate ι) : Prop := (∀ c ∈ g.controls, c ∈ S) ∧ g.target ∈ S

/-- **A circuit does the same on other wires**, as long as no two of the wires become one. -/
theorem run_map {f : ι → κ} {S : Set ι} (hf : S.InjOn f) {gs : List (Gate ι)}
    (hgs : ∀ g ∈ gs, g.Within S) {s : κ → Bool} {t : ι → Bool} (hs : ∀ w ∈ S, s (f w) = t w) :
    ∀ w ∈ S, run (gs.map (Gate.map f)) s (f w) = run gs t w := by
  induction gs generalizing s t with
  | nil => exact hs
  | cons g gs ih =>
    obtain ⟨⟨hcontrols, htarget⟩, hrest⟩ := List.forall_mem_cons.mp hgs
    refine ih hrest fun w hw ↦ ?_
    have hfires : (g.map f).fires s = g.fires t := by
      rw [Gate.fires, Gate.fires, Gate.map, List.all_map, Bool.eq_iff_iff, List.all_eq_true,
        List.all_eq_true]
      refine forall₂_congr fun c hc ↦ ?_
      rw [Function.comp_apply, hs c (hcontrols c hc)]
    have hwire : f w = (g.map f).target ↔ w = g.target := hf.eq_iff hw htarget
    change (g.map f).act s (f w) = g.act t w
    rw [Gate.act_apply, Gate.act_apply, hfires, hs w hw]
    simp only [hwire]

/-- A circuit placed on wires of its own does the same there, and nothing elsewhere. -/
theorem run_map_of_injective {f : ι → κ} (hf : Function.Injective f) (gs : List (Gate ι))
    (s : κ → Bool) :
    (∀ w, run (gs.map (Gate.map f)) s (f w) = run gs (s ∘ f) w) ∧
      ∀ q ∉ Set.range f, run (gs.map (Gate.map f)) s q = s q := by
  constructor
  · intro w
    exact run_map (S := Set.univ) hf.injOn (fun g _ ↦ ⟨fun _ _ ↦ trivial, trivial⟩)
      (fun _ _ ↦ rfl) w trivial
  · intro q hq
    refine run_of_notMem (fun hmem ↦ hq ?_) s
    rw [List.map_map] at hmem
    obtain ⟨g, -, hg⟩ := List.mem_map.mp hmem
    exact ⟨g.target, hg⟩

end Map

/-! ## Loops -/

/-- The indices from `a` up to `b - 1`. -/
def up (a b : ℕ) : List ℕ := List.range' a (b - a)

/-- The indices from `b - 1` down to `a`. -/
def down (a b : ℕ) : List ℕ := (up a b).reverse

theorem mem_up {a b i : ℕ} : i ∈ up a b ↔ a ≤ i ∧ i < b := by
  rw [up, List.mem_range'_1]
  omega

theorem mem_down {a b i : ℕ} : i ∈ down a b ↔ a ≤ i ∧ i < b := by
  rw [down, List.mem_reverse, mem_up]

theorem up_succ_right {a b : ℕ} (h : a ≤ b) : up a (b + 1) = up a b ++ [b] := by
  rw [up, up, Nat.succ_sub h, List.range'_concat, Nat.one_mul, Nat.add_sub_cancel' h]

theorem up_self (a : ℕ) : up a a = [] := by
  rw [up, Nat.sub_self, List.range'_zero]

theorem down_add (a b k : ℕ) : (down a b).map (· + k) = down (a + k) (b + k) := by
  have hup : (up a b).map (· + k) = up (a + k) (b + k) := by
    have hrange := List.map_add_range' (a := k) a (b - a) 1
    simp only [Nat.add_comm k] at hrange
    rw [up, up, hrange, Nat.add_sub_add_right]
  rw [down, List.map_reverse, hup, down]

section Loop

variable {ι : Type*} [DecidableEq ι] {B : ℕ → List (Gate ι)} {P : ℕ → (ι → Bool) → Prop}
  {a b : ℕ} {s : ι → Bool}

/-- **The rule of an upward loop**: the invariant speaks of the indices that are done. -/
theorem run_up (hab : a ≤ b) (h₀ : P a s)
    (hstep : ∀ i s, a ≤ i → i < b → P i s → P (i + 1) (run (B i) s)) :
    P b (run ((up a b).flatMap B) s) := by
  induction b, hab using Nat.le_induction with
  | base => rwa [up_self]
  | succ b hab ih =>
    rw [up_succ_right hab, List.flatMap_append, run_append, List.flatMap_singleton]
    exact hstep b _ hab (Nat.lt_succ_self b)
      (ih fun i s ha hb ↦ hstep i s ha (Nat.lt_succ_of_lt hb))

/-- **The rule of a downward loop**: the invariant speaks of the indices that are left. -/
theorem run_down (hab : a ≤ b) (h₀ : P b s)
    (hstep : ∀ i s, a ≤ i → i < b → P (i + 1) s → P i (run (B i) s)) :
    P a (run ((down a b).flatMap B) s) := by
  induction b, hab using Nat.le_induction generalizing s with
  | base => rwa [down, up_self]
  | succ b hab ih =>
    rw [down, up_succ_right hab, List.reverse_append, List.flatMap_append, run_append,
      List.reverse_singleton, List.flatMap_singleton]
    exact ih (hstep b s hab (Nat.lt_succ_self b) h₀)
      fun i s ha hb ↦ hstep i s ha (Nat.lt_succ_of_lt hb)

end Loop

end ScaffCC.Reversible
