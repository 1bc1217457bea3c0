import Mathlib.Algebra.Group.Commute.Basic
import Mathlib.Data.List.Perm.Basic

/-!
# Sequences of operations with outcomes

A step of a circuit may have several outcomes, as a measurement has, so its meaning is the list of
the operators of its outcomes, in a fixed order; a gate without outcomes is a singleton. Running a
sequence composes the operators along every choice of outcomes and lists the results with the
earliest step varying slowest. Two sequences with equal runs therefore act equally outcome by
outcome, which is finer than having the same effect on average.

Everything is stated over an arbitrary monoid `α` of operators and an arbitrary type `γ` of steps
with a meaning `m : γ → List α`.
-/

namespace Quantum

variable {α γ : Type*} [Monoid α]

/-- Every outcome of `A` followed by every outcome of `B`. -/
def andThen (A B : List α) : List α := A.flatMap fun a ↦ B.map (· * a)

@[simp] theorem andThen_singleton (a : α) (B : List α) : andThen [a] B = B.map (· * a) := by
  simp [andThen]

@[simp] theorem one_andThen (B : List α) : andThen [1] B = B := by simp

@[simp] theorem andThen_one (A : List α) : andThen A [1] = A := by
  simp [andThen]

theorem andThen_assoc (A B C : List α) :
    andThen (andThen A B) C = andThen A (andThen B C) := by
  simp [andThen, List.flatMap_assoc, List.flatMap_map, List.map_flatMap]

theorem andThen_singleton_of_commute {A : List α} {b : α} (h : ∀ a ∈ A, Commute a b) :
    andThen A [b] = andThen [b] A := by
  rw [andThen_singleton, andThen, ← List.flatMap_pure_eq_map]
  refine List.flatMap_congr fun a ha ↦ ?_
  simp [(h a ha).eq]

/-! ## Runs -/

/-- The outcomes of running the steps one after the other. -/
def run (m : γ → List α) : List γ → List α
  | [] => [1]
  | g :: G => andThen (m g) (run m G)

variable {m : γ → List α}

@[simp] theorem run_nil : run m [] = [1] := rfl

@[simp] theorem run_cons (g : γ) (G : List γ) : run m (g :: G) = andThen (m g) (run m G) := rfl

theorem run_append (G H : List γ) : run m (G ++ H) = andThen (run m G) (run m H) := by
  induction G with
  | nil => simp
  | cons g G ih => rw [List.cons_append, run_cons, ih, run_cons, andThen_assoc]

theorem run_congr_segment {X Y : List γ} (h : run m X = run m Y) (A B : List γ) :
    run m (A ++ X ++ B) = run m (A ++ Y ++ B) := by
  simp only [run_append, h]

theorem commute_of_mem_run {b : α} {G : List γ} (h : ∀ g ∈ G, ∀ a ∈ m g, Commute a b) :
    ∀ w ∈ run m G, Commute w b := by
  induction G with
  | nil =>
    intro w hw
    rw [run_nil, List.mem_singleton] at hw
    exact hw ▸ Commute.one_left b
  | cons g G ih =>
    intro w hw
    rw [run_cons, andThen, List.mem_flatMap] at hw
    obtain ⟨a, ha, hw⟩ := hw
    obtain ⟨v, hv, rfl⟩ := List.mem_map.mp hw
    exact (ih (fun g' hg' ↦ h g' (List.mem_cons_of_mem g hg')) v hv).mul_left
      (h g List.mem_cons_self a ha)

/-- A step with one outcome moves past a sequence of steps it commutes with. -/
theorem run_append_singleton_of_commute {g : γ} {b : α} (hg : m g = [b]) {G : List γ}
    (h : ∀ g' ∈ G, ∀ a ∈ m g', Commute a b) : run m (G ++ [g]) = run m (g :: G) := by
  rw [run_append, run_cons, run_nil, hg, andThen_one,
    andThen_singleton_of_commute (commute_of_mem_run h), run_cons, hg]

/-! ## Outcomes in another order

Steps that commute may be exchanged, but two of them with several outcomes each come out in the
other order. The operators are the same up to a permutation. -/

theorem andThen_perm {A A' B B' : List α} (hA : A.Perm A') (hB : B.Perm B') :
    (andThen A B).Perm (andThen A' B') :=
  hA.flatMap fun a _ ↦ hB.map (· * a)

theorem andThen_comm_perm {A B : List α} (h : ∀ a ∈ A, ∀ b ∈ B, Commute a b) :
    (andThen A B).Perm (andThen B A) := by
  induction A with
  | nil => simp [andThen]
  | cons a A ih =>
    obtain ⟨ha, hA⟩ := List.forall_mem_cons.mp h
    have hmap : B.map (· * a) = B.map (a * ·) := List.map_congr_left fun b hb ↦ (ha b hb).eq.symm
    calc List.Perm (andThen (a :: A) B) (B.map (a * ·) ++ andThen A B) := by
          rw [← hmap]
          exact .refl _
      List.Perm _ (B.map (a * ·) ++ andThen B A) := (ih hA).append_left _
      List.Perm _ (andThen B (a :: A)) := List.map_append_flatMap_perm B _ _

/-- A step moves past a sequence of steps it commutes with. -/
theorem run_concat_perm {g : γ} {G : List γ}
    (h : ∀ g' ∈ G, ∀ a ∈ m g', ∀ b ∈ m g, Commute a b) :
    (run m (G ++ [g])).Perm (run m (g :: G)) := by
  rw [run_append, run_cons, run_nil, andThen_one, run_cons]
  exact andThen_comm_perm fun a ha b hb ↦
    commute_of_mem_run (fun g' hg' c hc ↦ h g' hg' c hc b hb) a ha

theorem run_perm_segment {X Y : List γ} (h : (run m X).Perm (run m Y)) (A B : List γ) :
    (run m (A ++ X ++ B)).Perm (run m (A ++ Y ++ B)) := by
  simp only [run_append]
  exact andThen_perm (andThen_perm (.refl _) h) (.refl _)

/-! ## Steps without outcomes -/

/-- The operator of a sequence of steps, the first acting first. -/
def compose (op : γ → α) : List γ → α
  | [] => 1
  | g :: G => compose op G * op g

variable {op : γ → α}

@[simp] theorem compose_nil : compose op [] = 1 := rfl

@[simp] theorem compose_cons (g : γ) (G : List γ) :
    compose op (g :: G) = compose op G * op g := rfl

theorem compose_append (G H : List γ) : compose op (G ++ H) = compose op H * compose op G := by
  induction G with
  | nil => simp
  | cons g G ih => rw [List.cons_append, compose_cons, ih, compose_cons, mul_assoc]

theorem run_eq_compose {G : List γ} (h : ∀ g ∈ G, m g = [op g]) : run m G = [compose op G] := by
  induction G with
  | nil => rfl
  | cons g G ih =>
    rw [run_cons, h g List.mem_cons_self, ih fun g' hg' ↦ h g' (List.mem_cons_of_mem g hg')]
    simp

/-- **Uncomputation.** A sequence followed by the reverse sequence of left inverses is the
identity. -/
theorem compose_append_reverse_map (inv : γ → γ) {G : List γ}
    (h : ∀ g ∈ G, op (inv g) * op g = 1) :
    compose op (G ++ (G.map inv).reverse) = 1 := by
  induction G with
  | nil => rfl
  | cons g G ih =>
    have htail := ih fun g' hg' ↦ h g' (List.mem_cons_of_mem g hg')
    rw [compose_append] at htail ⊢
    rw [List.map_cons, List.reverse_cons, compose_append, compose_cons, compose_cons, compose_nil,
      one_mul, mul_assoc, ← mul_assoc _ _ (op g), htail, one_mul, h g List.mem_cons_self]

end Quantum
