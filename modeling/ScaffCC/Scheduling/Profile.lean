import Mathlib.Algebra.BigOperators.Group.List.Basic
import Mathlib.Algebra.Ring.Nat
import Mathlib.Data.List.Induction
import Mathlib.Order.Lattice

/-!
# Profiles of jobs that run side by side

The profile of a job says what runs in each of its timesteps. Jobs that start together have the sum
of their profiles, timestep by timestep, and it is as long as the longest of them. No job gets lost
in it: the total is the sum of the totals.

Jobs are put together greedily. A job joins the current step unless it conflicts with a job in it,
and then it starts the next step.
-/

namespace Scheduling

/-! ## Profiles -/

namespace Profile

variable {M N : Type*} [Add M] [Add N] {a b : List M}

/-- Two profiles side by side. -/
def merge : List M → List M → List M
  | [], b => b
  | x :: a, [] => x :: a
  | x :: a, y :: b => (x + y) :: merge a b

@[simp] theorem merge_nil (a : List M) : merge a [] = a := by
  cases a <;> rfl

theorem length_merge (a b : List M) : (merge a b).length = max a.length b.length := by
  induction a generalizing b with
  | nil => simp [merge]
  | cons x a ih =>
    cases b with
    | nil => simp
    | cons y b => rw [merge, List.length_cons, ih, List.length_cons, List.length_cons]; omega

theorem map_merge {φ : M → N} (hφ : ∀ x y, φ (x + y) = φ x + φ y) (a b : List M) :
    (merge a b).map φ = merge (a.map φ) (b.map φ) := by
  induction a generalizing b with
  | nil => rfl
  | cons x a ih =>
    cases b with
    | nil => rfl
    | cons y b => rw [merge, List.map_cons, hφ, ih, List.map_cons, List.map_cons, merge]

/-- What is so of two timesteps and of their sum is so of the timesteps of both profiles. -/
theorem forall_mem_merge {p : M → Prop} (hadd : ∀ x y, p x → p y → p (x + y))
    (ha : ∀ x ∈ a, p x) (hb : ∀ y ∈ b, p y) : ∀ z ∈ merge a b, p z := by
  induction a generalizing b with
  | nil => exact hb
  | cons x a ih =>
    cases b with
    | nil => exact ha
    | cons y b =>
      obtain ⟨hx, ha⟩ := List.forall_mem_cons.mp ha
      obtain ⟨hy, hb⟩ := List.forall_mem_cons.mp hb
      exact List.forall_mem_cons.mpr ⟨hadd x y hx hy, ih ha hb⟩

/-- A measure that adds up at most adds up to at most the sum. -/
theorem sum_map_merge_le {f : M → ℕ} (hf : ∀ x y, f (x + y) ≤ f x + f y) (a b : List M) :
    ((merge a b).map f).sum ≤ (a.map f).sum + (b.map f).sum := by
  induction a generalizing b with
  | nil => simp [merge]
  | cons x a ih =>
    cases b with
    | nil => simp
    | cons y b =>
      simp only [merge, List.map_cons, List.sum_cons]
      have hxy := hf x y
      have hrest := ih b
      omega

theorem sum_map_merge {f : M → ℕ} (hf : ∀ x y, f (x + y) = f x + f y) (a b : List M) :
    ((merge a b).map f).sum = (a.map f).sum + (b.map f).sum := by
  induction a generalizing b with
  | nil => simp [merge]
  | cons x a ih =>
    cases b with
    | nil => simp
    | cons y b =>
      simp only [merge, List.map_cons, List.sum_cons]
      rw [hf x y, ih b]
      omega

/-- The second profile may be cut where the first one ends. -/
theorem merge_take_append_drop (a b : List M) :
    merge a (b.take a.length) ++ b.drop a.length = merge a b := by
  induction a generalizing b with
  | nil => simp [merge]
  | cons x a ih =>
    cases b with
    | nil => simp
    | cons y b =>
      rw [List.length_cons, List.take_succ_cons, List.drop_succ_cons, merge, List.cons_append, ih,
        merge]

/-- Any number of profiles side by side. -/
def mergeAll (ps : List (List M)) : List M := ps.foldl merge []

theorem forall_mem_foldl_merge {p : M → Prop} (hadd : ∀ x y, p x → p y → p (x + y))
    {ps : List (List M)} (ha : ∀ x ∈ a, p x) (hps : ∀ b ∈ ps, ∀ x ∈ b, p x) :
    ∀ z ∈ ps.foldl merge a, p z := by
  induction ps generalizing a with
  | nil => exact ha
  | cons b ps ih =>
    obtain ⟨hb, hps⟩ := List.forall_mem_cons.mp hps
    exact ih (forall_mem_merge hadd ha hb) hps

theorem sum_map_foldl_merge {f : M → ℕ} (hf : ∀ x y, f (x + y) = f x + f y) (a : List M)
    (ps : List (List M)) :
    ((ps.foldl merge a).map f).sum = (a.map f).sum + (ps.map fun p ↦ (p.map f).sum).sum := by
  induction ps generalizing a with
  | nil => simp
  | cons p ps ih =>
    rw [List.foldl_cons, ih, sum_map_merge hf, List.map_cons, List.sum_cons, Nat.add_assoc]

end Profile

/-! ## Greedy steps -/

/-- The steps that are over, and the current one. -/
structure Greedy (α : Type*) where
  done : List (List α)
  current : List α

namespace Greedy

variable {α : Type*} (r : α → α → Bool) {g : Greedy α} {x : α} {xs : List α}

/-- A job joins the current step, unless it conflicts with a job in it. -/
def add (g : Greedy α) (x : α) : Greedy α :=
  if g.current.any (r · x) then ⟨g.done ++ [g.current], [x]⟩ else ⟨g.done, g.current ++ [x]⟩

/-- Before the first job. -/
def empty : Greedy α := ⟨[], []⟩

/-- One job after the other. -/
def run (xs : List α) : Greedy α := xs.foldl (add r) empty

/-- All steps, the current one last. -/
def steps (g : Greedy α) : List (List α) := g.done ++ [g.current]

variable {r}

theorem run_append_singleton (xs : List α) (x : α) : run r (xs ++ [x]) = (run r xs).add r x := by
  rw [run, List.foldl_append, List.foldl_cons, List.foldl_nil, ← run]

theorem flatten_steps_add : (g.add r x).steps.flatten = g.steps.flatten ++ [x] := by
  rw [add, steps, steps]
  split <;> simp

theorem flatten_steps_run (xs : List α) : (run r xs).steps.flatten = xs := by
  induction xs using List.reverseRecOn with
  | nil => rfl
  | append_singleton xs x ih => rw [run_append_singleton, flatten_steps_add, ih]

theorem pairwise_add (h : g.current.Pairwise fun x y ↦ r x y = false) :
    (g.add r x).current.Pairwise fun x y ↦ r x y = false := by
  rw [add]
  split
  case isTrue => exact List.pairwise_singleton _ x
  case isFalse hany =>
    rw [List.pairwise_append]
    refine ⟨h, List.pairwise_singleton _ x, fun y hy z hz ↦ ?_⟩
    rw [List.mem_singleton.mp hz]
    by_contra hyx
    exact hany (List.any_eq_true.mpr ⟨y, hy, Bool.eq_true_of_not_eq_false hyx⟩)

theorem pairwise_run (xs : List α) : (run r xs).current.Pairwise fun x y ↦ r x y = false := by
  induction xs using List.reverseRecOn with
  | nil => exact List.Pairwise.nil
  | append_singleton xs x ih =>
    rw [run_append_singleton]
    exact pairwise_add ih

theorem current_add_ne_nil : (g.add r x).current ≠ [] := by
  rw [add]
  split <;> simp

theorem current_run_ne_nil (h : xs ≠ []) : (run r xs).current ≠ [] := by
  induction xs using List.reverseRecOn with
  | nil => exact absurd rfl h
  | append_singleton xs x _ =>
    rw [run_append_singleton]
    exact current_add_ne_nil

end Greedy

end Scheduling
