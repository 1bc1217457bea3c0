import Mathlib.Logic.Function.Basic
import Mathlib.Data.List.Basic

/-!
# Replaying transports

A list of transports carries tokens from place to place. A table that is kept while the list is
written down is right for the tokens it is about if every transport starts at the place the table
has, and the table is changed to the place where it ends.
-/

namespace Scheduling

/-- A token is carried from a place to a place. -/
structure Transport (τ π : Type*) where
  token : τ
  src : π
  dest : π
  deriving DecidableEq

variable {τ π : Type*} [DecidableEq τ]

/-- Where the tokens are after some transports. -/
def replay (ℓ : τ → π) (ms : List (Transport τ π)) : τ → π :=
  ms.foldl (fun ℓ m ↦ Function.update ℓ m.token m.dest) ℓ

/-- Every transport starts where the token is. -/
def SourcesRight : (τ → π) → List (Transport τ π) → Prop
  | _, [] => True
  | ℓ, m :: ms => ℓ m.token = m.src ∧ SourcesRight (Function.update ℓ m.token m.dest) ms

theorem replay_append (ℓ : τ → π) (ms ms' : List (Transport τ π)) :
    replay ℓ (ms ++ ms') = replay (replay ℓ ms) ms' :=
  List.foldl_append

theorem sourcesRight_append {ℓ : τ → π} {ms ms' : List (Transport τ π)} :
    SourcesRight ℓ (ms ++ ms') ↔ SourcesRight ℓ ms ∧ SourcesRight (replay ℓ ms) ms' := by
  induction ms generalizing ℓ with
  | nil => exact (iff_of_eq (true_and _)).symm
  | cons m ms ih =>
    rw [List.cons_append, SourcesRight, ih, SourcesRight, and_assoc]
    rfl

/-- Transports of other tokens leave a token where it is. -/
theorem replay_of_ne {ℓ : τ → π} {ms : List (Transport τ π)} {q : τ} (h : ∀ m ∈ ms, m.token ≠ q) :
    replay ℓ ms q = ℓ q := by
  induction ms generalizing ℓ with
  | nil => rfl
  | cons m ms ih =>
    obtain ⟨hm, hms⟩ := List.forall_mem_cons.mp h
    exact (ih hms).trans (Function.update_of_ne hm.symm m.dest ℓ)

theorem replay_update {ℓ : τ → π} {ms : List (Transport τ π)} {q : τ}
    (h : ∀ m ∈ ms, m.token ≠ q) (x : π) :
    replay (Function.update ℓ q x) ms = Function.update (replay ℓ ms) q x := by
  induction ms generalizing ℓ with
  | nil => rfl
  | cons m ms ih =>
    obtain ⟨hm, hms⟩ := List.forall_mem_cons.mp h
    rw [replay, List.foldl_cons, Function.update_comm hm.symm, ← replay, ih hms]
    rfl

theorem sourcesRight_update {ℓ : τ → π} {ms : List (Transport τ π)} {q : τ}
    (h : ∀ m ∈ ms, m.token ≠ q) (x : π) :
    SourcesRight (Function.update ℓ q x) ms ↔ SourcesRight ℓ ms := by
  induction ms generalizing ℓ with
  | nil => rfl
  | cons m ms ih =>
    obtain ⟨hm, hms⟩ := List.forall_mem_cons.mp h
    rw [SourcesRight, SourcesRight, Function.update_comm hm.symm, ih hms,
      Function.update_of_ne hm x ℓ]

/-- The transports start at the right places, and the table says where the tokens in `U` are after
them. -/
structure Tracks (U : τ → Prop) (ℓ : τ → π) (ms : List (Transport τ π)) (table : τ → π) :
    Prop where
  sources : SourcesRight ℓ ms
  agree : ∀ q, U q → replay ℓ ms q = table q

namespace Tracks

variable {U : τ → Prop} {ℓ table table' : τ → π} {ms : List (Transport τ π)} {q : τ} {dest : π}

theorem nil (h : ∀ q, U q → ℓ q = table q) : Tracks U ℓ [] table := ⟨trivial, h⟩

/-- One more transport, from the place in the table, before some of other tokens. -/
theorem insert {ms' : List (Transport τ π)} (h : Tracks U ℓ (ms ++ ms') table) (hq : U q)
    (hother : ∀ m ∈ ms', m.token ≠ q)
    (htable : ∀ p, U p → table' p = if p = q then dest else table p) :
    Tracks U ℓ (ms ++ [⟨q, table q, dest⟩] ++ ms') table' := by
  obtain ⟨hms, hms'⟩ := sourcesRight_append.mp h.sources
  have hplace : replay ℓ ms q = table q := by
    rw [← h.agree q hq, replay_append, replay_of_ne hother]
  have hafter : replay ℓ (ms ++ [⟨q, table q, dest⟩]) = Function.update (replay ℓ ms) q dest := by
    rw [replay_append]
    rfl
  constructor
  · rw [sourcesRight_append, sourcesRight_append, hafter, sourcesRight_update hother]
    exact ⟨⟨hms, hplace, trivial⟩, hms'⟩
  · intro p hp
    rw [replay_append, hafter, replay_update hother, htable p hp, ← h.agree p hp, replay_append]
    exact Function.update_apply (replay (replay ℓ ms) ms') q dest p

/-- One more transport, from the place in the table. -/
theorem snoc (h : Tracks U ℓ ms table) (hq : U q)
    (htable : ∀ p, U p → table' p = if p = q then dest else table p) :
    Tracks U ℓ (ms ++ [⟨q, table q, dest⟩]) table' := by
  have hinsert : Tracks U ℓ (ms ++ [⟨q, table q, dest⟩] ++ []) table' :=
    insert (by rwa [List.append_nil]) hq (List.forall_mem_nil _) htable
  rwa [List.append_nil] at hinsert

theorem congr (h : Tracks U ℓ ms table) (heq : ∀ p, U p → table' p = table p) :
    Tracks U ℓ ms table' :=
  ⟨h.sources, fun p hp ↦ (h.agree p hp).trans (heq p hp).symm⟩

end Tracks

end Scheduling
