import Mathlib.Computability.StateTransition
import Mathlib.Data.Fintype.Pigeonhole
import Mathlib.Data.Set.Finite.Basic

/-!
# Runs that halt and runs that come back

A transition function `f : σ → Option σ` has one run from each state. The run halts when it reaches
a state without a successor. A run that visits finitely many states halts unless it comes back to a
state it has left, and the same holds of a run that visits infinitely many, as long as a rank that
never grows splits it into finite parts.
-/

namespace StateTransition

variable {σ : Type*} {f : σ → Option σ}

/-- The run from `s` comes back to `s`. -/
def Recurs (f : σ → Option σ) (s : σ) : Prop := Reaches₁ f s s

/-! ## Invariants -/

/-- What holds at the start and is kept by every step from a state the run reaches holds of every
state the run reaches. -/
theorem Reaches.invariant {a b : σ} {P : σ → Prop} (h : Reaches f a b) (ha : P a)
    (hstep : ∀ s t, Reaches f a s → P s → f s = some t → P t) : P b := by
  induction h with
  | refl => exact ha
  | tail hs ht ih => exact hstep _ _ hs ih ht

/-! ## States that come back -/

theorem Recurs.not_halted {s : σ} (h : Recurs f s) : f s ≠ none := by
  obtain ⟨t, ht, -⟩ := Relation.TransGen.head'_iff.mp h
  rw [Option.mem_def.mp ht]
  exact Option.some_ne_none t

theorem Recurs.reaches {s t : σ} (h : Recurs f s) (ht : Reaches f s t) : Reaches f t s := by
  refine Reaches.invariant (P := fun u ↦ Reaches f u s) ht .refl fun u v _ hu huv ↦ ?_
  rcases Relation.reflTransGen_iff_eq_or_transGen.mp hu with rfl | hu
  · exact reaches₁_fwd h huv
  · exact reaches₁_fwd hu huv

theorem Recurs.of_reaches {s t : σ} (h : Recurs f s) (ht : Reaches f s t) : Recurs f t := by
  have hts := h.reaches ht
  exact (Relation.TransGen.trans_right hts h).trans_left ht

theorem not_recurs_of_mem_eval {a b : σ} (h : b ∈ eval f a) : ¬ Recurs f a := by
  intro ha
  obtain ⟨hab, hb⟩ := mem_eval.mp h
  exact (ha.of_reaches hab).not_halted hb

/-! ## Halting -/

/-- A run that stays among states with a successor does not halt. -/
theorem not_dom_of_closed {a : σ} {P : σ → Prop} (ha : P a)
    (hstep : ∀ s, P s → ∃ t, f s = some t ∧ P t) : ¬ (eval f a).Dom := by
  intro hdom
  obtain ⟨b, hb⟩ := Part.dom_iff_mem.mp hdom
  obtain ⟨hreach, hstop⟩ := mem_eval.mp hb
  have hP : P b := Reaches.invariant hreach ha fun s t _ hs hst ↦ by
    obtain ⟨u, hu, hPu⟩ := hstep s hs
    exact Option.some.inj (hu.symm.trans hst) ▸ hPu
  obtain ⟨u, hu, -⟩ := hstep b hP
  exact absurd (hstop.symm.trans hu) nofun

/-- A run through finitely many states, none of which comes back, halts. -/
theorem eval_dom_of_finite {s : σ} (hfin : {t | Reaches f s t}.Finite)
    (h : ∀ t, Reaches f s t → ¬ Recurs f t) : (eval f s).Dom := by
  by_contra hdom
  have hnext : ∀ t : {t | Reaches f s t}, ∃ u : {t | Reaches f s t}, f t = some u := by
    rintro ⟨t, ht⟩
    cases hft : f t with
    | none => exact absurd (Part.dom_iff_mem.mpr ⟨t, mem_eval.mpr ⟨ht, hft⟩⟩) hdom
    | some u => exact ⟨⟨u, Relation.ReflTransGen.tail ht hft⟩, rfl⟩
  choose next hnext using hnext
  have hrun : ∀ (x : {t | Reaches f s t}) (k : ℕ), Reaches₁ f x (next^[k + 1] x) := by
    intro x k
    induction k with
    | zero => exact Relation.TransGen.single (hnext x)
    | succ k ih =>
      rw [Function.iterate_succ_apply']
      exact ih.tail (hnext _)
  have : Finite {t | Reaches f s t} := hfin
  let start : {t | Reaches f s t} := ⟨s, Set.mem_ofPred.mpr .refl⟩
  -- two of the infinitely many states of the run are the same one
  obtain ⟨i, j, hij, heq⟩ := Finite.exists_ne_map_eq_of_infinite fun k : ℕ ↦ next^[k] start
  wlog hlt : i < j generalizing i j
  · exact this j i hij.symm heq.symm (lt_of_le_of_ne (not_lt.mp hlt) hij.symm)
  obtain ⟨k, rfl⟩ := Nat.exists_eq_add_of_lt hlt
  have hback := hrun (next^[i] start) k
  rw [← Function.iterate_add_apply, show k + 1 + i = i + k + 1 by omega, ← heq] at hback
  exact h _ (next^[i] start).2 hback

private theorem rank_le_of_reaches {s t : σ} {rank : σ → ℕ}
    (hrank : ∀ u v, Reaches f s u → f u = some v → rank v ≤ rank u) (ht : Reaches f s t) :
    rank t ≤ rank s :=
  Reaches.invariant (P := fun u ↦ rank u ≤ rank s) ht le_rfl fun u v hu hle huv ↦
    (hrank u v hu huv).trans hle

/-- **Halting and coming back.** If a rank never grows along the run and the run visits only
finitely many states of one rank, the run halts exactly when no state it reaches comes back. -/
theorem eval_dom_iff_not_recurs {a : σ} (rank : σ → ℕ)
    (hrank : ∀ s t, Reaches f a s → f s = some t → rank t ≤ rank s)
    (hfin : ∀ s, Reaches f a s → {t | Reaches f s t ∧ rank t = rank s}.Finite) :
    (eval f a).Dom ↔ ∀ s, Reaches f a s → ¬ Recurs f s := by
  constructor
  · intro h s hs
    obtain ⟨b, hb⟩ := Part.dom_iff_mem.mp h
    exact not_recurs_of_mem_eval (reaches_eval hs ▸ hb)
  · intro h
    suffices hdom : ∀ n s, Reaches f a s → rank s = n → (eval f s).Dom from
      hdom (rank a) a .refl rfl
    intro n
    induction n using Nat.strong_induction_on with
    | _ n ih =>
      intro s hs hn
      by_cases hdrop : ∃ t, Reaches f s t ∧ rank t < rank s
      · obtain ⟨t, ht, hlt⟩ := hdrop
        rw [reaches_eval ht]
        exact ih (rank t) (hn ▸ hlt) t (hs.trans ht) rfl
      -- no state ahead has a smaller rank, so they are finitely many
      · refine eval_dom_of_finite ((hfin s hs).subset fun t ht ↦ ⟨ht, ?_⟩) fun t ht ↦
          h t (hs.trans ht)
        have hle := rank_le_of_reaches (fun u v hu ↦ hrank u v (hs.trans hu)) ht
        exact le_antisymm hle (not_lt.mp fun hlt ↦ hdrop ⟨t, ht, hlt⟩)

end StateTransition
