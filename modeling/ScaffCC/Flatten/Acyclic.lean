import ScaffCC.Flatten.Pass

/-!
# Modules whose functions have circuits

When every body has a circuit, the functions it calls are there and no function calls itself,
directly or not. So the pass can be run on such a module.
-/

namespace ScaffCC.Flatten

open Relation

variable {ι : Type*} {M : Module} {ρ : Env ι} {is : List Instr} {C : List (GateCall ι)}
  {n : Ident} {args : List Arg}

/-- The functions that a body with a circuit calls are there. -/
theorem isSome_of_expands (h : Expands M ρ is C) (hc : Instr.call n args ∈ is) :
    (M.getFunction n).isSome := by
  induction h with
  | nil => exact absurd hc List.not_mem_nil
  | alloca _ _ _ ih => exact ih (by simpa using hc)
  | gate g _ ih => exact ih (by simpa using hc)
  | call hf _ _ _ _ ih₂ =>
    rcases List.mem_cons.mp hc with heq | hc
    · obtain ⟨rfl, rfl⟩ := Instr.call.inj heq
      rw [hf, Option.isSome_some]
    · exact ih₂ hc
  | declared hf _ _ ih =>
    rcases List.mem_cons.mp hc with heq | hc
    · obtain ⟨rfl, rfl⟩ := Instr.call.inj heq
      rw [hf, Option.isSome_some]
    · exact ih hc

/-- No chain of calls below a body with a circuit goes on for ever. -/
theorem acc_of_expands (h : Expands M ρ is C) (hc : Instr.call n args ∈ is) :
    Acc (Function.swap (Calls M)) n := by
  induction h generalizing n args with
  | nil => exact absurd hc List.not_mem_nil
  | alloca _ _ _ ih => exact ih (by simpa using hc)
  | gate g _ ih => exact ih (by simpa using hc)
  | call hf hb _ _ ih₁ ih₂ =>
    rcases List.mem_cons.mp hc with heq | hc
    · obtain ⟨rfl, rfl⟩ := Instr.call.inj heq
      refine ⟨_, fun g hg ↦ ?_⟩
      obtain ⟨b, args, hb', hg⟩ := hg
      obtain rfl := Option.some_injective _ ((Module.bodyOf_eq_some.mpr ⟨_, hf, hb⟩).symm.trans hb')
      exact ih₁ hg
    · exact ih₂ hc
  | declared hf hb _ ih =>
    rcases List.mem_cons.mp hc with heq | hc
    · obtain ⟨rfl, rfl⟩ := Instr.call.inj heq
      refine ⟨_, fun g hg ↦ ?_⟩
      obtain ⟨b, args, hb', -⟩ := hg
      rw [Module.bodyOf, hf, Option.bind_some, hb] at hb'
      contradiction
    · exact ih hc

/-- **Calls do not come back** in a module whose bodies have circuits. -/
theorem not_transGen_calls (h : ∀ n b, M.bodyOf n = some b → ∃ ρ : Env ι, ∃ C, Expands M ρ b C)
    (f : Ident) : ¬ TransGen (Calls M) f f := by
  have hacc : Acc (Function.swap (Calls M)) f := by
    refine ⟨f, fun g hg ↦ ?_⟩
    obtain ⟨b, args, hb, hc⟩ := hg
    obtain ⟨ρ, C, hC⟩ := h f b hb
    exact acc_of_expands hC hc
  intro hcycle
  have hirrefl : ∀ g, Acc (TransGen (Function.swap (Calls M))) g →
      ¬ TransGen (Function.swap (Calls M)) g g := by
    intro g hg
    induction hg with
    | intro g _ ih => exact fun hself ↦ ih g hself hself
  exact hirrefl f hacc.transGen (transGen_swap.mpr hcycle)

end ScaffCC.Flatten
