import ScaffCC.Reverse.Kept
import ScaffCC.Toffoli.Denoted

/-!
# Passes one after the other

The makefile replaces the Toffoli gates, then inserts inverse functions, and flattens the result for
the flat formats. Each pass leaves a module that the next one is made for, and what comes out
performs what the source stands for, phases included.
-/

namespace ScaffCC.Pipeline

open Filter Quantum GateCall FunctionReverse Flatten ToffoliReplace

/-- A module as the front end makes it, with the functions that are called from outside. -/
structure Source where
  M : Module
  external : Set Ident
  wellFormed : WellFormed M
  namesFree : NamesFree M
  fresh : ∀ a b c, M.getFunction (implName a b c) = none
  bounded : ∀ n b, M.bodyOf n = some b → Scoped (numAllocas b) b

/-- The module for the counts and the hierarchical listing. -/
def Source.lowered (S : Source) (fuel : ℕ) : Option Module :=
  FunctionReverse.runOnModule fuel (ToffoliReplace.runOnModule S.M)

/-- The module for the flat listings: all functions are flattened. -/
def flattened (M : Module) (order : List Ident) : Module := Flatten.runOnModule M 1 [] order

variable {ι : Type*} {S : Source}

/-- **The first two passes.** They end, and every body performs lowered circuits of what it stands
for, one at least for each of these. -/
theorem exists_lowered (ho : Ordered S.M) (hT : TurnFree ι S.M) :
    ∃ P : Program, P.external = S.external ∧ P.Acyclic ∧
      (∀ᶠ fuel in atTop, S.lowered fuel = some P.M) ∧
      Stage (ToffoliReplace.runOnModule S.M) (namesOf (ToffoliReplace.runOnModule S.M)) P.M ∧
      ∀ n b, S.M.bodyOf n = some b → ∃ b', P.M.bodyOf n = some b' ∧
        numAllocas b' = numAllocas b ∧
        (∀ (ρ : Env ι) C, Denotes dagger S.M ρ b C → ∃ C', Expands P.M ρ b' C' ∧ Lowered C C') ∧
        ∀ (ρ : Env ι) C', Expands P.M ρ b' C' → ∃ C, Denotes dagger S.M ρ b C ∧ Lowered C C' := by
  have hM := wellFormed_runOnModule S.fresh S.wellFormed
  have hN := namesFree_runOnModule S.fresh S.namesFree
  have hT' := turnFree_runOnModule S.fresh S.wellFormed hT
  obtain ⟨R, hrun⟩ := runOnModule_complete hM hN (ordered_runOnModule S.fresh S.wellFormed ho)
  obtain ⟨fuel, hfuel⟩ := hrun.exists
  obtain ⟨hst, -⟩ := runOnModule_sound hM hN hfuel
  obtain ⟨P, rfl, hexternal, hacyclic⟩ := exists_program hM hN hst
    (keepsNodup_visitFrom hfuel hM.nodup) (fun n b ↦ scoped_runOnModule S.fresh S.bounded)
    S.external
  refine ⟨P, hexternal, hacyclic, hrun, hst, fun n b hb ↦ ?_⟩
  obtain ⟨b₁, hb₁, hrep⟩ := exists_body S.fresh hb
  obtain ⟨b₂, hb₂, hres, hmade⟩ := expands_iff_denotes (ι := ι) hM hN hst hb₁
  have hmeant := fun ρ C ↦ (hmade ρ C).trans (denotes_iff_of_turnFree hM hT' hb₁ ρ C)
  refine ⟨b₂, hb₂, by rw [numAllocas_resolved hres, numAllocas_replaced hrep],
    fun ρ C hC ↦ ?_, fun ρ C' hC' ↦ ?_⟩
  · obtain ⟨C', hC', hlow⟩ := exists_denotes_of_replaced S.fresh hC hrep
    exact ⟨C', (hmeant ρ C').mpr hC', hlow⟩
  · exact exists_lowered_of_denotes S.fresh S.wellFormed ((hmeant ρ C').mp hC') hb
      (fun _ hi ↦ hi) hrep

/-- The last pass on a function that can be reached. -/
theorem exists_flattened {P : Program} (hacyclic : P.Acyclic) {order : List Ident}
    (horder : SccOrder P order) {n : Ident} (hreach : P.Reachable n) {b : List Instr}
    (hb : P.M.bodyOf n = some b) :
    ∃ b', (flattened P.M order).bodyOf n = some b' ∧ Flat (flattened P.M order) b' ∧
      Flattened P.M b b' := by
  have hflat := (flattened_of_callersFirst P [] (callersFirst_reverse horder hacyclic)).2 n
    (List.mem_reverse.mpr ((horder.mem_iff n).mpr hreach)) (.inl one_ne_zero) b hb
  refine ⟨_, by rw [flattened, bodyOf_runOnModule, hb]; rfl, fun m args hc ↦ ?_, hflat⟩
  obtain ⟨hm, hsome⟩ := hflat.flat m args hc
  rw [flattened, bodyOf_runOnModule, hm, getFunction_runOnModule, Option.isSome_map]
  exact ⟨rfl, hsome⟩

/-- **The three passes.** A function that can be reached is flat afterwards, it performs a lowered
circuit of every circuit it stands for, and whatever it performs is lowered from one of these. -/
theorem exists_gates {ι : Type} (ho : Ordered S.M) (hT : TurnFree ι S.M) :
    ∃ P : Program, P.external = S.external ∧ (∀ᶠ fuel in atTop, S.lowered fuel = some P.M) ∧
      (∀ n ∈ S.external, ∀ b, S.M.bodyOf n = some b → P.Reachable n) ∧
      ∀ order, SccOrder P order → ∀ n b, P.Reachable n → S.M.bodyOf n = some b →
        ∃ b', (flattened P.M order).bodyOf n = some b' ∧ Flat (flattened P.M order) b' ∧
          (∀ (ρ : Env ι) C, Denotes dagger S.M ρ b C →
            ∃ ρ', Agrees (numAllocas b) ρ ρ' ∧ Lowered C (gates ρ' b')) ∧
          ∀ ρ : Env ι, ∃ C, Denotes dagger S.M ρ b C ∧ Lowered C (gates ρ b') := by
  obtain ⟨P, hexternal, hacyclic, hrun, -, hbody⟩ := exists_lowered ho hT
  refine ⟨P, hexternal, hrun, fun n hn b hb ↦ ?_, fun order horder n b hreach hb ↦ ?_⟩
  · obtain ⟨b₁, hb₁, -⟩ := hbody n b hb
    exact ⟨n, hexternal ▸ hn, Module.isSome_of_bodyOf hb₁, .refl⟩
  obtain ⟨b₁, hb₁, halloca, hforth, hback⟩ := hbody n b hb
  obtain ⟨b', hb', hcalls, hflat⟩ := exists_flattened hacyclic horder hreach hb₁
  refine ⟨b', hb', hcalls, fun ρ C hC ↦ ?_, fun ρ ↦ ?_⟩
  · obtain ⟨C', hC', hlow⟩ := hforth ρ C hC
    obtain ⟨ρ', hagrees, rfl⟩ := (hflat.expands ι ρ C').mp hC'
    exact ⟨ρ', halloca ▸ hagrees, hlow⟩
  · exact hback ρ _ ((hflat.expands ι ρ _).mpr ⟨ρ, .refl _ ρ, rfl⟩)

/-- **What comes out means what the source means.** The passes end. A function that can be reached
calls no function with a body afterwards, it has a circuit with the meaning of every circuit that
the source stands for, and each circuit it has means one of these. -/
theorem compiles {ι : Type} [DecidableEq ι] (ho : Ordered S.M) (hT : TurnFree ι S.M) :
    ∃ P : Program, P.external = S.external ∧ (∀ᶠ fuel in atTop, S.lowered fuel = some P.M) ∧
      ∀ order, SccOrder P order → ∀ n b, P.Reachable n → S.M.bodyOf n = some b →
        ∃ b', (flattened P.M order).bodyOf n = some b' ∧
          (∀ m args, .call m args ∈ b' → (flattened P.M order).bodyOf m = none) ∧
          (∀ (ρ : Env ι) C, Denotes dagger S.M ρ b C → ToffolisDistinct C →
            ∃ ρ' C', Agrees (numAllocas b) ρ ρ' ∧ Expands (flattened P.M order) ρ' b' C' ∧
              circuit C' = circuit C) ∧
          ∀ (ρ : Env ι) C', Expands (flattened P.M order) ρ b' C' →
            ∃ C, Denotes dagger S.M ρ b C ∧ (ToffolisDistinct C → circuit C' = circuit C) := by
  obtain ⟨P, hexternal, hrun, -, hbody⟩ := exists_gates ho hT
  refine ⟨P, hexternal, hrun, fun order horder n b hreach hb ↦ ?_⟩
  obtain ⟨b', hb', hflat, hforth, hback⟩ := hbody order horder n b hreach hb
  refine ⟨b', hb', fun m args hc ↦ (hflat m args hc).1, fun ρ C hC hd ↦ ?_, fun ρ C' hC' ↦ ?_⟩
  · obtain ⟨ρ', hagrees, hlow⟩ := hforth ρ C hC
    exact ⟨ρ', _, hagrees, hflat.expands_iff.mpr rfl, hlow.circuit_eq hd⟩
  · obtain rfl := hflat.expands_iff.mp hC'
    obtain ⟨C, hC, hlow⟩ := hback ρ
    exact ⟨C, hC, hlow.circuit_eq⟩

/-! ## A function and its inverse -/

/-- The function of the main function has a Toffoli gate, and is called forth and back. -/
def forthAndBack : Module :=
  [⟨"f".toList, some [
      .gate (.Toffoli ⟨.qbit, .param 0, 0⟩ ⟨.qbit, .param 1, 0⟩ ⟨.qbit, .param 2, 0⟩),
      .gate (gate1 .T ⟨.qbit, .param 0, 0⟩)]⟩,
    ⟨"main".toList, some [.alloca .qbit 3,
      .call "f".toList ((List.range 3).map fun i ↦ .qubit ⟨.qbit, .alloca 0, i⟩),
      .call (stacked 1 "f".toList) ((List.range 3).map fun i ↦ .qubit ⟨.qbit, .alloca 0, i⟩)]⟩,
    ⟨stacked 1 "f".toList, none⟩]

theorem forthAndBack_bodyOf {n : Ident} {b : List Instr} (hb : forthAndBack.bodyOf n = some b) :
    n = "f".toList ∧ (∀ c args, Instr.call c args ∉ b) ∨
      n = "main".toList ∧ ∀ c args, Instr.call c args ∈ b →
        c = "f".toList ∨ c = stacked 1 "f".toList := by
  obtain ⟨F, hF, hFb⟩ := Module.bodyOf_eq_some.mp hb
  have hmem := Module.mem_of_getFunction hF
  rw [← Module.name_of_getFunction hF]
  simp only [forthAndBack, List.mem_cons, List.not_mem_nil, or_false] at hmem
  rcases hmem with rfl | rfl | rfl
  · obtain rfl := Option.some_injective _ hFb
    exact .inl ⟨rfl, fun c args hc ↦ by simp at hc⟩
  · obtain rfl := Option.some_injective _ hFb
    refine .inr ⟨rfl, fun c args hc ↦ ?_⟩
    simp only [List.mem_cons, reduceCtorEq, Instr.call.injEq, List.not_mem_nil, or_false,
      false_or] at hc
    exact hc.imp And.left And.left
  · contradiction

theorem forthAndBack_call {n f : Ident} {b : List Instr} (hb : forthAndBack.bodyOf n = some b)
    {k : ℕ} {args : List Arg} (hf : ¬ reversePrefix <+: f)
    (hc : Instr.call (stacked k f) args ∈ b) : n = "main".toList ∧ f = "f".toList := by
  rcases forthAndBack_bodyOf hb with ⟨-, hno⟩ | ⟨hmain, hcalls⟩
  · exact absurd hc (hno _ args)
  · refine ⟨hmain, (hcalls _ args hc).elim (fun h ↦ ?_) fun h ↦ ?_⟩
    · have hnone : stacked k f = stacked 0 "f".toList := h
      exact (stacked_injective hf (by decide) hnone).2
    · exact (stacked_injective hf (by decide) h).2

/-- The module as the front end makes it, called from outside at the main function. -/
def forthAndBackSource : Source where
  M := forthAndBack
  external := {"main".toList}
  wellFormed := by
    refine ⟨by decide, fun n b hb c args hc ↦ ?_, fun n b hb k f args hk hf hc ↦ ?_,
      fun n ↦ if n = "main".toList then 1 else 0, fun n b hb k f args hf hc ↦ ?_⟩
    · rcases forthAndBack_bodyOf hb with ⟨-, hno⟩ | ⟨-, hcalls⟩
      · exact absurd hc (hno c args)
      · rcases hcalls c args hc with rfl | rfl <;> decide
    · obtain ⟨rfl, rfl⟩ := forthAndBack_call hb hf hc
      exact .inl (by decide)
    · obtain ⟨rfl, rfl⟩ := forthAndBack_call hb hf hc
      decide
  namesFree := by
    refine ⟨fun n ↦ ?_, fun n hn ↦ ?_, by decide, by decide, by decide⟩
    · have hlast : ∀ F ∈ forthAndBack, F.name.getLast? ≠ some 'e' := by decide
      by_contra hne
      obtain ⟨F, hF⟩ := Option.ne_none_iff_exists'.mp hne
      refine hlast F (Module.mem_of_getFunction hF) ?_
      have he : "_Reverse".toList.getLast? = some 'e' := by decide
      rw [Module.name_of_getFunction hF, reverseFuncName, List.getLast?_append, he, Option.some_or]
    · cases hb : forthAndBack.bodyOf n with
      | none => rfl
      | some b =>
        rcases forthAndBack_bodyOf hb with ⟨rfl, -⟩ | ⟨rfl, -⟩ <;> exact absurd hn (by decide)
  fresh a b c := by cases a <;> cases b <;> cases c <;> decide
  bounded n b hb := by
    have hall : ∀ F ∈ forthAndBack, ∀ b ∈ F.body, ∀ i ∈ b, ∀ o ∈ Flatten.operands i,
        o.base ∈ [.param 0, .param 1, .param 2] ∨ o.base = .alloca 0 ∧ 0 < numAllocas b := by
      decide
    obtain ⟨F, hF, hFb⟩ := Module.bodyOf_eq_some.mp hb
    intro i hi o ho k hk
    rcases hall F (Module.mem_of_getFunction hF) b hFb i hi o ho with hparam | ⟨halloca, hpos⟩
    · rw [hk] at hparam
      simp at hparam
    · rw [hk] at halloca
      obtain rfl := Base.alloca.inj halloca
      exact hpos

theorem ordered_forthAndBack : Ordered forthAndBack := by
  intro A F B hAB f hf g hg
  obtain ⟨b, k, args, hb, hk, hfp, -, hc⟩ := hf
  obtain ⟨-, rfl⟩ := forthAndBack_call hb hfp hc
  -- the function makes no call
  have hsame : g = "f".toList := by
    induction hg with
    | refl => rfl
    | tail _ hstep ih =>
      obtain ⟨b', k', args', hb', -, -, -, hc'⟩ := hstep
      rcases forthAndBack_bodyOf hb' with ⟨-, hno⟩ | ⟨hmain, -⟩
      · exact absurd hc' (hno _ args')
      · rw [ih] at hmain
        exact absurd hmain (by decide)
  subst hsame
  refine .inr ⟨by decide, fun ⟨b', hb', hrev⟩ ↦ absurd (fun c args hc ↦ ?_) hrev⟩
  rcases forthAndBack_bodyOf hb' with ⟨-, hno⟩ | ⟨hmain, -⟩
  · exact absurd hc (hno c args)
  · exact absurd hmain (by decide)

theorem turnFree_forthAndBack (ι : Type*) : TurnFree ι forthAndBack := by
  intro n f hodd b hb ρ C hC a q θ hmem
  obtain ⟨b₀, k, args, hb₀, -, hf, -, hc⟩ := hodd
  obtain ⟨-, rfl⟩ := forthAndBack_call hb₀ hf hc
  obtain rfl := Option.some_injective _ hb
  obtain ⟨C₁, hC₁, rfl⟩ := Denotes.gate_iff.mp hC
  obtain ⟨C₂, hC₂, rfl⟩ := Denotes.gate_iff.mp hC₁
  rw [Denotes.nil_iff.mp hC₂] at hmem
  simp [GateCall.map] at hmem

/-- The main function means the function and then its inverse. -/
theorem compiles_forthAndBack :
    ∃ P : Program, P.external = {"main".toList} ∧
      (∀ᶠ fuel in atTop, forthAndBackSource.lowered fuel = some P.M) ∧
      ∀ order, SccOrder P order → ∀ n b, P.Reachable n → forthAndBack.bodyOf n = some b →
        ∃ b', (flattened P.M order).bodyOf n = some b' ∧
          (∀ m args, .call m args ∈ b' → (flattened P.M order).bodyOf m = none) ∧
          (∀ (ρ : Env ℕ) C, Denotes dagger forthAndBack ρ b C → ToffolisDistinct C →
            ∃ ρ' C', Agrees (numAllocas b) ρ ρ' ∧ Expands (flattened P.M order) ρ' b' C' ∧
              circuit C' = circuit C) ∧
          ∀ (ρ : Env ℕ) C', Expands (flattened P.M order) ρ b' C' →
            ∃ C, Denotes dagger forthAndBack ρ b C ∧
              (ToffolisDistinct C → circuit C' = circuit C) :=
  compiles (S := forthAndBackSource) ordered_forthAndBack (turnFree_forthAndBack ℕ)

end ScaffCC.Pipeline
