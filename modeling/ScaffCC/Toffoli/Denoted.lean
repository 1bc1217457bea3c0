import ScaffCC.Flatten.Inline
import ScaffCC.Toffoli.Kept

/-!
# What functions stand for after the replacement

A function of the new module stands for the circuits it stood for, lowered, and for no others. The
functions that are turned round may hold replaced gates as well, so that the implementations come
in both directions.
-/

namespace ScaffCC.ToffoliReplace

open GateCall FunctionReverse Flatten

variable {ι : Type*} {M : Module}

/-! ## Operands -/

theorem numAllocas_replaced {N : Module} {b b' : List Instr} (h : Replaced N b b') :
    numAllocas b' = numAllocas b := by
  induction h with
  | nil => rfl
  | cons hij _ ih =>
    rw [numAllocas, numAllocas] at ih
    rw [numAllocas, numAllocas, List.countP_cons, List.countP_cons, ih]
    cases hij <;> rfl

theorem scoped_replaced {N : Module} {b b' : List Instr} {k : ℕ} (h : Replaced N b b')
    (hb : Scoped k b) : Scoped k b' := by
  intro j hj o ho
  obtain ⟨i, hi, hij⟩ := exists_of_mem_right h hj
  refine hb i hi o ?_
  cases hij with
  | same => exact ho
  | toffoli => exact ho

theorem operands_implGates (c₁ c₂ t : ι) : ∀ g ∈ implGates c₁ c₂ t, ∀ o ∈ g.operands,
    o = c₁ ∨ o = c₂ ∨ o = t := by
  simp [implGates, implPhase, GateCall.operands]

theorem scoped_toffoliImpl {a b c : QTy} {is : List Instr} (h : (toffoliImpl a b c).body = some is)
    (k : ℕ) : Scoped k is := by
  obtain rfl := Option.some_injective _ h
  intro i hi o ho m hm
  obtain ⟨g, hg, rfl⟩ := List.mem_map.mp hi
  rcases operands_implGates _ _ _ g hg o ho with rfl | rfl | rfl <;> contradiction

/-- **Operands stay within their functions.** -/
theorem scoped_runOnModule (hfresh : ∀ a b c, M.getFunction (implName a b c) = none)
    (hbounded : ∀ n b, M.bodyOf n = some b → Scoped (numAllocas b) b) {n : Ident} {b' : List Instr}
    (hb' : (runOnModule M).bodyOf n = some b') : Scoped (numAllocas b') b' := by
  rcases body_cases hfresh hb' with ⟨b, hb, hrep⟩ | ⟨a₁, a₂, a₃, -, himpl⟩
  · rw [numAllocas_replaced hrep]
    exact scoped_replaced hrep (hbounded n b hb)
  · exact scoped_toffoliImpl himpl _

/-! ## The circuit of an implementation -/

theorem denotes_gates {inv : GateCall ι → GateCall ι} {ρ : Env ι} {G : List (GateCall Operand)}
    {C : List (GateCall ι)} :
    Denotes inv M ρ (G.map .gate) C ↔ C = G.map (GateCall.map ρ.wire) := by
  induction G generalizing C with
  | nil => exact Denotes.nil_iff
  | cons g G ih =>
    rw [List.map_cons, Denotes.gate_iff]
    simp only [ih, exists_eq_left]
    rfl

theorem denotes_call_toffoliImpl {inv : GateCall ι → GateCall ι} {c₁ c₂ t : Operand}
    (h : M.getFunction (implName c₁.ty c₂.ty t.ty) = some (toffoliImpl c₁.ty c₂.ty t.ty))
    {ρ : Env ι} {is : List Instr} {C : List (GateCall ι)} :
    Denotes inv M ρ (.call (implName c₁.ty c₂.ty t.ty) [.qubit c₁, .qubit c₂, .qubit t] :: is) C ↔
      ∃ C', Denotes inv M ρ is C' ∧
        C = implGates (ρ.wire c₁) (ρ.wire c₂) (ρ.wire t) ++ C' := by
  have hbody : M.bodyOf (implName c₁.ty c₂.ty t.ty) = some _ :=
    Module.bodyOf_eq_some.mpr ⟨_, h, rfl⟩
  have hcall : Denotes inv M ρ (.call (stacked 0 (implName c₁.ty c₂.ty t.ty))
      [.qubit c₁, .qubit c₂, .qubit t] :: is) C ↔ _ :=
    Denotes.call_iff_of_body (not_reversePrefix_implName _ _ _) hbody
  rw [stacked] at hcall
  rw [hcall]
  simp only [denotes_gates]
  constructor
  · rintro ⟨loc, C₁, C₂, rfl, h₂, rfl⟩
    exact ⟨C₂, h₂, rfl⟩
  · rintro ⟨C₂, h₂, rfl⟩
    exact ⟨fun _ _ ↦ ρ.wire t, _, C₂, rfl, h₂, rfl⟩

section Denoted

variable (hfresh : ∀ a b c, M.getFunction (implName a b c) = none) (hM : WellFormed M)

include hfresh

/-- **Every circuit of the old body has one of the new body** that is lowered from it. -/
theorem exists_denotes_of_replaced {ρ : Env ι} {is js : List Instr} {C : List (GateCall ι)}
    (h : Denotes dagger M ρ is C) (hrep : Replaced (runOnModule M) is js) :
    ∃ C', Denotes dagger (runOnModule M) ρ js C' ∧ Lowered C C' := by
  induction h generalizing js with
  | nil ρ =>
    cases hrep
    exact ⟨[], .nil ρ, .nil⟩
  | alloca ty size _ ih =>
    cases hrep with
    | cons hi his =>
      cases hi
      obtain ⟨C', hC', hlow⟩ := ih his
      exact ⟨C', .alloca ty size hC', hlow⟩
  | gate g _ ih =>
    cases hrep with
    | cons hi his =>
      obtain ⟨C', hC', hlow⟩ := ih his
      cases hi with
      | same => exact ⟨_, .gate g hC', .cons (.same _) hlow⟩
      | toffoli himpl =>
        exact ⟨_, (denotes_call_toffoliImpl himpl).mpr ⟨C', hC', rfl⟩, .cons (.forth _ _ _) hlow⟩
  | @call ρ is k f args b loc C₁ C₂ hf hb _ _ ih₁ ih₂ =>
    cases hrep with
    | cons hi his =>
      cases hi
      obtain ⟨b', hb', hrep'⟩ := exists_body hfresh hb
      obtain ⟨C₁', hC₁', hlow₁⟩ := ih₁ hrep'
      obtain ⟨C₂', hC₂', hlow₂⟩ := ih₂ his
      exact ⟨_, .call hf hb' hC₁' hC₂', (hlow₁.turned k).append hlow₂⟩
  | @intrinsic ρ is k f args g C hf hk hnone hg _ ih =>
    cases hrep with
    | cons hi his =>
      cases hi
      obtain ⟨C', hC', hlow⟩ := ih his
      have hnone' := getFunction_runOnModule_eq_none hfresh hnone (ne_implName_of_intrinsic hg)
      exact ⟨_, .intrinsic hf hk hnone' hg hC', ((LoweredGate.same _).lowered.turned k).append hlow⟩
  | @declared ρ is n args C hn hsome hbody _ ih =>
    cases hrep with
    | cons hi his =>
      cases hi
      obtain ⟨C', hC', hlow⟩ := ih his
      refine ⟨C', .declared hn (isSome_getFunction_runOnModule hfresh hsome) ?_ hC', hlow⟩
      refine bodyOf_runOnModule_eq_none hfresh hbody fun a b c hname ↦ ?_
      rw [hname, hfresh] at hsome
      contradiction

include hM

/-- **The new body has no other circuits.** -/
theorem exists_lowered_of_denotes {ρ : Env ι} {js : List Instr} {C' : List (GateCall ι)}
    (h : Denotes dagger (runOnModule M) ρ js C') {n : Ident} {b is : List Instr}
    (hb : M.bodyOf n = some b) (his : ∀ i ∈ is, i ∈ b) (hrep : Replaced (runOnModule M) is js) :
    ∃ C, Denotes dagger M ρ is C ∧ Lowered C C' := by
  induction h generalizing n b is with
  | nil ρ =>
    cases hrep
    exact ⟨[], .nil ρ, .nil⟩
  | alloca ty size _ ih =>
    cases hrep with
    | cons hi hrest =>
      cases hi
      obtain ⟨C, hC, hlow⟩ := ih hb (fun i hi ↦ his i (List.mem_cons_of_mem _ hi)) hrest
      exact ⟨C, .alloca ty size hC, hlow⟩
  | gate g _ ih =>
    cases hrep with
    | cons hi hrest =>
      cases hi
      obtain ⟨C, hC, hlow⟩ := ih hb (fun i hi ↦ his i (List.mem_cons_of_mem _ hi)) hrest
      exact ⟨_, .gate g hC, .cons (.same _) hlow⟩
  | @call ρ js k f args b' loc C₁' C₂' hf hb' h₁ h₂ ih₁ ih₂ =>
    cases hrep with
    | @cons i _ is' _ hi hrest =>
      obtain ⟨C₂, hC₂, hlow₂⟩ := ih₂ hb (fun i hi ↦ his i (List.mem_cons_of_mem _ hi)) hrest
      -- the call stands in the new body, as the same call or in the place of a Toffoli
      generalize hcall : Instr.call (stacked k f) args = j at hi
      cases hi with
      | same =>
        subst hcall
        rcases body_cases hfresh hb' with ⟨bf, hbf, hrep'⟩ | ⟨a₁, a₂, a₃, hname, -⟩
        · obtain ⟨C₁, hC₁, hlow₁⟩ := ih₁ hbf (fun i hi ↦ hi) hrep'
          exact ⟨_, .call hf hbf hC₁ hC₂, (hlow₁.turned k).append hlow₂⟩
        · exact absurd hname
            (ne_implName_of_call hfresh hM hb hf (his _ List.mem_cons_self) a₁ a₂ a₃)
      | @toffoli c₁ c₂ t himpl =>
        obtain ⟨hname, rfl⟩ := Instr.call.inj hcall
        obtain ⟨rfl, rfl⟩ := eq_zero_of_stacked_eq_implName hname
        rw [Module.bodyOf, himpl] at hb'
        obtain rfl := Option.some_injective _ hb'
        rw [turned, if_neg (by decide), denotes_gates.mp h₁]
        exact ⟨_, .gate _ hC₂, .cons (.forth _ _ _) hlow₂⟩
  | @intrinsic ρ js k f args g C' hf hk hnone hg _ ih =>
    cases hrep with
    | @cons i _ is' _ hi hrest =>
      obtain ⟨C, hC, hlow⟩ := ih hb (fun i hi ↦ his i (List.mem_cons_of_mem _ hi)) hrest
      generalize hcall : Instr.call (stacked k f) args = j at hi
      cases hi with
      | same =>
        subst hcall
        -- the pass removes no function, so the old module has no such name either
        have hnone' : M.getFunction f = none := by
          by_contra hF
          have hsome := isSome_getFunction_runOnModule hfresh (Option.isSome_iff_ne_none.mpr hF)
          rw [hnone] at hsome
          contradiction
        exact ⟨_, .intrinsic hf hk hnone' hg hC,
          ((LoweredGate.same _).lowered.turned k).append hlow⟩
      | toffoli himpl =>
        exact absurd (eq_zero_of_stacked_eq_implName (Instr.call.inj hcall).1).1 hk
  | @declared ρ js m args C' hm hsome hbody _ ih =>
    cases hrep with
    | @cons i _ is' _ hi hrest =>
      obtain ⟨C, hC, hlow⟩ := ih hb (fun i hi ↦ his i (List.mem_cons_of_mem _ hi)) hrest
      cases hi with
      | same =>
        have hsome' := hM.declared n b hb m args (his _ List.mem_cons_self)
        refine ⟨C, .declared hm hsome' ?_ hC, hlow⟩
        cases hbm : M.bodyOf m with
        | none => rfl
        | some bm =>
          obtain ⟨bm', hbm', -⟩ := exists_body hfresh hbm
          rw [hbody] at hbm'
          contradiction
      | toffoli himpl =>
        rw [Module.bodyOf, himpl] at hbody
        contradiction

/-- **No rotation comes to be turned round.** -/
theorem turnFree_runOnModule (hT : TurnFree ι M) : TurnFree ι (runOnModule M) := by
  intro n f hodd b' hb' ρ C' hC'
  have hodd' := oddCall_of_runOnModule hfresh hM hodd
  obtain ⟨b₀, k, args, hb₀, hk, hf, -, hc⟩ := id hodd'
  rcases body_cases hfresh hb' with ⟨b, hb, hrep⟩ | ⟨a₁, a₂, a₃, hname, -⟩
  · obtain ⟨C, hC, hlow⟩ :=
      exists_lowered_of_denotes hfresh hM hC' hb (fun _ hi ↦ hi) hrep
    exact hlow.anglesZero (hT n f hodd' b hb ρ C hC)
  · exact absurd hname (ne_implName_of_call hfresh hM hb₀ hf hc a₁ a₂ a₃)

end Denoted

end ScaffCC.ToffoliReplace
