import ScaffCC.Reverse.Run

/-!
# What the pass makes of a module

When the pass ends, every body performs what it denotes with the table of the pass in place of the
true inverses. The two agree exactly when no function under an odd number of prefixes performs a
rotation by an angle other than zero. So a module comes out as it is meant, in the order in which it
stands, exactly when its functions are ordered and no such rotation is reversed. In every order it
does so exactly when no prefixed call stands below an odd one.
-/

namespace ScaffCC.FunctionReverse

open Filter Quantum GateCall Relation

variable {ι : Type*} {M R : Module} {n : Ident}

/-! ## The circuits made -/

section Made

variable (hM : WellFormed M) (hN : NamesFree M) (h : Stage M (namesOf M) R)
include hM hN h

private theorem expands_iff_denotes_of_calls {is js : List Instr}
    (hres : Resolved M R is js)
    (hdecl : ∀ c args, Instr.call c args ∈ is → (M.getFunction c).isSome)
    (hcalls : ∀ k f args, ¬ reversePrefix <+: f → Instr.call (stacked k f) args ∈ is →
      ∀ bf, M.bodyOf f = some bf → ∃ bf', R.bodyOf f = some bf' ∧
        ∀ (ρ : Env ι) C, Expands R ρ bf' C ↔ Denotes inverseGate M ρ bf C)
    (ρ : Env ι) (C : List (GateCall ι)) :
    Expands R ρ js C ↔ Denotes inverseGate M ρ is C := by
  induction hres generalizing C with
  | nil => rw [Expands.nil_iff, Denotes.nil_iff]
  | @cons i j is js hij _ ih =>
    have htail := ih (fun c args hc ↦ hdecl c args (List.mem_cons_of_mem i hc))
      fun k f args hf hc ↦ hcalls k f args hf (List.mem_cons_of_mem i hc)
    cases hij with
    | same hp =>
      cases i with
      | alloca ty size => rw [Expands.alloca_iff, Denotes.alloca_iff, htail]
      | gate g => simp only [Expands.gate_iff, Denotes.gate_iff, htail]
      | call c args =>
        have hc := hp c args rfl
        have hsome := hdecl c args List.mem_cons_self
        cases hb : M.bodyOf c with
        | none =>
          -- a declaration stays one: no reverse is made of it
          have hbR := h.bodyOf_eq_none (ne_reverseFuncName hN hsome) hb
          rw [Expands.call_iff_of_none hbR, Denotes.call_iff_of_declared hc hsome hb, htail]
          exact and_iff_right (h.isSome hsome)
        | some b =>
          obtain ⟨b', hb', hiff⟩ := hcalls 0 c args hc List.mem_cons_self b hb
          have hden : Denotes inverseGate M ρ (.call (stacked 0 c) args :: is) C ↔ _ :=
            Denotes.call_iff_of_body hc hb
          refine Iff.trans ?_ hden.symm
          simp only [Expands.call_iff_of_body hb', hiff, htail]
          rfl
    | @function k f args hf hk hbf hr =>
      obtain ⟨bf, hbf⟩ := Option.isSome_iff_exists.mp hbf
      obtain ⟨bf', hbf', hiff⟩ := hcalls k f args hf List.mem_cons_self bf hbf
      rw [Denotes.call_iff_of_body hf hbf]
      -- an odd number of suffixes is the inverse, an even one the function itself
      by_cases ho : Odd k
      · -- `store_cbit` has no body, so it is not the function called
        have hfs : f ≠ storeCbit := by
          rintro rfl
          rw [hN.store] at hbf
          contradiction
        obtain ⟨br, hbr, hmir⟩ := mirrorsAt (ι := ι) (h.settled.mono (Set.subset_univ _))
          (h.bodyOf_storeCbit hN)
          (invertible_of_inverted hM hN h (Module.isSome_of_bodyOf hbf) (hr ho)) hfs (hr ho)
          bf' hbf'
        simp only [if_pos ho, Expands.call_iff_of_body hbr, hmir, hiff, htail, turned]
        constructor
        · rintro ⟨loc, C₁, C₂, h₁, h₂, rfl⟩
          refine ⟨loc, inverse C₁, C₂, h₁, h₂, ?_⟩
          rw [← inverse, inverse_inverse]
        · rintro ⟨loc, C₁, C₂, h₁, h₂, rfl⟩
          exact ⟨loc, inverse C₁, C₂, by rwa [inverse_inverse], h₂, rfl⟩
      · simp only [if_neg ho, Expands.call_iff_of_body hbf', hiff, htail, turned]
    | @intrinsic k f args g hf hk hnone hg =>
      rw [Denotes.call_iff_of_intrinsic hf hk hnone hg, Expands.gate_iff]
      by_cases ho : Odd k
      · simp only [htail, if_pos ho, turned, ← inverseGate_map]
        rfl
      · simp only [htail, if_neg ho, turned]
        rfl

/-- **The circuits made.** A visited body performs what it denotes with the table of the pass. -/
theorem expands_iff_denotes {b : List Instr} (hb : M.bodyOf n = some b) :
    ∃ b', R.bodyOf n = some b' ∧ Resolved M R b b' ∧
      ∀ (ρ : Env ι) C, Expands R ρ b' C ↔ Denotes inverseGate M ρ b C := by
  obtain ⟨rank, hrank⟩ := hM.acyclic
  induction hr : rank n using Nat.strong_induction_on generalizing n b with
  | _ r ih =>
    obtain ⟨b', hb', hres⟩ := h.visited n (mem_names_iff.mp (Module.isSome_of_bodyOf hb)) b hb
    refine ⟨b', hb', hres, expands_iff_denotes_of_calls hM hN h hres (hM.declared n b hb) ?_⟩
    intro k f args hf hc bf hbf
    obtain ⟨bf', hbf', -, hiff⟩ := ih _ (hr ▸ hrank n b hb k f args hf hc) hbf rfl
    exact ⟨bf', hbf', hiff⟩

end Made

/-! ## The circuits meant -/

/-- No function under an odd number of prefixes performs a rotation by an angle other than zero. -/
def TurnFree (ι : Type*) (M : Module) : Prop :=
  ∀ n f, OddCall M n f → ∀ b, M.bodyOf f = some b → ∀ (ρ : Env ι) C, Denotes dagger M ρ b C →
    AnglesZero C

theorem dagger_of_anglesZero {C : List (GateCall ι)} (h : AnglesZero C) :
    C.map dagger = C.map inverseGate := by
  refine List.map_congr_left fun g hg ↦ ?_
  cases g with
  | rot a q θ =>
    obtain rfl := h a q θ hg
    simp [dagger, inverseGate]
  | _ => rfl

theorem turned_dagger_of_anglesZero (k : ℕ) {C : List (GateCall ι)} (h : AnglesZero C) :
    turned dagger k C = turned inverseGate k C := by
  rw [turned, turned, dagger_of_anglesZero h]

/-- Two circuits of one shape that the two tables turn into the same circuit have no rotation by
another angle than zero. -/
theorem anglesZero_of_map_eq {C D : List (GateCall ι)}
    (h : C.map inverseGate = D.map dagger) (hs : C.map shape = D.map shape) : AnglesZero C := by
  induction C generalizing D with
  | nil => exact fun _ _ _ hm ↦ absurd hm List.not_mem_nil
  | cons g C ih =>
    cases D with
    | nil => nomatch h
    | cons g' D =>
      rw [List.map_cons, List.map_cons, List.cons.injEq] at h hs
      intro a q θ hm
      rcases List.mem_cons.mp hm with rfl | hm
      · have hg' : g' = rot a q (-θ) := by
          have := h.1
          rcases g' with ⟨_ | _⟩ | ⟨b, r, φ⟩ | _ | _ | _ | _ | _ <;> simp_all [inverseGate, dagger]
        have hθ := hs.1
        rw [hg', shape, GateCall.map, GateCall.map, GateCall.rot.injEq] at hθ
        linarith [hθ.2.2]
      · exact ih h.2 hs.2 a q θ hm

theorem anglesZero_of_shape_eq {C D : List (GateCall ι)} (hs : C.map shape = D.map shape)
    (hC : AnglesZero C) : AnglesZero D := by
  intro a q θ hm
  have hmem : shape (rot a q θ) ∈ C.map shape := hs ▸ List.mem_map_of_mem hm
  obtain ⟨g, hg, hgs⟩ := List.mem_map.mp hmem
  cases g with
  | rot a' q' θ' =>
    obtain ⟨-, -, rfl⟩ := GateCall.rot.inj hgs
    exact hC a' q' θ' hg
  | _ => nomatch hgs

/-- What a call of a well-formed body stands for: the circuit of a function, nothing, or an
intrinsic. -/
theorem WellFormed.callee_cases (hM : WellFormed M) {b : List Instr} (hb : M.bodyOf n = some b)
    {c : Ident} {args : List Arg} (hc : Instr.call c args ∈ b) :
    ∃ k f, ¬ reversePrefix <+: f ∧ c = stacked k f ∧
      ((∃ bf, M.bodyOf f = some bf) ∨
        (k = 0 ∧ (M.getFunction f).isSome ∧ M.bodyOf f = none) ∨
        (k ≠ 0 ∧ M.getFunction f = none ∧ ∃ g, intrinsic f args = some g)) := by
  obtain ⟨k, f, hf, rfl⟩ := exists_stacked c
  refine ⟨k, f, hf, rfl, ?_⟩
  cases hbf : M.bodyOf f with
  | some bf => exact .inl ⟨bf, rfl⟩
  | none =>
    by_cases hk : k = 0
    · subst hk
      exact .inr (.inl ⟨rfl, hM.declared n b hb _ args hc, rfl⟩)
    · rcases hM.reversed n b hb k f args hk hf hc with hsome | ⟨hnone, hsome⟩
      · rw [hbf] at hsome
        contradiction
      · exact .inr (.inr ⟨hk, hnone, Option.isSome_iff_exists.mp hsome⟩)

theorem WellFormed.exists_denotes (hM : WellFormed M) (inv : GateCall ι → GateCall ι)
    {b : List Instr} (hb : M.bodyOf n = some b) {is : List Instr} (his : ∀ i ∈ is, i ∈ b)
    (ρ : Env ι) : ∃ C, Denotes inv M ρ is C := by
  obtain ⟨rank, hrank⟩ := hM.acyclic
  induction hr : rank n using Nat.strong_induction_on generalizing n b is ρ with
  | _ r ih =>
    induction is with
    | nil => exact ⟨[], .nil ρ⟩
    | cons i is ihs =>
      obtain ⟨C, hC⟩ := ihs fun j hj ↦ his j (List.mem_cons_of_mem i hj)
      have hi := his i List.mem_cons_self
      cases i with
      | alloca ty size => exact ⟨C, hC.alloca ty size⟩
      | gate g => exact ⟨_, hC.gate g⟩
      | call c args =>
        obtain ⟨k, f, hf, rfl, ⟨bf, hbf⟩ | ⟨rfl, hsome, hnone⟩ | ⟨hk, hnone, g, hg⟩⟩ :=
          hM.callee_cases hb hi
        · obtain ⟨C₁, hC₁⟩ := ih _ (hr ▸ hrank n b hb k f args hf hi) hbf (fun _ h ↦ h)
            (ρ.bind args fun _ _ ↦ ρ (.param 0) 0) rfl
          exact ⟨_, .call hf hbf hC₁ hC⟩
        · exact ⟨C, .declared hf hsome hnone hC⟩
        · exact ⟨_, .intrinsic hf hk hnone hg hC⟩

/-- An intrinsic found behind prefixes has the same inverse in both tables. -/
theorem turned_intrinsic {k : ℕ} {f : Ident} {args : List Arg} {g : GateCall Operand}
    (hg : intrinsic f args = some g) (ρ : Env ι) :
    turned dagger k [g.map ρ.wire] = turned inverseGate k [g.map ρ.wire] := by
  refine turned_dagger_of_anglesZero k fun a q θ hm ↦ ?_
  cases g with
  | rot a' q' θ' => exact absurd hg intrinsic_ne_rot
  | _ => nomatch List.mem_singleton.mp hm

/-- When no other rotation than by zero is reversed, what is made is what is meant. -/
theorem denotes_iff_of_turnFree (hM : WellFormed M) (hT : TurnFree ι M) {b : List Instr}
    (hb : M.bodyOf n = some b) (ρ : Env ι) (C : List (GateCall ι)) :
    Denotes inverseGate M ρ b C ↔ Denotes dagger M ρ b C := by
  obtain ⟨rank, hrank⟩ := hM.acyclic
  induction hr : rank n using Nat.strong_induction_on generalizing n b ρ C with
  | _ r ih =>
    have hsub : ∀ is : List Instr, (∀ i ∈ is, i ∈ b) → ∀ C : List (GateCall ι),
        Denotes inverseGate M ρ is C ↔ Denotes dagger M ρ is C := by
      intro is his
      induction is with
      | nil => exact fun C ↦ Denotes.nil_iff.trans Denotes.nil_iff.symm
      | cons i is ihs =>
        intro C
        have htail := ihs fun j hj ↦ his j (List.mem_cons_of_mem i hj)
        have hi := his i List.mem_cons_self
        cases i with
        | alloca ty size => rw [Denotes.alloca_iff, Denotes.alloca_iff, htail]
        | gate g => simp only [Denotes.gate_iff, htail]
        | call c args =>
          obtain ⟨k, f, hf, rfl, ⟨bf, hbf⟩ | ⟨rfl, hsome, hnone⟩ | ⟨hk, hnone, g, hg⟩⟩ :=
            hM.callee_cases hb hi
          · have hturned : ∀ (ρ' : Env ι) C₁, Denotes dagger M ρ' bf C₁ →
                turned dagger k C₁ = turned inverseGate k C₁ := by
              intro ρ' C₁ hC₁
              by_cases ho : Odd k
              · exact turned_dagger_of_anglesZero k (hT n f ⟨b, k, args, hb, ho, hf,
                  Module.isSome_of_bodyOf hbf, hi⟩ bf hbf ρ' C₁ hC₁)
              · rw [turned, turned, if_neg ho, if_neg ho]
            have hcallee := fun ρ C ↦ ih _ (hr ▸ hrank n b hb k f args hf hi) hbf ρ C rfl
            simp only [Denotes.call_iff_of_body hf hbf, hcallee, htail]
            constructor
            · rintro ⟨loc, C₁, C₂, h₁, h₂, rfl⟩
              exact ⟨loc, C₁, C₂, h₁, h₂, by rw [hturned _ C₁ h₁]⟩
            · rintro ⟨loc, C₁, C₂, h₁, h₂, rfl⟩
              exact ⟨loc, C₁, C₂, h₁, h₂, by rw [hturned _ C₁ h₁]⟩
          · exact (Denotes.call_iff_of_declared hf hsome hnone).trans
              ((htail C).trans (Denotes.call_iff_of_declared hf hsome hnone).symm)
          · simp only [Denotes.call_iff_of_intrinsic hf hk hnone hg, htail, turned_intrinsic hg]
    exact hsub b (fun _ hi ↦ hi) C

/-- When what is made is what is meant, no other rotation than by zero is reversed. The head of a
body is peeled off after the length of its circuit, and a reversed head gives one circuit turned
round by both tables. -/
theorem turnFree_of_denotes (hM : WellFormed M)
    (hsame : ∀ n b, M.bodyOf n = some b → ∀ (ρ : Env ι) C,
      Denotes inverseGate M ρ b C → Denotes dagger M ρ b C) : TurnFree ι M := by
  rintro n f ⟨b, k, args, hb, ho, hf, -, hc⟩ bf hbf ρ C hC
  -- the rest of the body has the same two meanings, down to the call in question
  have hsub : ∀ is : List Instr, (∀ i ∈ is, i ∈ b) →
      (∀ C, Denotes inverseGate M ρ is C → Denotes dagger M ρ is C) →
      Instr.call (stacked k f) args ∈ is → AnglesZero C := by
    intro is his hden hmem
    induction is with
    | nil => exact absurd hmem List.not_mem_nil
    | cons i is ih =>
      have hi := his i List.mem_cons_self
      cases i with
      | alloca ty size =>
        refine ih (fun j hj ↦ his j (List.mem_cons_of_mem _ hj)) (fun C hC ↦ ?_)
          ((List.mem_cons.mp hmem).resolve_left fun h ↦ nomatch h)
        exact Denotes.alloca_iff.mp (hden C (hC.alloca ty size))
      | gate g =>
        refine ih (fun j hj ↦ his j (List.mem_cons_of_mem _ hj)) (fun C hC ↦ ?_)
          ((List.mem_cons.mp hmem).resolve_left fun h ↦ nomatch h)
        obtain ⟨C', hC', heq⟩ := Denotes.gate_iff.mp (hden _ (hC.gate g))
        exact (List.cons.inj heq).2 ▸ hC'
      | call c args' =>
        obtain ⟨k', f', hf', rfl, ⟨bf', hbf'⟩ | ⟨rfl, hsome, hnone⟩ | ⟨hk, hnone, g, hg⟩⟩ :=
          hM.callee_cases hb hi
        · obtain ⟨C₁, hC₁⟩ := hM.exists_denotes inverseGate hbf' (fun _ h ↦ h)
            (ρ.bind args' fun _ _ ↦ ρ (.param 0) 0)
          have hsplit : ∀ C₂, Denotes inverseGate M ρ is C₂ → ∃ loc D₁,
              Denotes dagger M (ρ.bind args' loc) bf' D₁ ∧ Denotes dagger M ρ is C₂ ∧
              turned inverseGate k' C₁ = turned dagger k' D₁ := by
            intro C₂ hC₂
            obtain ⟨loc, D₁, D₂, hD₁, hD₂, heq⟩ := (Denotes.call_iff_of_body hf' hbf').mp
              (hden _ (.call hf' hbf' hC₁ hC₂))
            -- both ways give as many gates, so the two lists split at the same place
            have hlen : (turned inverseGate k' C₁).length = (turned dagger k' D₁).length := by
              rw [Denotes.length_turned, Denotes.length_turned, hC₁.length_eq hD₁]
            obtain ⟨h₁, rfl⟩ := List.append_inj heq hlen
            exact ⟨loc, D₁, hD₁, hD₂, h₁⟩
          rcases List.mem_cons.mp hmem with heq | hmem
          · -- this is the call, and an odd number of suffixes turns its gates round
            obtain ⟨hs, rfl⟩ := Instr.call.inj heq
            obtain ⟨rfl, rfl⟩ := stacked_injective hf hf' hs
            obtain rfl := Option.some_injective _ (hbf.symm.trans hbf')
            obtain ⟨C₂, hC₂⟩ := hM.exists_denotes inverseGate hb
              (fun j hj ↦ his j (List.mem_cons_of_mem _ hj)) ρ
            obtain ⟨loc, D₁, hD₁, -, hturn⟩ := hsplit C₂ hC₂
            rw [turned, turned, if_pos ho, if_pos ho, List.reverse_inj] at hturn
            have hC₁' := hsame f bf hbf _ C₁ hC₁
            exact anglesZero_of_shape_eq (hC₁'.shape_eq hC)
              (anglesZero_of_map_eq hturn (hC₁'.shape_eq hD₁))
          · exact ih (fun j hj ↦ his j (List.mem_cons_of_mem _ hj))
              (fun C₂ hC₂ ↦ (hsplit C₂ hC₂).choose_spec.choose_spec.2.1) hmem
        · refine ih (fun j hj ↦ his j (List.mem_cons_of_mem _ hj)) (fun C hC ↦ ?_) ?_
          · exact (Denotes.call_iff_of_declared hf' hsome hnone).mp
              (hden C (.declared hf' hsome hnone hC))
          · refine (List.mem_cons.mp hmem).resolve_left fun heq ↦ ?_
            have hs : stacked k f = stacked 0 f' := (Instr.call.inj heq).1
            obtain ⟨rfl, -⟩ := stacked_injective hf hf' hs
            exact Nat.not_odd_zero ho
        · refine ih (fun j hj ↦ his j (List.mem_cons_of_mem _ hj)) (fun C hC ↦ ?_) ?_
          · obtain ⟨C₂, hC₂, heq⟩ := (Denotes.call_iff_of_intrinsic hf' hk hnone hg).mp
              (hden _ (.intrinsic hf' hk hnone hg hC))
            rw [turned_intrinsic hg, List.append_cancel_left_eq] at heq
            exact heq ▸ hC₂
          · refine (List.mem_cons.mp hmem).resolve_left fun heq ↦ ?_
            obtain ⟨-, rfl⟩ := stacked_injective hf hf' (Instr.call.inj heq).1
            rw [Module.bodyOf, hnone] at hbf
            contradiction
  exact hsub b (fun _ hi ↦ hi) (hsame n b hb ρ) hc

/-! ## What the pass is meant to do -/

/-- A call with prefixes becomes a call of a function with a body, or a gate. -/
inductive ResolvedCall (R : Module) : Instr → Instr → Prop
  | same {i : Instr} : (∀ c args, i = .call c args → ¬ reversePrefix <+: c) → ResolvedCall R i i
  | function {c r : Ident} {args : List Arg} : reversePrefix <+: c → (R.bodyOf r).isSome →
      ResolvedCall R (.call c args) (.call r args)
  | intrinsic {c : Ident} {args : List Arg} {g : GateCall Operand} : reversePrefix <+: c →
      ResolvedCall R (.call c args) (.gate g)

/-- The pass on `N`, the functions of `M` in some order: it ends, every prefixed call is resolved,
and every body performs what it denotes in `M`. -/
def Resolves (ι : Type*) (M N : Module) : Prop :=
  ∃ R, (∀ᶠ fuel in atTop, runOnModule fuel N = some R) ∧ ∀ n b, M.bodyOf n = some b →
    ∃ b', R.bodyOf n = some b' ∧ List.Forall₂ (ResolvedCall R) b b' ∧
      ∀ (ρ : Env ι) C, Expands R ρ b' C ↔ Denotes dagger M ρ b C

/-- **The pass on one order.** It does what it is meant to do exactly when the functions are ordered
and no rotation by another angle than zero is reversed. -/
theorem resolves_self_iff (hM : WellFormed M) (hN : NamesFree M) :
    Resolves ι M M ↔ Ordered M ∧ TurnFree ι M := by
  constructor
  · rintro ⟨R, hrun, hmeant⟩
    obtain ⟨fuel, hfuel⟩ := hrun.exists
    obtain ⟨hst, ho⟩ := runOnModule_sound hM hN hfuel
    refine ⟨ho, turnFree_of_denotes hM fun n b hb ρ C hC ↦ ?_⟩
    obtain ⟨b₁, hb₁, -, hmade⟩ := expands_iff_denotes (ι := ι) hM hN hst hb
    obtain ⟨b₂, hb₂, -, hmean⟩ := hmeant n b hb
    obtain rfl := Option.some_injective _ (hb₁.symm.trans hb₂)
    exact (hmean ρ C).mp ((hmade ρ C).mpr hC)
  · rintro ⟨ho, hT⟩
    obtain ⟨R, hrun⟩ := runOnModule_complete hM hN ho
    obtain ⟨fuel, hfuel⟩ := hrun.exists
    obtain ⟨hst, -⟩ := runOnModule_sound hM hN hfuel
    refine ⟨R, hrun, fun n b hb ↦ ?_⟩
    obtain ⟨b', hb', hres, hmade⟩ := expands_iff_denotes (ι := ι) hM hN hst hb
    refine ⟨b', hb', hres.imp fun i j hij ↦ ?_,
      fun ρ C ↦ (hmade ρ C).trans (denotes_iff_of_turnFree hM hT hb ρ C)⟩
    cases hij with
    | same hp => exact .same hp
    | @function k f args hf hk hbf hr =>
      refine .function ((prefix_stacked hf).mpr hk) ?_
      obtain ⟨bf, hbf⟩ := Option.isSome_iff_exists.mp hbf
      by_cases hodd : Odd k
      · obtain ⟨b₀, -, hb₀, -⟩ := hst.settled f trivial List.not_mem_nil (hr hodd)
        rw [if_pos hodd, hb₀]
        rfl
      · obtain ⟨bf', hbf', -⟩ := expands_iff_denotes (ι := ι) hM hN hst hbf
        rw [if_neg hodd, hbf']
        rfl
    | @intrinsic k f args g hf hk hnone hg => exact .intrinsic ((prefix_stacked hf).mpr hk)

/-! ## All orders -/

/-- Below an odd call there is no prefixed call, and everything there has a body. -/
def NoNested (M : Module) : Prop :=
  ∀ n f, OddCall M n f → ∀ g, ReflTransGen (Forward M) f g →
    g = storeCbit ∨ ((M.bodyOf g).isSome ∧ ¬ HasReverse M g)

section Perm

variable {N : Module}

theorem getFunction_perm (hM : WellFormed M) (h : N.Perm M) : N.getFunction = M.getFunction := by
  funext n
  have hnodup : (N.map Function.name).Nodup := (h.map Function.name).nodup_iff.mpr hM.nodup
  cases hf : M.getFunction n with
  | none =>
    rw [← Option.not_isSome_iff_eq_none, mem_names_iff] at hf ⊢
    rwa [(h.map Function.name).mem_iff]
  | some f =>
    have hfN : (N.getFunction n).isSome := by
      rw [mem_names_iff, (h.map Function.name).mem_iff, ← mem_names_iff, hf]
      rfl
    obtain ⟨g, hg⟩ := Option.isSome_iff_exists.mp hfN
    rw [hg, Option.some.injEq]
    refine List.inj_on_of_nodup_map hM.nodup (h.mem_iff.mp (Module.mem_of_getFunction hg))
      (Module.mem_of_getFunction hf) ?_
    rw [Module.name_of_getFunction hg, Module.name_of_getFunction hf]

theorem bodyOf_eq_of_getFunction (h : N.getFunction = M.getFunction) : N.bodyOf = M.bodyOf := by
  funext n
  rw [Module.bodyOf, Module.bodyOf, h]

variable (hf : N.getFunction = M.getFunction)
include hf

theorem NamesFree.of_getFunction (hN : NamesFree M) : NamesFree N := by
  have hb := bodyOf_eq_of_getFunction hf
  exact ⟨fun n ↦ by rw [hf, hN.inverse], fun n hn ↦ by rw [hb, hN.reverse n hn],
    by rw [hf, hN.toffoli], by rw [hf, hN.toffoliImpl], by rw [hb, hN.store]⟩

theorem WellFormed.of_getFunction (hM : WellFormed M) (hnodup : (N.map Function.name).Nodup) :
    WellFormed N := by
  have hb := bodyOf_eq_of_getFunction hf
  refine ⟨hnodup, ?_, ?_, ?_⟩
  · simpa only [hb, hf] using hM.declared
  · simpa only [hb, hf] using hM.reversed
  · simpa only [hb] using hM.acyclic

theorem forward_of_getFunction : Forward N = Forward M := by
  funext f g
  simp only [Forward, hf, bodyOf_eq_of_getFunction hf]

theorem oddCall_of_getFunction : OddCall N = OddCall M := by
  funext n f
  simp only [OddCall, hf, bodyOf_eq_of_getFunction hf]

theorem hasReverse_of_getFunction : HasReverse N = HasReverse M := by
  funext n
  simp only [HasReverse, bodyOf_eq_of_getFunction hf]

theorem Denotes.of_getFunction {inv : GateCall ι → GateCall ι} {ρ : Env ι} {is : List Instr}
    {C : List (GateCall ι)} (h : Denotes inv M ρ is C) : Denotes inv N ρ is C := by
  have hb := bodyOf_eq_of_getFunction hf
  induction h with
  | nil ρ => exact .nil ρ
  | alloca ty size _ ih => exact .alloca ty size ih
  | gate g _ ih => exact .gate g ih
  | call hp hbf _ _ ih₁ ih₂ => exact .call hp (by rw [hb, hbf]) ih₁ ih₂
  | intrinsic hp hk hn hg _ ih => exact .intrinsic hp hk (by rw [hf, hn]) hg ih
  | declared hp hn hbf _ ih => exact .declared hp (by rwa [hf]) (by rw [hb, hbf]) ih

end Perm

/-- Some order puts a given function first, so every order is good only without nesting. -/
theorem forall_ordered_iff (hM : WellFormed M) :
    (∀ N : Module, N.Perm M → Ordered N) ↔ NoNested M := by
  constructor
  · intro h n f hf g hg
    obtain ⟨b, k, args, hb, -⟩ := id hf
    obtain ⟨F, hF, -⟩ := Module.bodyOf_eq_some.mp hb
    have hmem := Module.mem_of_getFunction hF
    have hperm := (List.perm_cons_erase hmem).symm
    have hget := getFunction_perm hM hperm
    have hready := h _ hperm [] F (M.erase F) rfl
    rw [Module.name_of_getFunction hF] at hready
    refine (hready f (oddCall_of_getFunction hget ▸ hf) g
      (forward_of_getFunction hget ▸ hg)).imp_right ?_
    rw [bodyOf_eq_of_getFunction hget, hasReverse_of_getFunction hget]
    exact fun hc ↦ ⟨hc.1, fun hr ↦ absurd (hc.2 hr) List.not_mem_nil⟩
  · intro h N hperm A F B _ f hf g hg
    have hget := getFunction_perm hM hperm
    rw [oddCall_of_getFunction hget] at hf
    rw [forward_of_getFunction hget] at hg
    refine (h F.name f hf g hg).imp_right fun hc ↦ ?_
    rw [bodyOf_eq_of_getFunction hget, hasReverse_of_getFunction hget]
    exact ⟨hc.1, fun hr ↦ absurd hr hc.2⟩

theorem resolves_iff_of_perm (hM : WellFormed M) (hN : NamesFree M) {N : Module} (h : N.Perm M) :
    Resolves ι M N ↔ Ordered N ∧ TurnFree ι M := by
  have hget := getFunction_perm hM h
  have hget' := hget.symm
  have hb := bodyOf_eq_of_getFunction hget
  have hden : ∀ (ρ : Env ι) is C, Denotes dagger N ρ is C ↔ Denotes dagger M ρ is C := fun ρ is C ↦
    ⟨Denotes.of_getFunction hget', Denotes.of_getFunction hget⟩
  have hiff := resolves_self_iff (ι := ι)
    (hM.of_getFunction hget ((h.map Function.name).nodup_iff.mpr hM.nodup)) (hN.of_getFunction hget)
  simpa only [Resolves, TurnFree, hb, hden, oddCall_of_getFunction hget] using hiff

/-- **The pass and the order of the functions.** In a given order the pass does what it is meant to
do exactly when every function that an odd call is made from, and that holds a prefixed call, stands
before the caller, and no rotation by another angle than zero is reversed. It does so in every order
exactly when no function an odd call is made from holds a prefixed call. -/
theorem resolves_iff_ordered (hM : WellFormed M) (hN : NamesFree M) :
    (∀ N : Module, N.Perm M → (Resolves ι M N ↔ Ordered N ∧ TurnFree ι M)) ∧
      ((∀ N : Module, N.Perm M → Resolves ι M N) ↔ NoNested M ∧ TurnFree ι M) := by
  refine ⟨fun N h ↦ resolves_iff_of_perm hM hN h, ?_⟩
  rw [← forall_ordered_iff hM]
  constructor
  · intro h
    exact ⟨fun N hp ↦ ((resolves_iff_of_perm hM hN hp).mp (h N hp)).1,
      ((resolves_iff_of_perm hM hN (.refl M)).mp (h M (.refl M))).2⟩
  · rintro ⟨ho, hT⟩ N hp
    exact (resolves_iff_of_perm hM hN hp).mpr ⟨ho N hp, hT⟩

/-! ## A reversed call below a reversed call -/

/-- `main` reverses `f` and `f` reverses `g`, in this order. -/
def nested : Module :=
  [⟨"main".toList, some [.call (stacked 1 "f".toList) []]⟩,
    ⟨"f".toList, some [.call (stacked 1 "g".toList) []]⟩,
    ⟨"g".toList, some [.alloca .qbit 1, .gate (gate1 .T ⟨.qbit, .alloca 0, 0⟩)]⟩,
    ⟨stacked 1 "f".toList, none⟩, ⟨stacked 1 "g".toList, none⟩]

private theorem mem_of_bodyOf {b : List Instr} (h : M.bodyOf n = some b) : ⟨n, some b⟩ ∈ M := by
  obtain ⟨F, hF, hb⟩ := Module.bodyOf_eq_some.mp h
  rw [← hb, ← Module.name_of_getFunction hF]
  exact Module.mem_of_getFunction hF

private theorem nested_call {b : List Instr} (hb : nested.bodyOf n = some b) {c : Ident}
    {args : List Arg} (hc : Instr.call c args ∈ b) :
    n = "main".toList ∧ c = stacked 1 "f".toList ∨ n = "f".toList ∧ c = stacked 1 "g".toList := by
  have hmem := mem_of_bodyOf hb
  simp only [nested, List.mem_cons, Function.mk.injEq, reduceCtorEq, and_false, or_false,
    List.not_mem_nil] at hmem
  rcases hmem with ⟨rfl, h⟩ | ⟨rfl, h⟩ | ⟨rfl, h⟩
  · rw [Option.some_injective _ h, List.mem_singleton] at hc
    exact .inl ⟨rfl, (Instr.call.inj hc).1⟩
  · rw [Option.some_injective _ h, List.mem_singleton] at hc
    exact .inr ⟨rfl, (Instr.call.inj hc).1⟩
  · rw [Option.some_injective _ h] at hc
    simp at hc

theorem wellFormed_nested : WellFormed nested := by
  refine ⟨by decide, fun n b hb c args hc ↦ ?_, fun n b hb k f args hk hf hc ↦ ?_,
    fun n ↦ if n = "main".toList then 2 else if n = "f".toList then 1 else 0,
    fun n b hb k f args hf hc ↦ ?_⟩
  · rcases nested_call hb hc with ⟨-, rfl⟩ | ⟨-, rfl⟩ <;> decide
  · rcases nested_call hb hc with ⟨-, h⟩ | ⟨-, h⟩ <;>
      obtain ⟨-, rfl⟩ := stacked_injective hf (by decide) h <;> exact .inl (by decide)
  · rcases nested_call hb hc with ⟨rfl, h⟩ | ⟨rfl, h⟩ <;>
      obtain ⟨-, rfl⟩ := stacked_injective hf (by decide) h <;> decide

theorem namesFree_nested : NamesFree nested := by
  refine ⟨fun n ↦ ?_, fun n hn ↦ ?_, by decide, by decide, by decide⟩
  · have hlast : ∀ F ∈ nested, F.name.getLast? ≠ some 'e' := by decide
    by_contra hne
    obtain ⟨F, hF⟩ := Option.ne_none_iff_exists'.mp hne
    refine hlast F (Module.mem_of_getFunction hF) ?_
    rw [Module.name_of_getFunction hF, reverseFuncName, List.getLast?_append,
      show "_Reverse".toList.getLast? = some 'e' by decide, Option.some_or]
  · have hfree : ∀ F ∈ nested, F.body ≠ none → ¬ "_reverse".toList <+: F.name := by decide
    by_contra hne
    obtain ⟨b, hb⟩ := Option.ne_none_iff_exists'.mp hne
    exact hfree _ (mem_of_bodyOf hb) (Option.some_ne_none b) hn

/-- **The order matters.** The inverse of `f` is asked for while `f` still holds a prefixed call,
and the pass fails. -/
theorem not_resolves_nested :
    WellFormed nested ∧ NamesFree nested ∧ ¬ Resolves ℕ nested nested := by
  refine ⟨wellFormed_nested, namesFree_nested, fun h ↦ ?_⟩
  have ho := ((resolves_self_iff wellFormed_nested namesFree_nested).mp h).1
  have hf : OddCall nested "main".toList "f".toList :=
    ⟨_, 1, [], rfl, odd_one, by decide, by decide, List.mem_singleton.mpr rfl⟩
  have hrev : HasReverse nested "f".toList :=
    ⟨_, rfl, fun hno ↦ hno _ [] (List.mem_singleton.mpr rfl) (by decide)⟩
  rcases ho [] _ _ rfl _ hf _ .refl with hs | ⟨-, hV⟩
  · exact absurd hs (by decide)
  · exact List.not_mem_nil (hV hrev)

theorem resolves_iff_ordered_nested :
    (∀ N : Module, N.Perm nested → (Resolves ℕ nested N ↔ Ordered N ∧ TurnFree ℕ nested)) ∧
      ((∀ N : Module, N.Perm nested → Resolves ℕ nested N) ↔
        NoNested nested ∧ TurnFree ℕ nested) :=
  resolves_iff_ordered wellFormed_nested namesFree_nested

end ScaffCC.FunctionReverse
