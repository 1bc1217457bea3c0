import ScaffCC.Flatten.Inline
import ScaffCC.Toffoli.Lowered

/-!
# What the replacement keeps of a module

The functions of the module are those it had, then the implementations. A module that the pass on
reversed calls is made for is one afterwards, with the functions in an order that suits it if they
were, and every function stands for the circuits it stood for, lowered.
-/

namespace ScaffCC.ToffoliReplace

open Relation GateCall FunctionReverse

/-! ## The names of the implementations -/

theorem not_reversePrefix_implName (a b c : QTy) : ¬ reversePrefix <+: implName a b c := by
  cases a <;> cases b <;> cases c <;> decide

theorem implName_ne_reverseFuncName (a b c : QTy) (n : Ident) :
    implName a b c ≠ reverseFuncName n := by
  intro h
  have hsuffix : "_Reverse".toList <:+ implName a b c := ⟨n, h.symm⟩
  revert hsuffix
  cases a <;> cases b <;> cases c <;> decide

theorem eq_zero_of_stacked_eq_implName {k : ℕ} {f : Ident} {a b c : QTy}
    (h : stacked k f = implName a b c) : k = 0 ∧ f = implName a b c := by
  cases k with
  | zero => exact ⟨rfl, h⟩
  | succ k => exact absurd ⟨_, h⟩ (not_reversePrefix_implName a b c)

theorem ne_implName_of_intrinsic {f : Ident} {args : List Arg} {g : GateCall Operand}
    (h : intrinsic f args = some g) (a b c : QTy) : f ≠ implName a b c := by
  rintro rfl
  rw [intrinsic] at h
  have hfound := List.find?_some h
  have hname := decide_eq_true_iff.mp hfound
  have hmem : '_' ∈ implSuffix c := by cases c <;> decide
  have hnot := underscore_notMem_name Operand.ty g
  rw [hname, List.mem_append, List.mem_append, not_or, not_or] at hnot
  exact hnot.1.2 (List.mem_append_right _ hmem)

/-! ## The functions -/

/-- The functions of the second module are those of the first, then implementations. -/
structure Grown (M M' : Module) : Prop where
  names : ∃ L, M'.map Function.name = M.map Function.name ++ L ∧
    ∀ n ∈ L, ∃ a b c, n = implName a b c
  nodup : (M.map Function.name).Nodup → (M'.map Function.name).Nodup

theorem Grown.refl (M : Module) : Grown M M :=
  ⟨⟨[], (List.append_nil _).symm, fun _ h ↦ absurd h List.not_mem_nil⟩, id⟩

theorem Grown.trans {M M' M'' : Module} (h : Grown M M') (h' : Grown M' M'') : Grown M M'' := by
  obtain ⟨L, hL, himpl⟩ := h.names
  obtain ⟨L', hL', himpl'⟩ := h'.names
  refine ⟨⟨L ++ L', by rw [hL', hL, List.append_assoc], fun n hn ↦ ?_⟩, h'.nodup ∘ h.nodup⟩
  exact (List.mem_append.mp hn).elim (himpl n) (himpl' n)

theorem grown_setBody (M : Module) (n : Ident) (b : List Instr) : Grown M (M.setBody n b) := by
  have hnames := Module.map_name_setBody M n b
  exact ⟨⟨[], by rw [hnames, List.append_nil], fun _ h ↦ absurd h List.not_mem_nil⟩,
    fun h ↦ hnames ▸ h⟩

theorem grown_visitCallInst (M : Module) (i : Instr) : Grown M (visitCallInst M i).1 := by
  rcases i with _ | g | _
  · exact .refl M
  · cases g with
    | Toffoli c₁ c₂ t =>
      rw [visitCallInst]
      split_ifs with hsome
      · exact .refl M
      · refine ⟨⟨[implName c₁.ty c₂.ty t.ty], List.map_append, fun n hn ↦ ?_⟩, fun h ↦ ?_⟩
        · exact ⟨_, _, _, List.mem_singleton.mp hn⟩
        · rw [List.map_append, List.map_singleton, List.nodup_append]
          refine ⟨h, List.nodup_singleton _, fun x hx y hy hxy ↦ hsome ?_⟩
          have hname : y = implName c₁.ty c₂.ty t.ty := List.mem_singleton.mp hy
          exact mem_names_iff.mpr (hname ▸ hxy ▸ hx)
    | _ => exact .refl M
  · exact .refl M

theorem grown_visitBody (M : Module) (b : List Instr) : Grown M (visitBody M b).1 := by
  induction b generalizing M with
  | nil => exact .refl M
  | cons i is ih => exact (grown_visitCallInst M i).trans (ih _)

theorem grown_visitFunction (M : Module) (n : Ident) : Grown M (visitFunction M n) := by
  rw [visitFunction]
  cases (M.getFunction n).bind Function.body with
  | none => exact .refl M
  | some b => exact (grown_visitBody M b).trans (grown_setBody _ n _)

theorem grown_foldl (names : List Ident) (M : Module) : Grown M (names.foldl visitFunction M) := by
  induction names generalizing M with
  | nil => exact .refl M
  | cons n names ih => exact (grown_visitFunction M n).trans (ih _)

theorem grown_runOnModule (M : Module) : Grown M (runOnModule M) :=
  (grown_foldl _ M).trans (grown_foldl _ _)

section Kept

variable {M : Module} (hfresh : ∀ a b c, M.getFunction (implName a b c) = none)

include hfresh

theorem implsOnly_of_fresh : ImplsOnly M := by
  intro a b c f hf
  rw [hfresh] at hf
  contradiction

theorem implsOnly_runOnModule : ImplsOnly (runOnModule M) :=
  (foldl_visitFunction_spec _ (foldl_visitFunction_spec _ (implsOnly_of_fresh hfresh)).2.1).2.1

/-- **A function of the new module** is one of the old module, visited, or an implementation. -/
theorem function_cases {n : Ident} {f' : Function}
    (hf' : (runOnModule M).getFunction n = some f') :
    (∃ f, M.getFunction n = some f ∧ Option.Rel (Replaced (runOnModule M)) f.body f'.body) ∨
      ∃ a b c, n = implName a b c ∧ f' = toffoliImpl a b c := by
  obtain ⟨L, hL, himpl⟩ := (grown_runOnModule M).names
  have hmem : n ∈ (runOnModule M).map Function.name := mem_names_iff.mp (by rw [hf']; rfl)
  rw [hL, List.mem_append] at hmem
  rcases hmem with hmem | hmem
  · obtain ⟨f, hf⟩ := Option.isSome_iff_exists.mp (mem_names_iff.mpr hmem)
    obtain ⟨f'', hf'', hbody⟩ := visited_runOnModule (implsOnly_of_fresh hfresh) hf
    obtain rfl := Option.some_injective _ (hf'.symm.trans hf'')
    exact .inl ⟨f, hf, hbody⟩
  · obtain ⟨a, b, c, rfl⟩ := himpl n hmem
    exact .inr ⟨a, b, c, rfl, implsOnly_runOnModule hfresh hf'⟩

theorem body_cases {n : Ident} {b' : List Instr} (hb' : (runOnModule M).bodyOf n = some b') :
    (∃ b, M.bodyOf n = some b ∧ Replaced (runOnModule M) b b') ∨
      ∃ a b c, n = implName a b c ∧ (toffoliImpl a b c).body = some b' := by
  obtain ⟨f', hf', hfb'⟩ := Module.bodyOf_eq_some.mp hb'
  rcases function_cases hfresh hf' with ⟨f, hf, hbody⟩ | ⟨a, b, c, hn, rfl⟩
  · rw [hfb'] at hbody
    generalize hfb : f.body = fb at hbody
    cases hbody with
    | @some b _ hrep => exact .inl ⟨b, Module.bodyOf_eq_some.mpr ⟨f, hf, hfb⟩, hrep⟩
  · exact .inr ⟨a, b, c, hn, hfb'⟩

theorem exists_body {n : Ident} {b : List Instr} (hb : M.bodyOf n = some b) :
    ∃ b', (runOnModule M).bodyOf n = some b' ∧ Replaced (runOnModule M) b b' := by
  obtain ⟨f, hf, hfb⟩ := Module.bodyOf_eq_some.mp hb
  obtain ⟨f', hf', hbody⟩ := visited_runOnModule (implsOnly_of_fresh hfresh) hf
  rw [hfb] at hbody
  generalize hfb' : f'.body = fb at hbody
  cases hbody with
  | @some _ b' hrep => exact ⟨b', Module.bodyOf_eq_some.mpr ⟨f', hf', hfb'⟩, hrep⟩

omit hfresh in
theorem call_cases {N : Module} {b b' : List Instr} (h : Replaced N b b') {n : Ident}
    {args : List Arg} (hc : Instr.call n args ∈ b') : Instr.call n args ∈ b ∨
      ∃ a b c, n = implName a b c ∧ N.getFunction n = some (toffoliImpl a b c) := by
  obtain ⟨i, hi, hic⟩ := exists_of_mem_right h hc
  cases hic with
  | same => exact .inl hi
  | toffoli himpl => exact .inr ⟨_, _, _, rfl, himpl⟩

theorem isSome_getFunction_runOnModule {n : Ident} (h : (M.getFunction n).isSome) :
    ((runOnModule M).getFunction n).isSome := by
  obtain ⟨f, hf⟩ := Option.isSome_iff_exists.mp h
  obtain ⟨f', hf', -⟩ := visited_runOnModule (implsOnly_of_fresh hfresh) hf
  rw [hf', Option.isSome_some]

theorem getFunction_runOnModule_eq_none {n : Ident} (h : M.getFunction n = none)
    (hn : ∀ a b c, n ≠ implName a b c) : (runOnModule M).getFunction n = none := by
  cases hf' : (runOnModule M).getFunction n with
  | none => rfl
  | some f' =>
    rcases function_cases hfresh hf' with ⟨f, hf, -⟩ | ⟨a, b, c, hname, -⟩
    · rw [h] at hf
      contradiction
    · exact absurd hname (hn a b c)

theorem bodyOf_runOnModule_eq_none {n : Ident} (h : M.bodyOf n = none)
    (hn : ∀ a b c, n ≠ implName a b c) : (runOnModule M).bodyOf n = none := by
  cases hb' : (runOnModule M).bodyOf n with
  | none => rfl
  | some b' =>
    rcases body_cases hfresh hb' with ⟨b, hb, -⟩ | ⟨a, b, c, hname, -⟩
    · rw [h] at hb
      contradiction
    · exact absurd hname (hn a b c)

omit hfresh in
theorem call_notMem_toffoliImpl {a b c : QTy} {is : List Instr}
    (h : (toffoliImpl a b c).body = some is) (n : Ident) (args : List Arg) :
    Instr.call n args ∉ is := by
  intro hmem
  obtain rfl := Option.some_injective _ h
  obtain ⟨g, -, hg⟩ := List.mem_map.mp hmem
  exact Instr.noConfusion hg

/-- **A call of the new module** is one of the old module, or of an implementation. -/
theorem call_cases_runOnModule {n : Ident} {b' : List Instr}
    (hb' : (runOnModule M).bodyOf n = some b') {c : Ident} {args : List Arg}
    (hc : Instr.call c args ∈ b') : ∃ b, M.bodyOf n = some b ∧ (Instr.call c args ∈ b ∨
      ∃ a₁ a₂ a₃, c = implName a₁ a₂ a₃ ∧
        (runOnModule M).getFunction c = some (toffoliImpl a₁ a₂ a₃)) := by
  rcases body_cases hfresh hb' with ⟨b, hb, hrep⟩ | ⟨a₁, a₂, a₃, -, himpl⟩
  · exact ⟨b, hb, call_cases hrep hc⟩
  · exact absurd hc (call_notMem_toffoliImpl himpl c args)

/-! ## Well-formed modules -/

section WellFormed

variable (hM : WellFormed M)

include hM

theorem ne_implName_of_call {n : Ident} {b : List Instr} (hb : M.bodyOf n = some b) {k : ℕ}
    {f : Ident} {args : List Arg} (hf : ¬ reversePrefix <+: f)
    (hc : Instr.call (stacked k f) args ∈ b) (a₁ a₂ a₃ : QTy) : f ≠ implName a₁ a₂ a₃ := by
  rintro rfl
  by_cases hk : k = 0
  · subst hk
    have hsome := hM.declared n b hb _ args hc
    rw [stacked, hfresh] at hsome
    contradiction
  · rcases hM.reversed n b hb k _ args hk hf hc with hsome | ⟨-, hsome⟩
    · rw [Module.bodyOf, hfresh] at hsome
      contradiction
    · obtain ⟨g, hg⟩ := Option.isSome_iff_exists.mp hsome
      exact ne_implName_of_intrinsic hg a₁ a₂ a₃ rfl

/-- **The module is well formed afterwards.** -/
theorem wellFormed_runOnModule : WellFormed (runOnModule M) where
  nodup := (grown_runOnModule M).nodup hM.nodup
  declared n b' hb' c args hc := by
    obtain ⟨b, hb, hc | ⟨a₁, a₂, a₃, -, himpl⟩⟩ := call_cases_runOnModule hfresh hb' hc
    · exact isSome_getFunction_runOnModule hfresh (hM.declared n b hb c args hc)
    · rw [himpl, Option.isSome_some]
  reversed n b' hb' k f args hk hf hc := by
    obtain ⟨b, hb, hc | ⟨a₁, a₂, a₃, hname, -⟩⟩ := call_cases_runOnModule hfresh hb' hc
    · rcases hM.reversed n b hb k f args hk hf hc with hsome | ⟨hnone, hsome⟩
      · obtain ⟨bf, hbf⟩ := Option.isSome_iff_exists.mp hsome
        obtain ⟨bf', hbf', -⟩ := exists_body hfresh hbf
        exact .inl (by rw [hbf', Option.isSome_some])
      · exact .inr ⟨getFunction_runOnModule_eq_none hfresh hnone
          (ne_implName_of_call hfresh hM hb hf hc), hsome⟩
    · exact absurd (eq_zero_of_stacked_eq_implName hname).1 hk
  acyclic := by
    obtain ⟨rank, hrank⟩ := hM.acyclic
    -- the implementations are below all functions
    refine ⟨fun n ↦ if (M.getFunction n).isSome then rank n + 1 else 0,
      fun n b' hb' k f args hf hc ↦ ?_⟩
    dsimp only
    obtain ⟨b, hb, hc | ⟨a₁, a₂, a₃, hname, -⟩⟩ := call_cases_runOnModule hfresh hb' hc
    · have hlt := hrank n b hb k f args hf hc
      rw [if_pos (Module.isSome_of_bodyOf hb)]
      split_ifs <;> omega
    · obtain ⟨rfl, rfl⟩ := eq_zero_of_stacked_eq_implName hname
      rw [if_pos (Module.isSome_of_bodyOf hb), hfresh, if_neg (by simp)]
      exact Nat.succ_pos _

end WellFormed

/-- **The names the pass reserves are free afterwards.** -/
theorem namesFree_runOnModule (hN : NamesFree M) : NamesFree (runOnModule M) where
  inverse n := getFunction_runOnModule_eq_none hfresh (hN.inverse n)
    fun a b c h ↦ implName_ne_reverseFuncName a b c n h.symm
  reverse n hn := bodyOf_runOnModule_eq_none hfresh (hN.reverse n hn) fun a b c h ↦ by
    subst h
    revert hn
    cases a <;> cases b <;> cases c <;> decide
  toffoli := getFunction_runOnModule_eq_none hfresh hN.toffoli fun a b c ↦ by
    cases a <;> cases b <;> cases c <;> decide
  toffoliImpl := getFunction_runOnModule_eq_none hfresh hN.toffoliImpl fun a b c ↦ by
    cases a <;> cases b <;> cases c <;> decide
  store := bodyOf_runOnModule_eq_none hfresh hN.store fun a b c ↦ by
    cases a <;> cases b <;> cases c <;> decide

/-! ## The order of the functions -/

omit hfresh in
/-- The place of a name among names to which others are added. -/
theorem exists_split {L A B : List Ident} {n : Ident}
    (h : A ++ n :: B = M.map Function.name ++ L) (hnodup : (A ++ n :: B).Nodup)
    (hn : n ∈ M.map Function.name) :
    ∃ A' F' B', M = A' ++ F' :: B' ∧ A'.map Function.name = A ∧ F'.name = n := by
  obtain ⟨l₁, l₂, hl⟩ := List.append_of_mem hn
  rw [hl, List.append_assoc, List.cons_append] at h
  have hnot := (List.nodup_cons.mp (List.nodup_middle.mp hnodup)).1
  rw [List.mem_append, not_or] at hnot
  obtain ⟨rfl, -, -⟩ := (List.append_cons_inj_of_notMem hnot.1 hnot.2).mp h
  obtain ⟨A', R, rfl, hA', hR⟩ := List.map_eq_append_iff.mp hl
  obtain ⟨F', B', rfl, hF', -⟩ := List.map_eq_cons_iff.mp hR
  exact ⟨A', F', B', rfl, hA', hF'⟩

section Order

variable (hM : WellFormed M)

include hM

theorem oddCall_of_runOnModule {n f : Ident} (h : OddCall (runOnModule M) n f) : OddCall M n f := by
  obtain ⟨b', k, args, hb', hk, hf, hsome, hc⟩ := h
  obtain ⟨b, hb, hc | ⟨a₁, a₂, a₃, hname, -⟩⟩ := call_cases_runOnModule hfresh hb' hc
  · refine ⟨b, k, args, hb, hk, hf, ?_, hc⟩
    rcases hM.reversed n b hb k f args hk.pos.ne' hf hc with hsome' | ⟨hnone, -⟩
    · obtain ⟨bf, hbf⟩ := Option.isSome_iff_exists.mp hsome'
      exact Module.isSome_of_bodyOf hbf
    · rw [getFunction_runOnModule_eq_none hfresh hnone
        (ne_implName_of_call hfresh hM hb hf hc)] at hsome
      contradiction
  · obtain ⟨rfl, -⟩ := eq_zero_of_stacked_eq_implName hname
    exact absurd hk.pos (Nat.lt_irrefl 0)

/-- A call behind an even number of prefixes was there before, or is of an implementation. -/
theorem forward_of_runOnModule {n f : Ident} (h : Forward (runOnModule M) n f) :
    Forward M n f ∨ ∃ a₁ a₂ a₃, f = implName a₁ a₂ a₃ ∧
      (runOnModule M).getFunction f = some (toffoliImpl a₁ a₂ a₃) := by
  obtain ⟨b', k, args, hb', hk, hf, hsome, hc⟩ := h
  obtain ⟨b, hb, hc | ⟨a₁, a₂, a₃, hname, himpl⟩⟩ := call_cases_runOnModule hfresh hb' hc
  · refine .inl ⟨b, k, args, hb, hk, hf, ?_, hc⟩
    cases hF : M.getFunction f with
    | some F => rfl
    | none =>
      rw [getFunction_runOnModule_eq_none hfresh hF
        (ne_implName_of_call hfresh hM hb hf hc)] at hsome
      contradiction
  · obtain ⟨rfl, rfl⟩ := eq_zero_of_stacked_eq_implName hname
    exact .inr ⟨a₁, a₂, a₃, rfl, himpl⟩

/-- What a function is made from was there before, or is an implementation. -/
theorem reaches_of_runOnModule {f g : Ident} (h : ReflTransGen (Forward (runOnModule M)) f g) :
    ReflTransGen (Forward M) f g ∨ ∃ a₁ a₂ a₃, g = implName a₁ a₂ a₃ ∧
      (runOnModule M).getFunction g = some (toffoliImpl a₁ a₂ a₃) := by
  induction h with
  | refl => exact .inl .refl
  | tail _ hstep ih =>
    rcases ih with hreach | ⟨a₁, a₂, a₃, rfl, himpl⟩
    · exact (forward_of_runOnModule hfresh hM hstep).imp_left hreach.tail
    · obtain ⟨b', k, args, hb', -, -, -, hc⟩ := hstep
      rw [Module.bodyOf, himpl, Option.bind_some] at hb'
      exact absurd hc (call_notMem_toffoliImpl hb' _ args)

omit hM in
theorem clonable_runOnModule {V : Set Ident} {g : Ident} (h : Clonable M V g) :
    Clonable (runOnModule M) V g := by
  refine h.imp_right fun ⟨hb, hV⟩ ↦ ?_
  obtain ⟨b, hb⟩ := Option.isSome_iff_exists.mp hb
  obtain ⟨b', hb', hrep⟩ := exists_body hfresh hb
  refine ⟨by rw [hb', Option.isSome_some], fun ⟨b'', hb'', hrev⟩ ↦ hV ⟨b, hb, fun hno ↦ hrev ?_⟩⟩
  obtain rfl := Option.some_injective _ (hb'.symm.trans hb'')
  intro c args hc
  rcases call_cases hrep hc with hc | ⟨a₁, a₂, a₃, rfl, -⟩
  · exact hno c args hc
  · exact not_reversePrefix_implName a₁ a₂ a₃

omit hfresh hM in
theorem clonable_toffoliImpl {V : Set Ident} {a b c : QTy}
    (h : (runOnModule M).getFunction (implName a b c) = some (toffoliImpl a b c)) :
    Clonable (runOnModule M) V (implName a b c) := by
  have hbody : (runOnModule M).bodyOf (implName a b c) = (toffoliImpl a b c).body := by
    rw [Module.bodyOf, h, Option.bind_some]
  refine .inr ⟨by rw [hbody]; rfl, ?_⟩
  rintro ⟨b', hb', hrev⟩
  exact absurd (fun n args hc ↦ absurd hc (call_notMem_toffoliImpl (hbody ▸ hb') n args)) hrev

/-- **The order of the functions suits the pass afterwards.** -/
theorem ordered_runOnModule (ho : Ordered M) : Ordered (runOnModule M) := by
  intro A F B hAB f hf g hg
  rcases reaches_of_runOnModule hfresh hM hg with hreach | ⟨a₁, a₂, a₃, rfl, himpl⟩
  · have hodd := oddCall_of_runOnModule hfresh hM hf
    obtain ⟨b, -, -, hb, -⟩ := id hodd
    have hnodup := (grown_runOnModule M).nodup hM.nodup
    obtain ⟨L, hL, -⟩ := (grown_runOnModule M).names
    rw [hAB, List.map_append, List.map_cons] at hL hnodup
    -- the function stands behind the functions it stood behind
    obtain ⟨A', F', B', hM', hA', hF'⟩ :=
      exists_split hL hnodup (mem_names_iff.mp (Module.isSome_of_bodyOf hb))
    have hclonable := ho A' F' B' hM' f (hF' ▸ hodd) g hreach
    rw [namesOf, hA', ← namesOf] at hclonable
    exact clonable_runOnModule hfresh hclonable
  · exact clonable_toffoliImpl himpl

end Order

end Kept

end ScaffCC.ToffoliReplace
