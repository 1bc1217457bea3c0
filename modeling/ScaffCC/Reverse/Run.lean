import ScaffCC.Reverse.Order

/-!
# Runs of the pass

One visit moves the stage on by one function. It ends exactly when the odd calls of the function can
be resolved, and so the pass ends exactly when the functions are ordered. The functions appended
meanwhile are visited without effect.
-/

namespace ScaffCC.FunctionReverse

open Filter GateCall Relation

variable {M N N' : Module} {V : Set Ident} {n : Ident} {b : List Instr}

/-! ## One call -/

theorem WellFormed.call_cases (hM : WellFormed M) (hb : M.bodyOf n = some b) {i : Instr}
    (hi : i ∈ b) :
    (∀ c args, i = .call c args → ¬ reversePrefix <+: c) ∨
    (∃ k f args, i = .call (stacked k f) args ∧ ¬ reversePrefix <+: f ∧ k ≠ 0 ∧
      (M.bodyOf f).isSome) ∨
    ∃ k f args g, i = .call (stacked k f) args ∧ ¬ reversePrefix <+: f ∧ k ≠ 0 ∧
      M.getFunction f = none ∧ intrinsic f args = some g := by
  cases i with
  | alloca ty size => exact .inl fun _ _ h ↦ nomatch h
  | gate g => exact .inl fun _ _ h ↦ nomatch h
  | call c args =>
    obtain ⟨k, f, hf, rfl⟩ := exists_stacked c
    by_cases hk : k = 0
    · subst hk
      refine .inl fun c args' h ↦ ?_
      rw [← (Instr.call.inj h).1]
      exact hf
    · rcases hM.reversed n b hb k f args hk hf hi with hbf | ⟨hnone, hsome⟩
      · exact .inr (.inl ⟨k, f, args, rfl, hf, hk, hbf⟩)
      · obtain ⟨g, hg⟩ := Option.isSome_iff_exists.mp hsome
        exact .inr (.inr ⟨k, f, args, g, rfl, hf, hk, hnone, hg⟩)

theorem isSome_of_isSome_bodyOf {f : Ident} (h : (M.bodyOf f).isSome) :
    (M.getFunction f).isSome := by
  obtain ⟨b, hb⟩ := Option.isSome_iff_exists.mp h
  exact Module.isSome_of_bodyOf hb

section Visit

variable (hM : WellFormed M) (hN : NamesFree M) (h : Stage M V N) (hb : M.bodyOf n = some b)
include hM hN h hb

theorem visitCallInst_sound {i j : Instr} (hi : i ∈ b) {fuel : ℕ}
    (hv : visitCallInst fuel N i = some (N', j)) :
    Stage M V N' ∧ N.Keeps N' ∧ ResolvedInstr M N' i j := by
  rcases hM.call_cases hb hi with hp | ⟨k, f, args, rfl, hf, hk, hbf⟩ |
    ⟨k, f, args, g, rfl, hf, hk, hnone, hg⟩
  · rw [visitCallInst_of_forward hp] at hv
    obtain ⟨rfl, rfl⟩ := Prod.mk.inj (Option.some.inj hv)
    exact ⟨h, .refl N, .same hp⟩
  · rw [visitCallInst_function hN h hf hk hbf] at hv
    split_ifs at hv with ho
    · obtain ⟨⟨N₁, r⟩, hr, hv⟩ := Option.map_eq_some_iff.mp hv
      obtain ⟨rfl, rfl⟩ := Prod.mk.inj hv
      have hfs : f ≠ storeCbit := by
        rintro rfl
        rw [hN.store] at hbf
        contradiction
      obtain ⟨rfl, hd, hsome⟩ := inverts_getOrCreateInverseFunction _ [] fuel (h.ready hM)
        (.inl (h.isSome (isSome_of_isSome_bodyOf hbf))) hr
      refine ⟨h.delivered hd, hd.keeps, ?_⟩
      have hres : ResolvedInstr M N₁ (.call (stacked k f) args) _ :=
        .function hf hk hbf fun _ ↦ hsome hfs
      rwa [if_pos ho, ← inverseName_of_ne hfs] at hres
    · obtain ⟨rfl, rfl⟩ := Prod.mk.inj (Option.some.inj hv)
      have hres : ResolvedInstr M N (.call (stacked k f) args) _ :=
        .function hf hk hbf fun ho' ↦ absurd ho' ho
      rw [if_neg ho] at hres
      exact ⟨h, .refl N, hres⟩
  · rw [visitCallInst_intrinsic hN h hf hk hnone hg] at hv
    obtain ⟨rfl, rfl⟩ := Prod.mk.inj (Option.some.inj hv)
    exact ⟨h, .refl N, .intrinsic hf hk hnone hg⟩

theorem visitCallInst_complete {i : Instr} (hi : i ∈ b) (hready : ReadyAt M V n) :
    ∃ N' j, ∀ᶠ fuel in atTop, visitCallInst fuel N i = some (N', j) := by
  rcases hM.call_cases hb hi with hp | ⟨k, f, args, rfl, hf, hk, hbf⟩ |
    ⟨k, f, args, g, rfl, hf, hk, hnone, hg⟩
  · exact ⟨N, i, .of_forall fun _ ↦ visitCallInst_of_forward hp⟩
  · simp only [visitCallInst_function hN h hf hk hbf]
    by_cases ho : Odd k
    · have hsome := isSome_of_isSome_bodyOf hbf
      have hinv := invertible_of_clonable hM hN h
        (hready f ⟨b, k, args, hb, ho, hf, hsome, hi⟩)
      obtain ⟨N', r, hr⟩ := exists_getOrCreateInverseFunction hinv (.inl (h.isSome hsome))
        (h.ready hM) (.refl N)
      refine ⟨N', .call r args, ?_⟩
      filter_upwards [hr] with fuel hfuel
      rw [if_pos ho, hfuel, Option.map_some]
    · exact ⟨N, .call f args, .of_forall fun _ ↦ if_neg ho⟩
  · exact ⟨N, _, .of_forall fun _ ↦ visitCallInst_intrinsic hN h hf hk hnone hg _⟩

/-! ## One body -/

theorem visitBody_sound {is js : List Instr} (his : ∀ i ∈ is, i ∈ b) {fuel : ℕ}
    (hv : visitBody fuel N is = some (N', js)) :
    Stage M V N' ∧ N.Keeps N' ∧ Resolved M N' is js := by
  induction is generalizing N js with
  | nil =>
    obtain ⟨rfl, rfl⟩ := Prod.mk.inj (Option.some.inj hv)
    exact ⟨h, .refl N, .nil⟩
  | cons i is ih =>
    obtain ⟨⟨N₁, j⟩, hi, hv⟩ := Option.bind_eq_some_iff.mp hv
    obtain ⟨⟨N₂, ks⟩, hks, hv⟩ := Option.map_eq_some_iff.mp hv
    obtain ⟨rfl, rfl⟩ := Prod.mk.inj hv
    obtain ⟨h₁, hk₁, hij⟩ := visitCallInst_sound hM hN h hb (his i List.mem_cons_self) hi
    obtain ⟨h₂, hk₂, hres⟩ := ih h₁ (fun i' hi' ↦ his i' (List.mem_cons_of_mem i hi')) hks
    exact ⟨h₂, hk₁.trans hk₂, .cons (hij.mono fun _ ↦ hk₂.isSome) hres⟩

theorem visitBody_complete {is : List Instr} (his : ∀ i ∈ is, i ∈ b) (hready : ReadyAt M V n) :
    ∃ N' js, ∀ᶠ fuel in atTop, visitBody fuel N is = some (N', js) := by
  induction is generalizing N with
  | nil => exact ⟨N, [], .of_forall fun _ ↦ rfl⟩
  | cons i is ih =>
    obtain ⟨N₁, j, hj⟩ := visitCallInst_complete hM hN h hb (his i List.mem_cons_self) hready
    obtain ⟨fuel, hfuel⟩ := hj.exists
    obtain ⟨h₁, -, -⟩ := visitCallInst_sound hM hN h hb (his i List.mem_cons_self) hfuel
    obtain ⟨N₂, js, hjs⟩ := ih h₁ fun i' hi' ↦ his i' (List.mem_cons_of_mem i hi')
    refine ⟨N₂, j :: js, ?_⟩
    filter_upwards [hj, hjs] with fuel hj hjs
    rw [visitBody, hj, Option.bind_some, hjs, Option.map_some]

omit hM hN h hb in
theorem visitBody_of_noReverse {is : List Instr} (his : NoReverse is) (fuel : ℕ) :
    visitBody fuel N is = some (N, is) := by
  induction is with
  | nil => rfl
  | cons i is ih =>
    rw [visitBody, visitCallInst_of_forward fun c args hi ↦ his c args (hi ▸ List.mem_cons_self),
      Option.bind_some, ih fun c args hc ↦ his c args (List.mem_cons_of_mem i hc), Option.map_some]

end Visit

/-! ## One function -/

/-- With the resolved body put in place, the function counts as visited. -/
theorem Stage.setBody (hN : NamesFree M) (h : Stage M V N) (hV : n ∉ V) (hb : M.bodyOf n = some b)
    {b' : List Instr} (hres : Resolved M N b b') (hsame : NoReverse b → b' = b) :
    Stage M (insert n V) (N.setBody n b') := by
  have hsome : (N.getFunction n).isSome := h.isSome (Module.isSome_of_bodyOf hb)
  have hne : ∀ k, n ≠ reverseFuncName k :=
    ne_reverseFuncName hN (Module.isSome_of_bodyOf hb)
  have hmono : ∀ m, (N.getFunction m).isSome → ((N.setBody n b').getFunction m).isSome :=
    fun m hm ↦ by rwa [Module.isSome_getFunction_setBody]
  refine ⟨fun m _ _ hm ↦ ?_, ?_, fun m hm hbm ↦ ?_, fun m hm bm hbm ↦ ?_, fun m hm bm hbm ↦ ?_⟩
  · rw [Module.isSome_getFunction_setBody] at hm
    have hinv := h.settled m trivial List.not_mem_nil hm
    obtain ⟨b₀, hb₀, hr, hcalls⟩ := id hinv
    refine ⟨b₀, ?_, ?_, fun c args hc hs ↦ hmono _ (hcalls c args hc hs)⟩
    · by_cases hmn : m = n
      · subst hmn
        -- a function with an inverse holds no prefixed call, so its visit changes nothing
        have hun := h.unvisited m hV b hb
        obtain rfl := Option.some_injective _ (hb₀.symm.trans hun)
        rw [Module.bodyOf_setBody_self hsome, hsame (h.noReverse_of_inverted hN hinv hun)]
      · rw [Module.bodyOf_setBody_of_ne hmn, hb₀]
    · rw [Module.bodyOf_setBody_of_ne (hne m).symm, hr]
  · rw [Module.map_name_setBody]
    exact h.names
  · rw [Module.getFunction_setBody_of_ne, h.others m hm hbm]
    rintro rfl
    rw [hb] at hbm
    contradiction
  · obtain ⟨hmn, hmV⟩ := not_or.mp (Set.mem_insert_iff.not.mp hm)
    rw [Module.bodyOf_setBody_of_ne hmn, h.unvisited m hmV bm hbm]
  · by_cases hmn : m = n
    · subst hmn
      obtain rfl := Option.some_injective _ (hb.symm.trans hbm)
      exact ⟨b', Module.bodyOf_setBody_self hsome _, hres.imp fun _ _ ↦ ResolvedInstr.mono hmono⟩
    · obtain ⟨bm', hbm', hres'⟩ := h.visited m (hm.resolve_left hmn) bm hbm
      exact ⟨bm', by rw [Module.bodyOf_setBody_of_ne hmn, hbm'],
        hres'.imp fun _ _ ↦ ResolvedInstr.mono hmono⟩

theorem Stage.insert_of_bodyOf (h : Stage M V N) (hb : M.bodyOf n = none) :
    Stage M (insert n V) N := by
  refine ⟨h.settled, h.names, h.others, fun m hm bm hbm ↦ ?_, fun m hm bm hbm ↦ ?_⟩
  · exact h.unvisited m (fun hV ↦ hm (Set.mem_insert_of_mem n hV)) bm hbm
  · refine h.visited m (hm.resolve_left ?_) bm hbm
    rintro rfl
    rw [hb] at hbm
    contradiction

section Function

variable (hM : WellFormed M) (hN : NamesFree M) (h : Stage M V N) (hn : (M.getFunction n).isSome)
  (hV : n ∉ V)
include hM hN h hn hV

theorem visitFunction_sound {fuel : ℕ} (hv : visitFunction fuel N n = some N') :
    Stage M (insert n V) N' ∧ ReadyAt M V n := by
  cases hb : M.bodyOf n with
  | none =>
    rw [visitFunction, h.bodyOf_eq_none (ne_reverseFuncName hN hn) hb] at hv
    obtain rfl := Option.some.inj hv
    refine ⟨h.insert_of_bodyOf hb, fun f hf ↦ ?_⟩
    obtain ⟨b, k, args, hb', -⟩ := hf
    rw [hb] at hb'
    contradiction
  | some b =>
    rw [visitFunction, h.unvisited n hV b hb] at hv
    obtain ⟨⟨N₁, b'⟩, hbody, rfl⟩ := Option.map_eq_some_iff.mp hv
    obtain ⟨h₁, -, hres⟩ := visitBody_sound hM hN h hb (fun _ hi ↦ hi) hbody
    refine ⟨h₁.setBody hN hV hb hres fun hno ↦ ?_, fun f hf g hfg ↦ ?_⟩
    · rw [visitBody_of_noReverse hno] at hbody
      exact (Prod.mk.inj (Option.some.inj hbody)).2.symm
    · obtain ⟨b₀, k, args, hb₀, ho, hp, hsome, hc⟩ := hf
      obtain rfl := Option.some_injective _ (hb.symm.trans hb₀)
      refine clonable_of_reaches hN h₁ hsome ?_ hfg
      -- the odd call was resolved, so the inverse exists
      obtain ⟨j, -, hij⟩ := exists_of_mem_left hres hc
      generalize hi : Instr.call (stacked k f) args = i at hij
      cases hij with
      | same hp' =>
        refine absurd ((prefix_stacked hp).mpr fun hk ↦ ?_) (hp' _ _ hi.symm)
        exact absurd (hk ▸ ho) Nat.not_odd_zero
      | @function k' f' args' hf' _ _ hr =>
        obtain ⟨hs, rfl⟩ := Instr.call.inj hi
        obtain ⟨rfl, rfl⟩ := stacked_injective hp hf' hs
        exact hr ho
      | @intrinsic k' f' args' g' hf' _ hnone _ =>
        obtain ⟨hs, rfl⟩ := Instr.call.inj hi
        obtain ⟨rfl, rfl⟩ := stacked_injective hp hf' hs
        rw [hnone] at hsome
        contradiction

theorem visitFunction_complete (hready : ReadyAt M V n) :
    ∃ N', ∀ᶠ fuel in atTop, visitFunction fuel N n = some N' := by
  cases hb : M.bodyOf n with
  | none =>
    refine ⟨N, .of_forall fun fuel ↦ ?_⟩
    rw [visitFunction, h.bodyOf_eq_none (ne_reverseFuncName hN hn) hb]
  | some b =>
    obtain ⟨N₁, b', hbody⟩ := visitBody_complete hM hN h hb (fun _ hi ↦ hi) hready
    refine ⟨N₁.setBody n b', ?_⟩
    filter_upwards [hbody] with fuel hfuel
    rw [visitFunction, h.unvisited n hV b hb]
    dsimp only
    rw [hfuel, Option.map_some]

end Function

/-! ## All functions -/

theorem namesOf_append_singleton (A : Module) (F : Function) :
    namesOf (A ++ [F]) = insert F.name (namesOf A) := by
  ext n
  simp only [namesOf, List.map_append, List.map_cons, List.map_nil, List.mem_append,
    List.mem_singleton, Set.mem_ofPred_eq, Set.mem_insert_iff]
  exact or_comm

/-- The function to visit next stands in the module where it stood at the start. -/
theorem Stage.getElem? {A B : Module} {F : Function} (h : Stage (A ++ F :: B) V N) :
    ∃ f, N[A.length]? = some f ∧ f.name = F.name := by
  obtain ⟨L, hL⟩ := h.names
  have hname : (N.map Function.name)[A.length]? = some F.name := by
    simp [← hL]
  rw [List.getElem?_map, Option.map_eq_some_iff] at hname
  exact hname

section Loop

variable (hM : WellFormed M) (hN : NamesFree M)
include hM

private theorem WellFormed.next {A B : Module} {F : Function} (hAB : M = A ++ F :: B) :
    (M.getFunction F.name).isSome ∧ F.name ∉ namesOf A := by
  have hnodup := hM.nodup
  rw [hAB, List.map_append, List.map_cons, List.nodup_append] at hnodup
  refine ⟨mem_names_iff.mpr ?_, fun hA ↦ hnodup.2.2 _ hA _ List.mem_cons_self rfl⟩
  rw [hAB]
  simp

include hN

theorem visitFrom_sound {A B : Module} (hAB : M = A ++ B) (h : Stage M (namesOf A) N) {fuel s : ℕ}
    {R : Module} (hv : visitFrom fuel s A.length N = some R) :
    (∃ N' s', Stage M (namesOf M) N' ∧ visitFrom fuel s' M.length N' = some R) ∧
      ∀ B₁ F B₂, B = B₁ ++ F :: B₂ → ReadyAt M (namesOf (A ++ B₁)) F.name := by
  induction B generalizing A N s with
  | nil =>
    rw [List.append_nil] at hAB
    subst hAB
    refine ⟨⟨N, s, h, hv⟩, fun B₁ F B₂ hB ↦ ?_⟩
    exact absurd hB.symm (List.append_ne_nil_of_right_ne_nil B₁ (List.cons_ne_nil F B₂))
  | cons F B ih =>
    obtain ⟨hsome, hnA⟩ := hM.next hAB
    cases s with
    | zero => nomatch hv
    | succ s =>
      obtain ⟨f, hf, hname⟩ := (hAB ▸ h).getElem?
      rw [visitFrom, hf] at hv
      obtain ⟨N₁, hN₁, hv⟩ := Option.bind_eq_some_iff.mp hv
      rw [hname] at hN₁
      obtain ⟨h₁, hready⟩ := visitFunction_sound hM hN h hsome hnA hN₁
      rw [← namesOf_append_singleton] at h₁
      have hlen : (A ++ [F]).length = A.length + 1 := by simp
      rw [← hlen] at hv
      obtain ⟨hend, hrest⟩ := ih (by rw [hAB, List.append_assoc]; rfl) h₁ hv
      refine ⟨hend, fun B₁ F' B₂ hB ↦ ?_⟩
      cases B₁ with
      | nil =>
        obtain ⟨rfl, -⟩ := List.cons.inj hB
        rwa [List.append_nil]
      | cons G B₁ =>
        rw [List.cons_append, List.cons.injEq] at hB
        obtain ⟨rfl, hB⟩ := hB
        have := hrest B₁ F' B₂ hB
        rwa [List.append_assoc] at this

/-- The visits of the functions the module starts with end when the functions are ordered. -/
theorem visitFrom_complete {A B : Module} (hAB : M = A ++ B) (h : Stage M (namesOf A) N)
    (hready : ∀ B₁ F B₂, B = B₁ ++ F :: B₂ → ReadyAt M (namesOf (A ++ B₁)) F.name) :
    ∃ N', Stage M (namesOf M) N' ∧ ∀ᶠ fuel in atTop, ∀ s,
      visitFrom fuel (s + B.length) A.length N = visitFrom fuel s M.length N' := by
  induction B generalizing A N with
  | nil =>
    rw [List.append_nil] at hAB
    subst hAB
    exact ⟨N, h, .of_forall fun _ _ ↦ rfl⟩
  | cons F B ih =>
    obtain ⟨hsome, hnA⟩ := hM.next hAB
    have hhead := hready [] F B rfl
    rw [List.append_nil] at hhead
    obtain ⟨N₁, hN₁⟩ := visitFunction_complete hM hN h hsome hnA hhead
    obtain ⟨fuel, hfuel⟩ := hN₁.exists
    obtain ⟨h₁, -⟩ := visitFunction_sound hM hN h hsome hnA hfuel
    rw [← namesOf_append_singleton] at h₁
    have hlen : (A ++ [F]).length = A.length + 1 := by simp
    obtain ⟨N', h', hrun⟩ := ih (by rw [hAB, List.append_assoc]; rfl) h₁ fun B₁ F' B₂ hB ↦ by
      rw [List.append_assoc]
      exact hready (F :: B₁) F' B₂ (by rw [hB]; rfl)
    refine ⟨N', h', ?_⟩
    filter_upwards [hN₁, hrun] with fuel hfuel hrun s
    obtain ⟨f, hf, hname⟩ := (hAB ▸ h).getElem?
    rw [List.length_cons, ← Nat.add_assoc, visitFrom, hf]
    dsimp only
    rw [hname, hfuel, Option.bind_some, ← hlen, hrun]

end Loop

/-! ## The functions appended meanwhile -/

/-- The same functions under other names of the same order. -/
theorem Stage.congr (h : Stage M V N) (hf : ∀ m, N'.getFunction m = N.getFunction m)
    (hnames : N'.map Function.name = N.map Function.name) : Stage M V N' := by
  have hb : ∀ m, N'.bodyOf m = N.bodyOf m := fun m ↦ by rw [Module.bodyOf, Module.bodyOf, hf]
  refine ⟨fun m hm hP hs ↦ ?_, hnames ▸ h.names, fun m hm hbm ↦ by rw [hf, h.others m hm hbm],
    fun m hm bm hbm ↦ by rw [hb, h.unvisited m hm bm hbm], fun m hm bm hbm ↦ ?_⟩
  · obtain ⟨b, hbm, hr, hc⟩ := h.settled m hm hP (by rwa [hf] at hs)
    exact ⟨b, by rwa [hb], by rwa [hb], fun c args hca hs ↦ by rw [hf]; exact hc c args hca hs⟩
  · obtain ⟨b', hb', hres⟩ := h.visited m hm bm hbm
    exact ⟨b', by rwa [hb], hres.imp fun _ _ ↦ ResolvedInstr.mono fun m hm ↦ by rwa [hf]⟩

/-- When all functions are visited no prefixed call is left. -/
theorem Stage.noReverse (hN : NamesFree M) (h : Stage M (namesOf M) N)
    (hb : N.bodyOf n = some b) : NoReverse b := by
  by_cases hrev : ∃ k, n = reverseFuncName k
  · obtain ⟨k, rfl⟩ := hrev
    exact h.noReverse_inverse hN hb
  · obtain ⟨b₀, hb₀⟩ : ∃ b₀, M.bodyOf n = some b₀ := by
      by_contra hno
      have := h.bodyOf_eq_none (fun k hk ↦ hrev ⟨k, hk⟩)
        (Option.eq_none_iff_forall_ne_some.mpr fun b hb ↦ hno ⟨b, hb⟩)
      rw [hb] at this
      contradiction
    obtain ⟨b', hb', hres⟩ := h.visited n (mem_names_iff.mp (Module.isSome_of_bodyOf hb₀)) b₀ hb₀
    obtain rfl := Option.some_injective _ (hb.symm.trans hb')
    intro c args hc hp
    obtain ⟨i, hi, hic⟩ := exists_of_mem_right hres hc
    cases hic with
    | same hp' => exact hp' c args rfl hp
    | @function k f _ hf hk hbf hr =>
      by_cases ho : Odd k
      · rw [if_pos ho] at hp
        have hfr := h.bodyOf_of_reverse hN (reverse_prefix_of_reversePrefix hp)
        obtain ⟨bf, -, hbf', -⟩ := h.settled f trivial List.not_mem_nil (hr ho)
        rw [hfr] at hbf'
        contradiction
      · rw [if_neg ho] at hp
        exact hf hp

section End

variable (hM : WellFormed M) (hN : NamesFree M)
include hN

theorem visitFunction_end (h : Stage M (namesOf M) N) (n : Ident) :
    ∃ N', (∀ fuel, visitFunction fuel N n = some N') ∧ Stage M (namesOf M) N' ∧
      N'.length = N.length := by
  cases hb : N.bodyOf n with
  | none => exact ⟨N, fun _ ↦ by rw [visitFunction, hb], h, rfl⟩
  | some b =>
    refine ⟨N.setBody n b, fun fuel ↦ ?_,
      h.congr (Module.getFunction_setBody_of_bodyOf hb) (Module.map_name_setBody N n b),
      List.length_map _⟩
    rw [visitFunction, hb]
    dsimp only
    rw [visitBody_of_noReverse (h.noReverse hN hb), Option.map_some]

theorem visitFrom_end_sound (h : Stage M (namesOf M) N) {fuel s i : ℕ} {R : Module}
    (hv : visitFrom fuel s i N = some R) : Stage M (namesOf M) R := by
  induction s generalizing N i with
  | zero => nomatch hv
  | succ s ih =>
    rw [visitFrom] at hv
    cases hi : N[i]? with
    | none =>
      rw [hi] at hv
      exact Option.some.inj hv ▸ h
    | some f =>
      obtain ⟨N₁, hvis, h₁, -⟩ := visitFunction_end hN h f.name
      rw [hi] at hv
      dsimp only at hv
      rw [hvis, Option.bind_some] at hv
      exact ih h₁ hv

theorem visitFrom_end_complete (h : Stage M (namesOf M) N) (i : ℕ) :
    ∃ R, ∀ fuel, ∀ s > N.length - i, visitFrom fuel s i N = some R := by
  induction hl : N.length - i generalizing i N with
  | zero =>
    refine ⟨N, fun fuel s hs ↦ ?_⟩
    obtain ⟨s, rfl⟩ := Nat.exists_eq_add_of_le' hs
    rw [visitFrom, List.getElem?_eq_none (Nat.le_of_sub_eq_zero hl)]
  | succ l ih =>
    have hi : i < N.length := by omega
    obtain ⟨N₁, hvis, h₁, hlen⟩ := visitFunction_end hN h N[i].name
    obtain ⟨R, hR⟩ := ih h₁ (i + 1) (by omega)
    refine ⟨R, fun fuel s hs ↦ ?_⟩
    obtain ⟨s, rfl⟩ := Nat.exists_eq_add_of_le' (Nat.one_le_of_lt hs)
    rw [visitFrom, List.getElem?_eq_getElem hi]
    dsimp only
    rw [hvis, Option.bind_some, hR fuel s (by omega)]

/-! ## The pass -/

theorem stage_initial : Stage M (namesOf []) M := by
  refine ⟨fun n _ _ hn ↦ ?_, List.prefix_rfl, fun _ _ _ ↦ rfl, fun _ _ _ hb ↦ hb, fun n hn ↦ ?_⟩
  · rw [hN.inverse] at hn
    contradiction
  · exact absurd hn List.not_mem_nil

include hM

/-- **When the pass ends, the functions were ordered and are resolved.** -/
theorem runOnModule_sound {fuel : ℕ} {R : Module} (hv : runOnModule fuel M = some R) :
    Stage M (namesOf M) R ∧ Ordered M := by
  obtain ⟨⟨N', s', h', hv'⟩, hready⟩ :=
    visitFrom_sound hM hN (A := []) rfl (stage_initial hN) hv
  exact ⟨visitFrom_end_sound hN h' hv', fun A F B hAB ↦ hready A F B hAB⟩

/-- **When the functions are ordered, the pass ends.** -/
theorem runOnModule_complete (ho : Ordered M) :
    ∃ R, ∀ᶠ fuel in atTop, runOnModule fuel M = some R := by
  obtain ⟨N', h', hrun⟩ := visitFrom_complete hM hN (A := []) rfl (stage_initial hN)
    fun B₁ F B₂ hB ↦ ho B₁ F B₂ hB
  obtain ⟨R, hR⟩ := visitFrom_end_complete hN h' M.length
  refine ⟨R, ?_⟩
  filter_upwards [hrun, eventually_gt_atTop (M.length + (N'.length - M.length))]
    with fuel hrun hfuel
  have := hrun (fuel - M.length)
  rw [Nat.sub_add_cancel (by omega)] at this
  rw [runOnModule]
  exact this.trans (hR fuel _ (by omega))

end End

end ScaffCC.FunctionReverse
