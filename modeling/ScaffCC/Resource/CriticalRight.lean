import ScaffCC.Resource.CriticalProfile

/-!
# Profiles of modules

The pass is right about a function if the profile has as many entries as there are timesteps, has
all gates of the flattened body in it, puts no two calls with a common argument into one step, and
has the greatest numbers right.

It is right about all functions but `main` exactly if no gate and no function is called without a
qubit or a classical bit, no call has too many arguments, no profile that is added to another one is
too long for 32 bits, and the numbers and the lengths of the exact profiles fit in 64 bits.
-/

open Scheduling Fallible

namespace ScaffCC.CriticalResourceCount

/-! ## What is right -/

/-- Two arguments have a qubit in common. -/
def QArgInfo.Overlaps (a b : QArgInfo) : Prop :=
  a.name = b.name ∧ (a.index = -1 ∨ b.index = -1 ∨ a.index = b.index)

/-- Two calls have no qubit in common. -/
def Call.Apart (c d : Call) : Prop := ∀ a ∈ c.args, ∀ b ∈ d.args, ¬ a.Overlaps b

/-- At any time while a function is processed, the functions of the current step are those of the
last calls that count, and these have no qubit in common. -/
def StepsApart (s : State) (F : Func) : Prop :=
  ∀ pre post, F.body = pre ++ post → ∃ r,
    pre.foldlM (analyzeCallInst F.name) (init_critical_path_algo F.name s) = .ok r ∧
    ∃ earlier merged, pre.filter Call.counts = earlier ++ merged ∧
      merged.map Call.qFunc = r.currParallelFunc ∧ merged.Pairwise Call.Apart

/-- What is stored of a function is right. -/
structure InfoRight (order : List Func) (F : Func) (t : TSInfo) (x : MaxTSInfo) : Prop where
  length : t.gates.length = t.timesteps.toNat
  gates : ∃ gs, Flattens order F.body gs ∧ ∀ k, stored t.gates k = gateCount gs k
  parallel_gates : ∀ k, IsGreatest {n | ∃ e ∈ t.gates, n = (e k).toNat} (x.parallel_gates k).toNat

/-- The pass is right about a function that comes after the functions `A`. -/
def RightAt (P : Program) (A : List Func) (F : Func) : Prop :=
  ∃ s s' t x, runOnModule A = .ok s ∧ CountCriticalFunctionResources s F = .ok s' ∧
    s'.funcParallelFactor F.name = some t ∧ s'.funcMaxParallelFactor F.name = some x ∧
    InfoRight P.order F t x ∧ StepsApart s F

/-- The pass is right about all functions but `main`. -/
def Program.ProfilesRight (P : Program) : Prop :=
  ∀ A F B, P.order = A ++ F :: B → F.name ≠ main → RightAt P A F

/-- The exact profiles of the functions of a module. -/
def Program.profile (P : Program) : Ident → List Gates := exactProfiles P.order

/-- What the pass relies on in a function. -/
structure Fits (P : Program) (F : Func) : Prop where
  counts : ∀ c ∈ F.body, (c.qFunc ∈ P.order.map Func.name ∨ ∃ i, c.qFunc = intrinsic i) →
    c.counts = true
  args : ∀ c ∈ F.counted, c.args.length ≤ MAX_GATE_ARGS
  merged : ∀ d ∈ stepsOf F.counted, 1 < d.length →
    ∀ c ∈ d, (P.profile c.qFunc).length < 2 ^ 32
  length : (P.profile F.name).length < 2 ^ 64
  entries : ∀ e ∈ P.profile F.name, ∀ k, e k < 2 ^ 64

/-! ## Exact profiles -/

variable {P : Program} {A B : List Func} {F G : Func} {c : Call} {cs : List Call}
  {prof prof' : Ident → List Gates} {s s' : State} {n : Ident}

theorem intrinsic_injective : Function.Injective intrinsic := by
  have h : ∀ i j, intrinsic i = intrinsic j → i = j := by decide
  exact fun i j ↦ h i j

theorem gateProfile_intrinsic (i : Fin NUM_QGATES) : gateProfile (intrinsic i) = [exactGate i] := by
  have hfind : (List.finRange NUM_QGATES).find? (fun j ↦ intrinsic j == intrinsic i) = some i := by
    rw [List.find?_eq_some_iff_getElem]
    refine ⟨beq_self_eq_true _, i, by simp, by simp, fun j hj ↦ ?_⟩
    have hne : j ≠ (i : ℕ) := hj.ne
    simpa [intrinsic_injective.eq_iff, Fin.ext_iff] using hne
  rw [gateProfile, hfind]

theorem gateProfile_of_ne (h : ∀ i, n ≠ intrinsic i) : gateProfile n = [] := by
  have hfind : (List.finRange NUM_QGATES).find? (fun j ↦ intrinsic j == n) = none := by
    rw [List.find?_eq_none]
    intro i _ hi
    exact h i (eq_of_beq hi).symm
  rw [gateProfile, hfind]

theorem exactProfiles_append (A B : List Func) (h : n ∉ B.map Func.name) :
    exactProfiles (A ++ B) n = exactProfiles A n := by
  rw [exactProfiles, List.foldl_append, ← exactProfiles]
  generalize exactProfiles A = prof
  induction B generalizing prof with
  | nil => rfl
  | cons F B ih =>
    rw [List.map_cons, List.mem_cons, not_or] at h
    rw [List.foldl_cons, ih h.2, Function.update_of_ne h.1]

theorem exactOf_congr (h : ∀ c ∈ cs, prof c.qFunc = prof' c.qFunc) :
    exactOf prof cs = exactOf prof' cs := by
  refine List.flatMap_congr fun d hd ↦ ?_
  rw [exactStep, exactStep, List.map_congr_left fun c hc ↦ h c (mem_of_mem_stepsOf hd hc)]

theorem total_exactOf (prof : Ident → List Gates) (cs : List Call) (k : Fin NUM_QGATES) :
    total (exactOf prof cs) k = (cs.map fun c ↦ total (prof c.qFunc) k).sum := by
  have hstep (d : List Call) :
      total (exactStep prof d) k = (d.map fun c ↦ total (prof c.qFunc) k).sum := by
    have hsum := Profile.sum_map_foldl_merge (f := fun e : Gates ↦ e k) (fun _ _ ↦ rfl) []
      (d.map fun c ↦ prof c.qFunc)
    rw [List.map_map, List.map_nil, List.sum_nil, Nat.zero_add] at hsum
    exact hsum
  rw [← sum_map_stepsOf, exactOf, total, List.map_flatMap, List.flatMap_def,
    List.sum_flatten, List.map_map]
  exact congrArg List.sum (List.map_congr_left fun d _ ↦ hstep d)

theorem pos_of_mem_exactOf (h : ∀ c ∈ cs, ∀ e ∈ prof c.qFunc, 0 < e _All) :
    ∀ e ∈ exactOf prof cs, 0 < e _All := by
  intro e he
  obtain ⟨d, hd, he⟩ := List.mem_flatMap.mp he
  refine Profile.forall_mem_foldl_merge (p := fun e : Gates ↦ 0 < e _All)
    (fun x y hx _ ↦ Nat.add_pos_left hx _) (List.forall_mem_nil _) (fun b hb ↦ ?_) e he
  obtain ⟨c, hc, rfl⟩ := List.mem_map.mp hb
  exact h c (mem_of_mem_stepsOf hd hc)

namespace Program

/-- What holds of a function if it holds of those before it holds of all. -/
theorem forall_of_earlier {Q : Func → Prop}
    (h : ∀ A F B, P.order = A ++ F :: B → (∀ G ∈ A, Q G) → Q F) : ∀ F ∈ P.order, Q F := by
  have hprefix : ∀ A B, P.order = A ++ B → ∀ G ∈ A, Q G := by
    intro A
    induction A using List.reverseRecOn with
    | nil => exact fun _ _ ↦ List.forall_mem_nil _
    | append_singleton A F ih =>
      intro B hB G hG
      rw [List.append_assoc, List.singleton_append] at hB
      rcases List.mem_append.mp hG with hG | hG
      · exact ih _ hB G hG
      · rw [List.mem_singleton.mp hG]
        exact h A F B hB (ih _ hB)
  exact hprefix P.order [] (List.append_nil _).symm

theorem callee (h : P.order = A ++ F :: B) (hc : c ∈ F.counted) :
    (∃ G ∈ A, G.name = c.qFunc) ∨ ∃ i, c.qFunc = intrinsic i := by
  obtain ⟨hbody, hcounts⟩ := List.mem_filter.mp hc
  have hF : F ∈ P.order := by
    rw [h]
    exact List.mem_append_right _ List.mem_cons_self
  rcases P.closed F hF c hbody hcounts with hmem | hgate
  · exact .inl (List.mem_map.mp (P.callees A F B h c hbody hmem))
  · exact .inr hgate

theorem name_notMem (h : P.order = A ++ F :: B) :
    F.name ∉ A.map Func.name ∧ F.name ∉ B.map Func.name ∧
      ∀ G ∈ A, G.name ∉ (F :: B).map Func.name := by
  have hnodup := P.nodup
  rw [h, List.map_append, List.nodup_append, List.map_cons, List.nodup_cons] at hnodup
  obtain ⟨-, ⟨hB, -⟩, hdisj⟩ := hnodup
  refine ⟨fun hA ↦ hdisj _ hA _ List.mem_cons_self rfl, hB, fun G hG hmem ↦ ?_⟩
  exact hdisj _ (List.mem_map_of_mem hG) _ hmem rfl

theorem profile_intrinsic (P : Program) (i : Fin NUM_QGATES) :
    P.profile (intrinsic i) = [exactGate i] := by
  have hnot : intrinsic i ∉ P.order.map Func.name := by
    intro hmem
    obtain ⟨F, hF, hname⟩ := List.mem_map.mp hmem
    exact P.not_gate F hF i hname
  rw [profile, ← List.nil_append P.order, exactProfiles_append [] _ hnot]
  exact gateProfile_intrinsic i

theorem profile_other (hn : n ∉ P.order.map Func.name) (h : ∀ i, n ≠ intrinsic i) :
    P.profile n = [] := by
  rw [profile, ← List.nil_append P.order, exactProfiles_append [] _ hn]
  exact gateProfile_of_ne h

theorem profile_eq (h : P.order = A ++ F :: B) :
    P.profile F.name = exactOf P.profile F.counted := by
  obtain ⟨-, hB, hA⟩ := P.name_notMem h
  have hF : P.profile F.name = exactOf (exactProfiles A) F.counted := by
    rw [profile, h, ← List.singleton_append, ← List.append_assoc, exactProfiles_append _ B hB,
      exactProfiles, List.foldl_append, List.foldl_cons, List.foldl_nil, ← exactProfiles,
      Function.update_self]
  rw [hF]
  refine exactOf_congr fun c hc ↦ ?_
  have hnot : c.qFunc ∉ (F :: B).map Func.name := by
    rcases P.callee h hc with ⟨G, hG, hname⟩ | ⟨i, hi⟩
    · rw [← hname]
      exact hA G hG
    · rw [hi]
      intro hmem
      obtain ⟨G, hG, hname⟩ := List.mem_map.mp hmem
      exact P.not_gate G (h ▸ List.mem_append_right _ hG) i hname
  rw [profile, h, exactProfiles_append A _ hnot]

theorem pos_of_mem_profile (P : Program) (n : Ident) : ∀ e ∈ P.profile n, 0 < e _All := by
  have hgate : ∀ i, ∀ e ∈ P.profile (intrinsic i), 0 < e _All := by
    intro i e he
    rw [P.profile_intrinsic, List.mem_singleton] at he
    rw [he, exactGate, if_pos (.inr rfl)]
    exact Nat.one_pos
  have hfunc : ∀ F ∈ P.order, ∀ e ∈ P.profile F.name, 0 < e _All := by
    refine P.forall_of_earlier fun A F B h hA ↦ ?_
    rw [profile_eq h]
    refine pos_of_mem_exactOf fun c hc ↦ ?_
    rcases P.callee h hc with ⟨G, hG, hname⟩ | ⟨i, hi⟩
    · rw [← hname]
      exact hA G hG
    · rw [hi]
      exact hgate i
  by_cases hn : n ∈ P.order.map Func.name
  · obtain ⟨F, hF, rfl⟩ := List.mem_map.mp hn
    exact hfunc F hF
  · by_cases hi : ∃ i, n = intrinsic i
    · obtain ⟨i, rfl⟩ := hi
      exact hgate i
    · rw [profile_other hn (not_exists.mp hi)]
      exact List.forall_mem_nil _

theorem counted_ne_nil (h : P.order = A ++ F :: B) : F.counted ≠ [] := by
  obtain ⟨c, hc, hcounts⟩ := P.quantum F (h ▸ List.mem_append_right _ List.mem_cons_self)
  exact List.ne_nil_of_mem (List.mem_filter.mpr ⟨hc, hcounts⟩)

theorem total_profile_eq (h : P.order = A ++ F :: B) (k : Fin NUM_QGATES) :
    total (P.profile F.name) k = (F.counted.map fun c ↦ total (P.profile c.qFunc) k).sum := by
  rw [profile_eq h, total_exactOf]

/-- A gate has a gate in it, and so has each function. -/
theorem total_profile_pos
    (h : n ∈ P.order.map Func.name ∨ ∃ i, n = intrinsic i) : 0 < total (P.profile n) _All := by
  have hgate : ∀ i, 0 < total (P.profile (intrinsic i)) _All := by
    intro i
    rw [P.profile_intrinsic, total, List.map_singleton, List.sum_singleton, exactGate,
      if_pos (.inr rfl)]
    exact Nat.one_pos
  have hfunc : ∀ F ∈ P.order, 0 < total (P.profile F.name) _All := by
    refine P.forall_of_earlier fun A F B h hA ↦ ?_
    rw [total_profile_eq h]
    obtain ⟨c, hc⟩ := List.exists_mem_of_ne_nil _ (counted_ne_nil h)
    have hpos : 0 < total (P.profile c.qFunc) _All := by
      rcases P.callee h hc with ⟨G, hG, hname⟩ | ⟨i, hi⟩
      · rw [← hname]
        exact hA G hG
      · rw [hi]
        exact hgate i
    exact hpos.trans_le (List.le_sum_of_mem (List.mem_map.mpr ⟨c, hc, rfl⟩))
  rcases h with hn | ⟨i, rfl⟩
  · obtain ⟨F, hF, rfl⟩ := List.mem_map.mp hn
    exact hfunc F hF
  · exact hgate i

end Program

/-! ## Flattened bodies -/

theorem Flattens.unique (P : Program) {gs gs' : List (Fin NUM_QGATES)}
    (h : Flattens P.order cs gs) (h' : Flattens P.order cs gs') : gs = gs' := by
  induction h generalizing gs' with
  | nil =>
    cases h'
    rfl
  | gate hi _ ih =>
    cases h' with
    | gate hj h' => rw [intrinsic_injective (hi.symm.trans hj), ih h']
    | call hF hname _ _ => exact absurd (hname.trans hi) (P.not_gate _ hF _)
    | other hno _ _ => exact absurd hi (hno _)
  | call hF hname _ _ ihF ih =>
    cases h' with
    | gate hi _ => exact absurd (hname.trans hi) (P.not_gate _ hF _)
    | call hF' hname' hds h' =>
      obtain rfl := List.inj_on_of_nodup_map P.nodup hF hF' (hname.trans hname'.symm)
      rw [ihF hds, ih h']
    | other _ hno _ => exact absurd (hname ▸ List.mem_map_of_mem hF) hno
  | other hno hnot _ ih =>
    cases h' with
    | gate hi _ => exact absurd hi (hno _)
    | call hF hname _ _ => exact absurd (hname ▸ List.mem_map_of_mem hF) hnot
    | other _ _ h' => exact ih h'

theorem gateCount_append (gs gs' : List (Fin NUM_QGATES)) (k : Fin NUM_QGATES) :
    gateCount (gs ++ gs') k = gateCount gs k + gateCount gs' k :=
  List.countP_append

theorem gateCount_cons (i : Fin NUM_QGATES) (gs : List (Fin NUM_QGATES)) (k : Fin NUM_QGATES) :
    gateCount (i :: gs) k = exactGate i k + gateCount gs k := by
  rw [gateCount, List.countP_cons, ← gateCount, exactGate, Nat.add_comm]
  simp

/-- The exact profile of a function has the gates of its flattened body in it. -/
def Complete (P : Program) (F : Func) : Prop :=
  ∃ gs, Flattens P.order F.body gs ∧ ∀ k, gateCount gs k = total (P.profile F.name) k

theorem exists_flattens (h : ∀ c ∈ cs, ∀ G ∈ P.order, G.name = c.qFunc → Complete P G) :
    ∃ gs, Flattens P.order cs gs ∧
      ∀ k, gateCount gs k = (cs.map fun c ↦ total (P.profile c.qFunc) k).sum := by
  induction cs with
  | nil => exact ⟨[], .nil, fun k ↦ rfl⟩
  | cons c cs ih =>
    obtain ⟨hc, hcs⟩ := List.forall_mem_cons.mp h
    obtain ⟨gs, hgs, hcount⟩ := ih hcs
    by_cases hi : ∃ i, c.qFunc = intrinsic i
    · obtain ⟨i, hi⟩ := hi
      refine ⟨i :: gs, .gate hi hgs, fun k ↦ ?_⟩
      rw [gateCount_cons, hcount, List.map_cons, List.sum_cons, hi, P.profile_intrinsic, total,
        List.map_singleton, List.sum_singleton]
    · by_cases hn : c.qFunc ∈ P.order.map Func.name
      · obtain ⟨G, hG, hname⟩ := List.mem_map.mp hn
        obtain ⟨ds, hds, htotal⟩ := hc G hG hname
        refine ⟨ds ++ gs, .call hG hname hds hgs, fun k ↦ ?_⟩
        rw [gateCount_append, htotal, hcount, hname, List.map_cons, List.sum_cons]
      · refine ⟨gs, .other (not_exists.mp hi) hn hgs, fun k ↦ ?_⟩
        rw [hcount, List.map_cons, List.sum_cons, P.profile_other hn (not_exists.mp hi), total,
          List.map_nil, List.sum_nil, Nat.zero_add]

theorem sum_counted (F : Func) (f : Call → ℕ) :
    (F.body.map f).sum
      = (F.counted.map f).sum + ((F.body.filter fun c ↦ !c.counts).map f).sum := by
  have hsplit := List.sum_map_filter_add_sum_map_filter_not (fun c ↦ c.counts = true) f F.body
  simp only [Bool.decide_eq_true, Bool.not_eq_true, Bool.decide_eq_false] at hsplit
  exact hsplit.symm

theorem exists_flattens_body (h : P.order = A ++ F :: B) (hA : ∀ G ∈ A, Complete P G) :
    ∃ gs, Flattens P.order F.body gs ∧
      ∀ k, gateCount gs k = (F.body.map fun c ↦ total (P.profile c.qFunc) k).sum := by
  refine exists_flattens fun c hc G hG hname ↦ ?_
  have hmem := P.callees A F B h c hc (hname ▸ List.mem_map_of_mem hG)
  obtain ⟨G', hG', hname'⟩ := List.mem_map.mp hmem
  obtain rfl := List.inj_on_of_nodup_map P.nodup hG
    (h ▸ List.mem_append_left _ hG') (hname.trans hname'.symm)
  exact hA G hG'

theorem complete_of_counts (h : P.order = A ++ F :: B) (hA : ∀ G ∈ A, Complete P G)
    (hcounts : ∀ c ∈ F.body, (c.qFunc ∈ P.order.map Func.name ∨ ∃ i, c.qFunc = intrinsic i) →
      c.counts = true) : Complete P F := by
  obtain ⟨gs, hgs, hcount⟩ := exists_flattens_body h hA
  refine ⟨gs, hgs, fun k ↦ ?_⟩
  have hrest : ((F.body.filter fun c ↦ !c.counts).map fun c ↦ total (P.profile c.qFunc) k).sum
      = 0 := by
    refine List.sum_eq_zero fun m hm ↦ ?_
    obtain ⟨c, hc, rfl⟩ := List.mem_map.mp hm
    obtain ⟨hbody, hnot⟩ := List.mem_filter.mp hc
    have hfree := mt (hcounts c hbody) (by simpa using hnot)
    rw [not_or, not_exists] at hfree
    rw [P.profile_other hfree.1 hfree.2, total, List.map_nil, List.sum_nil]
  rw [hcount, sum_counted, hrest, Nat.add_zero, P.total_profile_eq h]

/-! ## Runs of the pass -/

/-- What is stored under a name. -/
def State.info (s : State) (n : Ident) : TSInfo := (s.funcParallelFactor n).getD ⟨0, []⟩

/-- The greatest numbers stored under a name. -/
def State.maxInfo (s : State) (n : Ident) : MaxTSInfo :=
  (s.funcMaxParallelFactor n).getD ⟨0, fun _ ↦ 0⟩

/-- The exact profile is stored under a name. -/
structure Holds (P : Program) (s : State) (n : Ident) : Prop where
  info : s.funcParallelFactor n = some (s.info n)
  maxInfo : s.funcMaxParallelFactor n = some (s.maxInfo n)
  stores : Stores (P.profile n) (s.info n) (s.maxInfo n)

/-- The exact profiles of the gates and of some functions are stored. -/
def Ready (P : Program) (A : List Func) (s : State) : Prop :=
  (∀ i, Holds P s (intrinsic i)) ∧ ∀ G ∈ A, Holds P s G.name

theorem holds_of_eq {t : TSInfo} {x : MaxTSInfo} (ht : s.funcParallelFactor n = some t)
    (hx : s.funcMaxParallelFactor n = some x) (h : Stores (P.profile n) t x) : Holds P s n := by
  have hinfo : s.info n = t := by rw [State.info, ht, Option.getD_some]
  have hmax : s.maxInfo n = x := by rw [State.maxInfo, hx, Option.getD_some]
  exact ⟨by rw [hinfo, ht], by rw [hmax, hx], by rw [hinfo, hmax]; exact h⟩

theorem init_gates_of_mem (l : List (Fin NUM_QGATES)) (s : State) {i : Fin NUM_QGATES}
    (hi : i ∈ l) :
    let s' := l.foldl (fun s i ↦
      { s with
        funcParallelFactor :=
          Function.update s.funcParallelFactor (intrinsic i) (some ⟨1, [gateInfo i]⟩)
        funcMaxParallelFactor :=
          Function.update s.funcMaxParallelFactor (intrinsic i) (some ⟨1, gateInfo i⟩) }) s
    s'.funcParallelFactor (intrinsic i) = some ⟨1, [gateInfo i]⟩ ∧
      s'.funcMaxParallelFactor (intrinsic i) = some ⟨1, gateInfo i⟩ := by
  induction l using List.reverseRecOn with
  | nil => cases hi
  | append_singleton l j ih =>
    rw [List.foldl_append, List.foldl_cons, List.foldl_nil]
    by_cases hij : i = j
    · subst hij
      exact ⟨Function.update_self _ _ _, Function.update_self _ _ _⟩
    · have hne : intrinsic i ≠ intrinsic j := fun h ↦ hij (intrinsic_injective h)
      have hmem : i ∈ l := by simpa [hij] using hi
      exact ⟨(Function.update_of_ne hne _ _).trans (ih hmem).1,
        (Function.update_of_ne hne _ _).trans (ih hmem).2⟩

theorem ready_start (P : Program) : Ready P [] (init_gates_as_functions .start) := by
  refine ⟨fun i ↦ ?_, List.forall_mem_nil _⟩
  obtain ⟨hinfo, hmax⟩ := init_gates_of_mem (List.finRange NUM_QGATES) .start (List.mem_finRange i)
  refine holds_of_eq hinfo hmax ⟨?_, ?_, ?_⟩
  · rw [P.profile_intrinsic, List.map_singleton, words_exactGate]
  · rw [P.profile_intrinsic]
    rfl
  · funext k
    apply UInt64.toNat_inj.mp
    rw [List.foldl_cons, List.foldl_nil, toNat_raise]
    exact (Nat.zero_max _).symm

theorem Ready.holds (hs : Ready P A s) (h : P.order = A ++ F :: B) (hc : c ∈ F.counted) :
    Holds P s c.qFunc := by
  rcases P.callee h hc with ⟨G, hG, hname⟩ | ⟨i, hi⟩
  · rw [← hname]
    exact hs.2 G hG
  · rw [hi]
    exact hs.1 i

theorem Ready.served (hs : Ready P A s) (h : P.order = A ++ F :: B) (hc : c ∈ F.counted) :
    Served s.info s.maxInfo F.name s c := by
  have hholds := hs.holds h hc
  refine ⟨fun hself ↦ ?_, hholds.info, hholds.maxInfo⟩
  rcases P.callee h hc with ⟨G, hG, hname⟩ | ⟨i, hi⟩
  · exact (P.name_notMem h).1 (List.mem_map.mpr ⟨G, hG, hname.trans hself⟩)
  · exact P.not_gate F (h ▸ List.mem_append_right _ List.mem_cons_self) i (hself.symm.trans hi)

theorem Ready.known (hs : Ready P A s) (h : P.order = A ++ F :: B) (hc : c ∈ F.counted) :
    Known P.profile s.info s.maxInfo c :=
  (hs.holds h hc).stores

theorem Ready.count (hs : Ready P A s) (h : P.order = A ++ F :: B) (hF : F.name ≠ main)
    (hargs : ∀ c ∈ F.counted, c.args.length ≤ MAX_GATE_ARGS) :
    ∃ s', CountCriticalFunctionResources s F = .ok s' ∧
      s'.funcParallelFactor = Function.update s.funcParallelFactor F.name
        (some (infoOf s.info F.counted)) ∧
      s'.funcMaxParallelFactor = Function.update s.funcMaxParallelFactor F.name
        (some (maxInfoOf s.info s.maxInfo F.counted)) :=
  CountCriticalFunctionResources_eq hF (P.counted_ne_nil h) hargs fun _ hc ↦ hs.served h hc

/-- The exact profile of a function is stored if it fits. -/
theorem Ready.append (hs : Ready P A s) (h : P.order = A ++ F :: B)
    (hmerged : ∀ d ∈ stepsOf F.counted, 1 < d.length →
      ∀ c ∈ d, (P.profile c.qFunc).length < 2 ^ 32)
    (hinfo : s'.funcParallelFactor = Function.update s.funcParallelFactor F.name
      (some (infoOf s.info F.counted)))
    (hmax : s'.funcMaxParallelFactor = Function.update s.funcMaxParallelFactor F.name
      (some (maxInfoOf s.info s.maxInfo F.counted))) : Ready P (A ++ [F]) s' := by
  have hkeep (n : Ident) (hn : n ≠ F.name) (hholds : Holds P s n) : Holds P s' n := by
    refine holds_of_eq ?_ ?_ hholds.stores
    · rw [hinfo, Function.update_of_ne hn, hholds.info]
    · rw [hmax, Function.update_of_ne hn, hholds.maxInfo]
  have hF : F ∈ P.order := h ▸ List.mem_append_right _ List.mem_cons_self
  refine ⟨fun i ↦ hkeep _ (P.not_gate F hF i).symm (hs.1 i), fun G hG ↦ ?_⟩
  rcases List.mem_append.mp hG with hG | hG
  · refine hkeep _ (fun hname ↦ ?_) (hs.2 G hG)
    exact (P.name_notMem h).1 (List.mem_map.mpr ⟨G, hG, hname⟩)
  · rw [List.mem_singleton.mp hG]
    refine holds_of_eq (by rw [hinfo, Function.update_self]) (by rw [hmax, Function.update_self]) ?_
    rw [P.profile_eq h]
    exact stores_infoOf (fun c hc ↦ hs.known h hc) hmerged

theorem name_ne_main (h : P.order = A ++ F :: B) (hG : G ∈ A) : G.name ≠ main := by
  intro hmain
  obtain ⟨A₁, A₂, rfl⟩ := List.append_of_mem hG
  rw [List.append_assoc, List.cons_append] at h
  exact absurd (P.root_last A₁ G _ h hmain) (by simp)

/-- **The run of the pass up to a function.** -/
theorem exists_run (h : P.order = A ++ F :: B) (hA : ∀ G ∈ A, Fits P G) :
    ∃ s, runOnModule A = .ok s ∧ Ready P A s := by
  induction A using List.reverseRecOn generalizing F B with
  | nil => exact ⟨_, rfl, ready_start P⟩
  | append_singleton A G ih =>
    have hmain : G.name ≠ main :=
      name_ne_main h (List.mem_append_right _ (List.mem_singleton.mpr rfl))
    have hG : Fits P G := hA G (List.mem_append_right _ (List.mem_singleton.mpr rfl))
    rw [List.append_assoc, List.singleton_append] at h
    obtain ⟨s, hs, hready⟩ := ih h fun G' hG' ↦ hA G' (List.mem_append_left _ hG')
    obtain ⟨s', hs', hinfo, hmax⟩ := hready.count h hmain hG.args
    refine ⟨s', ?_, hready.append h hG.merged hinfo hmax⟩
    rw [runOnModule, List.foldlM_append, ← runOnModule, hs]
    exact bind_eq_ok.mpr ⟨s, rfl, bind_eq_ok.mpr ⟨s', hs', rfl⟩⟩

/-! ## When the pass is right -/

theorem apart_of_shares_eq_false {c d : Call} (h : c.shares d = false) : c.Apart d := by
  intro a ha b hb hover
  have hmeets : a.meets b = true := by
    simpa [QArgInfo.meets, QArgInfo.Overlaps, or_assoc] using hover
  have hshares : c.shares d = true :=
    List.any_eq_true.mpr ⟨a, ha, List.any_eq_true.mpr ⟨b, hb, hmeets⟩⟩
  rw [h] at hshares
  exact Bool.false_ne_true hshares

theorem Ready.stepsApart (hs : Ready P A s) (h : P.order = A ++ F :: B) (hF : F.name ≠ main)
    (hargs : ∀ c ∈ F.counted, c.args.length ≤ MAX_GATE_ARGS) : StepsApart s F := by
  intro pre post hbody
  have hsub : ∀ c ∈ pre.filter Call.counts, c ∈ F.counted := by
    intro c hc
    rw [Func.counted, hbody, List.filter_append]
    exact List.mem_append_left _ hc
  refine ⟨_, foldlM_analyzeCallInst hF (fun c hc ↦ hargs c (hsub c hc))
    (fun c hc ↦ hs.served h (hsub c hc)),
    (Greedy.run Call.shares (pre.filter Call.counts)).done.flatten, _, ?_, rfl,
    (Greedy.pairwise_run (pre.filter Call.counts)).imp apart_of_shares_eq_false⟩
  have hflatten := Greedy.flatten_steps_run (r := Call.shares) (pre.filter Call.counts)
  rw [Greedy.steps, List.flatten_append, List.flatten_singleton] at hflatten
  exact hflatten.symm

theorem stored_words (p : List Gates) {k : Fin NUM_QGATES} (h : ∀ e ∈ p, e k < 2 ^ 64) :
    stored (p.map words) k = total p k := by
  rw [stored, total, List.map_map]
  exact congrArg List.sum (List.map_congr_left fun e he ↦ toNat_words (h e he))

theorem entries_of_total_le {p : List Gates} {k : Fin NUM_QGATES}
    (h : total p k ≤ stored (p.map words) k) : ∀ e ∈ p, e k < 2 ^ 64 := by
  intro e he
  by_contra hlarge
  have hlt : (words e k).toNat < e k := by
    have hbound := (words e k).toNat_lt
    omega
  rw [stored, List.map_map, total] at h
  exact absurd h (not_le.mpr (List.sum_lt_sum _ _ (fun e _ ↦ toNat_words_le e k) ⟨e, he, hlt⟩))

theorem infoRight_of_stores {t : TSInfo} {x : MaxTSInfo} (hF : F ∈ P.order)
    (h : Stores (P.profile F.name) t x) (hcomplete : Complete P F)
    (hlength : (P.profile F.name).length < 2 ^ 64)
    (hentries : ∀ e ∈ P.profile F.name, ∀ k, e k < 2 ^ 64) : InfoRight P.order F t x := by
  obtain ⟨gs, hgs, hcount⟩ := hcomplete
  refine ⟨?_, ⟨gs, hgs, fun k ↦ ?_⟩, fun k ↦ ?_⟩
  · rw [h.gates, List.length_map, h.timesteps, toNat_ofNat hlength]
  · rw [h.gates, stored_words _ fun e he ↦ hentries e he k, hcount]
  · rw [h.parallel_gates, toNat_foldl_raise]
    refine isGreatest_foldl_max (fun e : TSParGateInfo ↦ (e k).toNat) fun hnil ↦ ?_
    have hpos := P.total_profile_pos (.inl (List.mem_map_of_mem hF))
    rw [h.gates, List.map_eq_nil_iff] at hnil
    rw [hnil] at hpos
    exact Nat.lt_irrefl 0 hpos

theorem entries_callee (h : P.order = A ++ F :: B) (hA : ∀ G ∈ A, Fits P G)
    (hc : c ∈ F.counted) : ∀ e ∈ P.profile c.qFunc, ∀ k, e k < 2 ^ 64 := by
  intro e he k
  rcases P.callee h hc with ⟨G, hG, hname⟩ | ⟨i, hi⟩
  · rw [← hname] at he
    exact (hA G hG).entries e he k
  · rw [hi, P.profile_intrinsic, List.mem_singleton] at he
    rw [he, exactGate]
    split <;> norm_num

theorem Ready.stored_info (hs : Ready P A s) (h : P.order = A ++ F :: B) (hA : ∀ G ∈ A, Fits P G)
    (hc : c ∈ F.counted) (k : Fin NUM_QGATES) :
    stored (s.info c.qFunc).gates k = total (P.profile c.qFunc) k := by
  rw [(hs.known h hc).gates]
  exact stored_words _ fun e he ↦ entries_callee h hA hc e he k

theorem complete_of_fits (h : P.order = A ++ B) (hA : ∀ G ∈ A, Fits P G) :
    ∀ G ∈ A, Complete P G := by
  induction A using List.reverseRecOn generalizing B with
  | nil => exact List.forall_mem_nil _
  | append_singleton A F ih =>
    rw [List.append_assoc, List.singleton_append] at h
    have hcomplete := ih h fun G hG ↦ hA G (List.mem_append_left _ hG)
    intro G hG
    rcases List.mem_append.mp hG with hG | hG
    · exact hcomplete G hG
    · rw [List.mem_singleton.mp hG]
      exact complete_of_counts h hcomplete
        (hA F (List.mem_append_right _ (List.mem_singleton.mpr rfl))).counts

theorem rightAt_of_fits (h : P.order = A ++ F :: B) (hF : F.name ≠ main) (hA : ∀ G ∈ A, Fits P G)
    (hfits : Fits P F) : RightAt P A F := by
  obtain ⟨s, hs, hready⟩ := exists_run h hA
  obtain ⟨s', hs', hinfo, hmax⟩ := hready.count h hF hfits.args
  have hstores := stores_infoOf (fun c hc ↦ hready.known h hc) hfits.merged
  rw [← P.profile_eq h] at hstores
  refine ⟨s, s', _, _, hs, hs', by rw [hinfo, Function.update_self],
    by rw [hmax, Function.update_self], ?_, hready.stepsApart h hF hfits.args⟩
  exact infoRight_of_stores (h ▸ List.mem_append_right _ List.mem_cons_self) hstores
    (complete_of_counts h (complete_of_fits h hA) hfits.counts) hfits.length hfits.entries

theorem Ready.counts_of_gates (hs : Ready P A s) (h : P.order = A ++ F :: B)
    (hA : ∀ G ∈ A, Fits P G) {gs : List (Fin NUM_QGATES)} (hgs : Flattens P.order F.body gs)
    (hcount : stored (infoOf s.info F.counted).gates _All = gateCount gs _All) :
    ((F.counted.map fun c ↦ stored (s.info c.qFunc).gates _All).sum
        ≤ stored (infoOf s.info F.counted).gates _All) ∧
      ∀ c ∈ F.body, (c.qFunc ∈ P.order.map Func.name ∨ ∃ i, c.qFunc = intrinsic i) →
        c.counts = true := by
  obtain ⟨gs', hgs', htotal⟩ := exists_flattens_body h (complete_of_fits h hA)
  obtain rfl := Flattens.unique P hgs hgs'
  have hcallees : (F.counted.map fun c ↦ stored (s.info c.qFunc).gates _All)
      = F.counted.map fun c ↦ total (P.profile c.qFunc) _All :=
    List.map_congr_left fun c hc ↦ hs.stored_info h hA hc _All
  have hle := stored_infoOf_le (t := s.info) F.counted _All
  rw [hcount, htotal, sum_counted, hcallees] at hle
  refine ⟨by rw [hcount, htotal, sum_counted, hcallees]; omega, fun c hc hcallee ↦ ?_⟩
  by_contra hnot
  have hmem : c ∈ F.body.filter fun c ↦ !c.counts := List.mem_filter.mpr ⟨hc, by simpa using hnot⟩
  have hpos := P.total_profile_pos hcallee
  have hsum := List.le_sum_of_mem
    (List.mem_map.mpr ⟨c, hmem, rfl⟩ : total (P.profile c.qFunc) _All ∈
      (F.body.filter fun c ↦ !c.counts).map fun c ↦ total (P.profile c.qFunc) _All)
  omega

theorem fits_of_rightAt (h : P.order = A ++ F :: B) (hF : F.name ≠ main) (hA : ∀ G ∈ A, Fits P G)
    (hright : RightAt P A F) : Fits P F := by
  obtain ⟨s, s', t, x, hs, hs', ht, hx, hinfoRight, -⟩ := hright
  obtain ⟨s₁, hs₁, hready⟩ := exists_run h hA
  obtain rfl := Except.ok.inj (hs₁.symm.trans hs)
  -- the run gets through, so no call has too many arguments
  have hargs : ∀ c ∈ F.counted, c.args.length ≤ MAX_GATE_ARGS := by
    obtain ⟨r, hr, -⟩ := bind_eq_ok.mp hs'
    exact args_le_of_ok hr
  obtain ⟨s₂, hs₂, hinfo, hmax⟩ := hready.count h hF hargs
  obtain rfl := Except.ok.inj (hs₂.symm.trans hs')
  obtain rfl : t = infoOf s₁.info F.counted := by
    rw [hinfo, Function.update_self] at ht
    exact (Option.some.inj ht).symm
  -- all gates are there, so none was passed over and no profile was cut
  obtain ⟨gs, hgs, hcount⟩ := hinfoRight.gates
  obtain ⟨hall, hcounts⟩ := hready.counts_of_gates h hA hgs (hcount _All)
  have hmerged : ∀ d ∈ stepsOf F.counted, 1 < d.length →
      ∀ c ∈ d, (P.profile c.qFunc).length < 2 ^ 32 := by
    intro d hd hlen c hc
    have hpos : ∀ c ∈ F.counted, ∀ e ∈ (s₁.info c.qFunc).gates, 0 < (e _All).toNat := by
      intro c hc e he
      rw [(hready.known h hc).gates] at he
      obtain ⟨e, hmem, rfl⟩ := List.mem_map.mp he
      rw [toNat_words (entries_callee h hA hc e hmem _All)]
      exact P.pos_of_mem_profile c.qFunc e hmem
    have hlt := length_lt_of_stored_infoOf hpos hall d hd hlen c hc
    rwa [(hready.known h (mem_of_mem_stepsOf hd hc)).gates, List.length_map] at hlt
  have hstores : Stores (P.profile F.name) (infoOf s₁.info F.counted)
      (maxInfoOf s₁.info s₁.maxInfo F.counted) := by
    rw [P.profile_eq h]
    exact stores_infoOf (fun c hc ↦ hready.known h hc) hmerged
  obtain ⟨gs', hgs', htotal⟩ := complete_of_counts h (complete_of_fits h hA) hcounts
  obtain rfl := Flattens.unique P hgs hgs'
  refine ⟨hcounts, hargs, hmerged, ?_, fun e he k ↦ ?_⟩
  · have hlength := hinfoRight.length
    rw [hstores.gates, List.length_map] at hlength
    rw [hlength]
    exact UInt64.toNat_lt _
  · refine entries_of_total_le ?_ e he
    rw [← hstores.gates, hcount, htotal]

theorem fits_of_profilesRight (hright : P.ProfilesRight) :
    ∀ F ∈ P.order, F.name ≠ main → Fits P F := by
  refine P.forall_of_earlier fun A F B h hA hF ↦ fits_of_rightAt h hF (fun G hG ↦ ?_)
    (hright A F B h hF)
  exact hA G hG (name_ne_main h hG)

/-- **When the pass is right about all functions but `main`.** -/
theorem profilesRight_iff (P : Program) :
    P.ProfilesRight ↔ ∀ F ∈ P.order, F.name ≠ main → Fits P F := by
  constructor
  · exact fits_of_profilesRight
  · intro hfits A F B h hF
    refine rightAt_of_fits h hF (fun G hG ↦ ?_)
      (hfits F (h ▸ List.mem_append_right _ List.mem_cons_self) hF)
    exact hfits G (h ▸ List.mem_append_left _ hG) (name_ne_main h hG)

/-! ## A function that is called without a qubit -/

/-- A function `local` with an array of its own, which a function `work` calls. -/
def localOrder : List Func :=
  [⟨"local".toList, [⟨intrinsic _X, [some ⟨"a".toList, 0⟩]⟩]⟩,
    ⟨"work".toList, [⟨"local".toList, []⟩, ⟨intrinsic _X, [some ⟨"q".toList, 0⟩]⟩]⟩,
    ⟨main, [⟨"work".toList, [some ⟨"q".toList, 0⟩]⟩]⟩]

theorem getElem?_of_eq_append {order : List Func} (h : order = A ++ F :: B) :
    order[A.length]? = some F ∧ order.take A.length = A ∧ order.drop (A.length + 1) = B := by
  subst h
  simp

/-- The module of these functions. -/
def callsLocal : Program where
  order := localOrder
  nodup := by decide
  not_gate := by decide
  callees A F B h c hc hmem := by
    have hall : ∀ k < 3, ∀ G ∈ localOrder[k]?, ∀ c ∈ G.body, c.qFunc ∈ localOrder.map Func.name →
        c.qFunc ∈ (localOrder.take k).map Func.name := by decide
    obtain ⟨hget, htake, -⟩ := getElem?_of_eq_append h
    have hk : A.length < 3 := (List.getElem?_eq_some_iff.mp hget).1
    have hbefore := hall A.length hk F hget c hc hmem
    rwa [htake] at hbefore
  root_last A F B h hF := by
    have hall : ∀ k < 3, ∀ G ∈ localOrder[k]?, G.name = main → localOrder.drop (k + 1) = [] := by
      decide
    obtain ⟨hget, -, hdrop⟩ := getElem?_of_eq_append h
    have hk : A.length < 3 := (List.getElem?_eq_some_iff.mp hget).1
    rw [← hdrop]
    exact hall A.length hk F hget hF
  closed := by decide
  quantum := by decide

/-- The gate of `local` is missing in the profile of `work`. -/
theorem not_profilesRight_callsLocal : ¬ callsLocal.ProfilesRight := by
  intro hright
  have hfits := fits_of_profilesRight hright
    ⟨"work".toList, [⟨"local".toList, []⟩, ⟨intrinsic _X, [some ⟨"q".toList, 0⟩]⟩]⟩
    (by decide) (by decide)
  have hcounts := hfits.counts ⟨"local".toList, []⟩ (by decide) (.inl (by decide))
  exact absurd hcounts (by decide)

end ScaffCC.CriticalResourceCount
