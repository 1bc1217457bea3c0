import ScaffCC.Resource.Critical

/-!
# Critical timesteps of one function

The calls of a function fall into steps, greedily: `Scheduling.Greedy` with shared operands as
conflicts. What the pass keeps after some calls is a function of these steps, `stateAt`, and so is
what it stores for the function, `infoOf` and `maxInfoOf`. Both hold for any profiles of the
callees.
-/

open Scheduling Fallible

namespace ScaffCC.CriticalResourceCount

/-- A call has an argument in common with another one. -/
def Call.shares (c d : Call) : Bool := c.args.any fun a ↦ d.args.any a.meets

def Func.counted (F : Func) : List Call := F.body.filter Call.counts

/-- The steps of a list of calls. -/
def stepsOf (cs : List Call) : List (List Call) := (Greedy.run Call.shares cs).steps

section Described

variable (t : Ident → TSInfo) (x : Ident → MaxTSInfo)

def stepInfo : List Call → TSInfo
  | [c] => t c.qFunc
  | cs => cs.foldl (fun sum_info c ↦ sum_info.add (t c.qFunc)) ⟨0, []⟩

/-- The greatest numbers once a step is over. -/
def stepMax (m : TSParGateInfo) : List Call → TSParGateInfo
  | [c] => raise m (x c.qFunc).parallel_gates
  | cs => (stepInfo t cs).gates.foldl raise m

/-- The number of timesteps of some steps. -/
def timestepsOf (ds : List (List Call)) : UInt64 :=
  ds.foldl (fun n d ↦ n + (stepInfo t d).timesteps) 0

/-- The timesteps of some steps. -/
def gatesOf (ds : List (List Call)) : List TSParGateInfo := ds.flatMap fun d ↦ (stepInfo t d).gates

/-- The greatest numbers of some steps. -/
def maxOf (ds : List (List Call)) : TSParGateInfo := ds.foldl (stepMax t x) fun _ ↦ 0

/-- The state after some calls of a function. -/
def stateAt (F : Ident) (s : State) (g : Greedy Call) : State where
  currTimeStep := g.current.flatMap Call.args
  currParallelFunc := g.current.map Call.qFunc
  maxParallelFactor := ⟨timestepsOf t g.done, maxOf t x g.done⟩
  funcParallelFactor :=
    Function.update s.funcParallelFactor F (some ⟨0, gatesOf t g.done⟩)
  funcMaxParallelFactor :=
    Function.update s.funcMaxParallelFactor F (some ⟨0, fun _ ↦ 0⟩)

/-- What is stored of a function with the given calls. -/
def infoOf (cs : List Call) : TSInfo := ⟨timestepsOf t (stepsOf cs), gatesOf t (stepsOf cs)⟩

/-- What is stored of the greatest numbers. -/
def maxInfoOf (cs : List Call) : MaxTSInfo :=
  ⟨timestepsOf t (stepsOf cs), maxOf t x (stepsOf cs)⟩

end Described

/-- What is called is known, and is not the function itself. -/
def Served (t : Ident → TSInfo) (x : Ident → MaxTSInfo) (F : Ident) (s : State) (c : Call) : Prop :=
  c.qFunc ≠ F ∧ s.funcParallelFactor c.qFunc = some (t c.qFunc) ∧
    s.funcMaxParallelFactor c.qFunc = some (x c.qFunc)

variable {t : Ident → TSInfo} {x : Ident → MaxTSInfo} {F : Ident} {s : State} {g : Greedy Call}
  {c : Call} {cs : List Call}

theorem find_of_eq {α : Type} {m : Ident → Option α} {n : Ident} {a : α} (h : m n = some a) :
    find m n = .ok a := by
  rw [find, h]

theorem find_update_self {α : Type} (m : Ident → Option α) (n : Ident) (a : α) :
    find (Function.update m n (some a)) n = .ok a :=
  find_of_eq (Function.update_self n (some a) m)

theorem Served.find_info (h : Served t x F s c) :
    find (stateAt t x F s g).funcParallelFactor c.qFunc = .ok (t c.qFunc) :=
  find_of_eq ((Function.update_of_ne h.1 _ _).trans h.2.1)

theorem Served.find_maxInfo (h : Served t x F s c) :
    find (stateAt t x F s g).funcMaxParallelFactor c.qFunc = .ok (x c.qFunc) :=
  find_of_eq ((Function.update_of_ne h.1 _ _).trans h.2.2)

/-! ## One step -/

theorem timestepsOf_append (ds : List (List Call)) (d : List Call) :
    timestepsOf t (ds ++ [d]) = timestepsOf t ds + (stepInfo t d).timesteps := by
  rw [timestepsOf, List.foldl_append, List.foldl_cons, List.foldl_nil, ← timestepsOf]

theorem gatesOf_append (ds : List (List Call)) (d : List Call) :
    gatesOf t (ds ++ [d]) = gatesOf t ds ++ (stepInfo t d).gates := by
  rw [gatesOf, List.flatMap_append, List.flatMap_singleton, ← gatesOf]

theorem maxOf_append (ds : List (List Call)) (d : List Call) :
    maxOf t x (ds ++ [d]) = stepMax t x (maxOf t x ds) d := by
  rw [maxOf, List.foldl_append, List.foldl_cons, List.foldl_nil, ← maxOf]

/-- The state when the step is over, and its calls are still there. -/
def overAt (t : Ident → TSInfo) (x : Ident → MaxTSInfo) (F : Ident) (s : State)
    (g : Greedy Call) : State :=
  { stateAt t x F s ⟨g.done ++ [g.current], []⟩ with
    currTimeStep := g.current.flatMap Call.args
    currParallelFunc := g.current.map Call.qFunc }

theorem append_stateAt (hF : F ≠ main) (gates : List TSParGateInfo) :
    (stateAt t x F s g).append F gates = .ok { stateAt t x F s g with
      funcParallelFactor :=
        Function.update s.funcParallelFactor F (some ⟨0, gatesOf t g.done ++ gates⟩) } := by
  have hfind : find (stateAt t x F s g).funcParallelFactor F = .ok ⟨0, gatesOf t g.done⟩ :=
    find_update_self _ F _
  rw [State.append, if_neg hF, hfind]
  simp only [stateAt, Function.update_idem]
  rfl

theorem sumInfo_stateAt (h : ∀ c ∈ cs, Served t x F s c) (sum_info : TSInfo) :
    (cs.map Call.qFunc).foldlM (fun sum_info n ↦ do
        return sum_info.add (← find (stateAt t x F s g).funcParallelFactor n)) sum_info
      = .ok (cs.foldl (fun sum_info c ↦ sum_info.add (t c.qFunc)) sum_info) := by
  induction cs generalizing sum_info with
  | nil => rfl
  | cons c cs ih =>
    obtain ⟨hc, hcs⟩ := List.forall_mem_cons.mp h
    rw [List.map_cons, List.foldlM_cons, hc.find_info]
    exact ih hcs (sum_info.add (t c.qFunc))

theorem overAt_eq : overAt t x F s g = { stateAt t x F s g with
    maxParallelFactor :=
      ⟨timestepsOf t g.done + (stepInfo t g.current).timesteps,
        stepMax t x (maxOf t x g.done) g.current⟩
    funcParallelFactor := Function.update s.funcParallelFactor F
      (some ⟨0, gatesOf t g.done ++ (stepInfo t g.current).gates⟩) } := by
  rw [overAt, stateAt, timestepsOf_append, gatesOf_append, maxOf_append]
  rfl

theorem update_stateAt (hF : F ≠ main) (hne : g.current ≠ [])
    (h : ∀ c ∈ g.current, Served t x F s c) :
    update_max_critical_info F (stateAt t x F s g) = .ok (overAt t x F s g) := by
  have hcur : (stateAt t x F s g).currParallelFunc = g.current.map Call.qFunc := rfl
  rw [update_max_critical_info, hcur, overAt_eq]
  match hg : g.current with
  | [] => exact absurd hg hne
  | [c] =>
    have hc : Served t x F s c := h c (by rw [hg]; exact List.mem_singleton.mpr rfl)
    exact bind_eq_ok.mpr ⟨_, hc.find_info, bind_eq_ok.mpr ⟨_, append_stateAt hF _,
      bind_eq_ok.mpr ⟨_, hc.find_maxInfo (g := g), rfl⟩⟩⟩
  | c :: d :: cs =>
    rw [hg] at h
    exact bind_eq_ok.mpr ⟨_, sumInfo_stateAt h ⟨0, []⟩,
      bind_eq_ok.mpr ⟨_, append_stateAt hF _, rfl⟩⟩

theorem reset_overAt : reset_current_ts_info (overAt t x F s g)
    = stateAt t x F s ⟨g.done ++ [g.current], []⟩ := rfl

/-! ## One call -/

theorem any_currTimeStep (c : Call) :
    ((stateAt t x F s g).currTimeStep.any fun a ↦ c.args.any a.meets)
      = g.current.any (Call.shares · c) := by
  show (g.current.flatMap Call.args).any _ = _
  rw [List.any_flatMap]
  rfl

theorem stateAt_join (g : Greedy Call) (c : Call) :
    { stateAt t x F s g with
      currTimeStep := (stateAt t x F s g).currTimeStep ++ c.args
      currParallelFunc := (stateAt t x F s g).currParallelFunc ++ [c.qFunc] }
      = stateAt t x F s ⟨g.done, g.current ++ [c]⟩ := by
  simp [stateAt]

theorem calc_stateAt (hF : F ≠ main) (h : ∀ d ∈ g.current, Served t x F s d)
    (hc : Served t x F s c) :
    calc_critical_time F (stateAt t x F s g) c = .ok (stateAt t x F s (g.add Call.shares c)) := by
  rw [calc_critical_time]
  simp only [any_currTimeStep]
  rw [Greedy.add]
  by_cases hany : g.current.any (Call.shares · c) = true
  · have hne : g.current ≠ [] := by
      intro hnil
      rw [hnil] at hany
      exact Bool.false_ne_true hany
    rw [if_pos hany, if_pos hany]
    refine bind_eq_ok.mpr ⟨_, bind_eq_ok.mpr ⟨_, update_stateAt hF hne h, rfl⟩, ?_⟩
    rw [reset_overAt]
    refine bind_eq_ok.mpr ⟨_, hc.find_info, ?_⟩
    exact congrArg Except.ok (stateAt_join ⟨g.done ++ [g.current], []⟩ c)
  · rw [if_neg hany, if_neg hany]
    refine bind_eq_ok.mpr ⟨_, rfl, bind_eq_ok.mpr ⟨_, hc.find_info, ?_⟩⟩
    exact congrArg Except.ok (stateAt_join g c)

/-! ## A function -/

theorem mem_of_mem_current_run {c : Call} (h : c ∈ (Greedy.run Call.shares cs).current) :
    c ∈ cs := by
  have hmem : c ∈ (Greedy.run Call.shares cs).steps.flatten :=
    List.mem_flatten.mpr ⟨_, List.mem_append_right _ (List.mem_singleton.mpr rfl), h⟩
  rwa [Greedy.flatten_steps_run] at hmem

/-- **The state after some calls of a function.** -/
theorem foldlM_analyzeCallInst (hF : F ≠ main) {body : List Call}
    (hargs : ∀ c ∈ body.filter Call.counts, c.args.length ≤ MAX_GATE_ARGS)
    (h : ∀ c ∈ body.filter Call.counts, Served t x F s c) :
    body.foldlM (analyzeCallInst F) (init_critical_path_algo F s)
      = .ok (stateAt t x F s (Greedy.run Call.shares (body.filter Call.counts))) := by
  induction body using List.reverseRecOn with
  | nil => rfl
  | append_singleton body c ih =>
    rw [List.filter_append] at hargs h ⊢
    have hpre := ih (fun d hd ↦ hargs d (List.mem_append_left _ hd))
      (fun d hd ↦ h d (List.mem_append_left _ hd))
    rw [List.foldlM_append, hpre]
    show [c].foldlM (analyzeCallInst F) (stateAt t x F s _) = _
    by_cases hc : c.counts = true
    · have hmem : c ∈ body.filter Call.counts ++ [c].filter Call.counts := by simp [hc]
      rw [List.foldlM_cons, analyzeCallInst, if_pos hc, if_neg (not_lt.mpr (hargs c hmem)),
        calc_stateAt hF (fun d hd ↦ h d (List.mem_append_left _ (mem_of_mem_current_run hd)))
          (h c hmem), List.filter_cons_of_pos hc, List.filter_nil, Greedy.run_append_singleton]
      rfl
    · rw [List.foldlM_cons, analyzeCallInst, if_neg hc, List.filter_cons_of_neg hc,
        List.filter_nil, List.append_nil]
      rfl

theorem args_le_of_ok {body : List Call} {s' : State}
    (h : body.foldlM (analyzeCallInst F) s = .ok s') :
    ∀ c ∈ body.filter Call.counts, c.args.length ≤ MAX_GATE_ARGS := by
  induction body generalizing s with
  | nil => exact List.forall_mem_nil _
  | cons c body ih =>
    rw [List.foldlM_cons, bind_eq_ok] at h
    obtain ⟨s₁, hs₁, h⟩ := h
    intro d hd
    obtain ⟨hmem, hcounts⟩ := List.mem_filter.mp hd
    rcases List.mem_cons.mp hmem with rfl | hmem
    · by_contra hlt
      rw [analyzeCallInst, if_pos hcounts, if_pos (not_le.mp hlt)] at hs₁
      cases hs₁
    · exact ih h d (List.mem_filter.mpr ⟨hmem, hcounts⟩)

/-- **What is stored for a function.** -/
theorem CountCriticalFunctionResources_eq {F : Func} (hF : F.name ≠ main) (hne : F.counted ≠ [])
    (hargs : ∀ c ∈ F.counted, c.args.length ≤ MAX_GATE_ARGS)
    (h : ∀ c ∈ F.counted, Served t x F.name s c) :
    ∃ s', CountCriticalFunctionResources s F = .ok s' ∧
      s'.funcParallelFactor
        = Function.update s.funcParallelFactor F.name (some (infoOf t F.counted)) ∧
      s'.funcMaxParallelFactor
        = Function.update s.funcMaxParallelFactor F.name (some (maxInfoOf t x F.counted)) := by
  have hupdate := update_stateAt hF (Greedy.current_run_ne_nil hne)
    (fun c hc ↦ h c (mem_of_mem_current_run hc))
  exact ⟨_, bind_eq_ok.mpr ⟨_, foldlM_analyzeCallInst hF hargs h, bind_eq_ok.mpr ⟨_, hupdate,
    bind_eq_ok.mpr ⟨_, bind_eq_ok.mpr ⟨_, find_update_self _ _ _, rfl⟩,
      bind_eq_ok.mpr ⟨_, bind_eq_ok.mpr ⟨_, find_update_self _ _ _, rfl⟩, rfl⟩⟩⟩⟩,
    Function.update_idem _ _ _, Function.update_idem _ _ _⟩

end ScaffCC.CriticalResourceCount
