import ScaffCC.GenSimd.Modular

/-!
# What the schedule of a function depends on

The moves and the timesteps with moves of the functions before are not set back. What is saved for a
function is what its own schedule has, and with it what was left: after a function this is what was
saved for it. All else that is saved depends on the function and on what is known of the functions
it calls.

A run from what was left and one from nothing are compared call by call. In a leaf function the
moves stay as they are. In any other function the first call starts a batch, so that what was left
goes to the batches that are full, and it stays there.
-/

open Scheduling Fallible

namespace ScaffCC.GenSimd.Cg

open CriticalPath (Inst Func FuncQbits compute_max_ts_of_all_args update_timesteps find_map set_map
  set_entry set_top entry asserted assert unchecked)

/-! ## What is left -/

/-- The moves and the timesteps with moves in a schedule. -/
def Sched.left (b : Sched) : ℕ × ℕ :=
  (add64 b.totalSched.moves b.currSched.moves, add64 b.totalSched.mts b.currSched.mts)

/-- Moves and timesteps with moves are added to what is known. -/
def ModularInfo.addLeft (l : ℕ × ℕ) (m : ModularInfo) : ModularInfo :=
  { m with moves := add64 l.1 m.moves, mts := add64 l.2 m.mts }

def Sched.withMoves (b t : Sched) : Sched where
  totalSched := { t.totalSched with moves := b.totalSched.moves, mts := b.totalSched.mts }
  currSched := { t.currSched with moves := b.currSched.moves, mts := b.currSched.mts }

/-- A schedule with more moves in the batches that are full. -/
def Sched.shift (l : ℕ × ℕ) (t : Sched) : Sched := ⟨t.totalSched.addLeft l, t.currSched⟩

/-- How the schedule of a function that started with what was left differs from the one that started
with nothing. -/
def Differ (b : Sched) : Bool → Sched → Sched → Prop
  | true, s, t => s = b.withMoves t ∧ t = Sched.zero.withMoves t
  | false, s, t => (s = init_critical_path_algo b ∧ t = .zero) ∨ s = t.shift b.left

/-- The states differ in the schedules only. -/
def DifferAt (b : Sched) (leaf : Bool) (s t : State) : Prop :=
  s = { t with sched := s.sched } ∧ Differ b leaf s.sched t.sched

variable {asserts : Bool} {C : Options} {funcInfo funcInfo' : Ident → Option ModularInfo} {K ts : ℕ}
  {leaf : Bool} {b t : Sched} {l : ℕ × ℕ} {m : ModularInfo} {x : Inst} {s s' : State}
  {S : PrioritySort} {F : Func} {name : Ident} {steps : List ArrParGates}

theorem add64_lt (a b : ℕ) : add64 a b < 2 ^ 64 := Nat.mod_lt _ (by norm_num)

theorem add64_assoc (a b c : ℕ) : add64 (add64 a b) c = add64 a (add64 b c) := by
  rw [add64, add64, add64, add64, Nat.mod_add_mod, Nat.add_mod_mod, Nat.add_assoc]

theorem add64_comm (a b : ℕ) : add64 a b = add64 b a := by rw [add64, add64, Nat.add_comm]

theorem add64_zero_add64 (a b : ℕ) : add64 0 (add64 a b) = add64 a b := by
  rw [add64, Nat.zero_add]
  exact Nat.mod_eq_of_lt (add64_lt a b)

theorem add64_left_inj {a b : ℕ} (n : ℕ) (ha : a < 2 ^ 64) (hb : b < 2 ^ 64) :
    add64 a n = add64 b n ↔ a = b := by
  rw [add64, add64]
  omega

@[simp] theorem left_init (b : Sched) : (init_critical_path_algo b).left = b.left := rfl

@[simp] theorem left_zero : Sched.zero.left = (0, 0) := rfl

theorem left_eq_blackbox_info (b : Sched) :
    b.left = ((blackbox_info b).moves, (blackbox_info b).mts) := rfl

/-! ## One call -/

theorem serialize_shift : (t.shift l).serialize m = (t.serialize m).shift l := by
  rw [Sched.serialize, Sched.serialize, Sched.shift, Sched.shift]
  simp only [ModularInfo.addLeft, add64_assoc]

/-- The first call moves what was left to the batches that are full. -/
theorem serialize_init : (init_critical_path_algo b).serialize m
    = (Sched.zero.serialize m).shift b.left := by
  have hzero : add64 0 0 = 0 := rfl
  have hleft : ∀ x y, add64 (add64 x y) 0 = add64 x y := fun x y ↦ by
    rw [add64_comm _ 0, add64_zero_add64]
  rw [Sched.serialize, Sched.serialize, Sched.shift]
  simp only [ModularInfo.addLeft, Sched.left, init_critical_path_algo, ModularInfo.reset,
    Sched.zero, ModularInfo.zero, hzero, hleft]

theorem get_ts_to_schedule_shift :
    get_ts_to_schedule K ts m (t.shift l)
      = ((get_ts_to_schedule K ts m t).1, (get_ts_to_schedule K ts m t).2.shift l) := by
  rw [get_ts_to_schedule, get_ts_to_schedule, serialize_shift]
  have hlength : (t.shift l).totalSched.length = t.totalSched.length := rfl
  have hcurr : (t.shift l).currSched = t.currSched := rfl
  rw [hlength, hcurr]
  by_cases h : ts < add64 t.totalSched.length t.currSched.length ∧
      add64 m.width t.currSched.width ≤ K
  · rw [if_pos h, if_pos h]
    rfl
  · rw [if_neg h, if_neg h]
    rfl

theorem get_ts_to_schedule_init :
    get_ts_to_schedule K ts m (init_critical_path_algo b)
      = ((get_ts_to_schedule K ts m .zero).1,
        (get_ts_to_schedule K ts m .zero).2.shift b.left) := by
  -- a schedule of length zero has no room
  have hempty : ∀ b' : Sched, b'.totalSched.length = 0 → b'.currSched.length = 0 →
      ¬ (ts < add64 b'.totalSched.length b'.currSched.length ∧
        add64 m.width b'.currSched.width ≤ K) := by
    intro b' htotal hcurr h
    rw [htotal, hcurr] at h
    exact Nat.not_lt_zero ts h.1
  rw [get_ts_to_schedule, get_ts_to_schedule, serialize_init]
  dsimp only
  rw [if_neg (hempty _ rfl rfl), if_neg (hempty _ rfl rfl)]
  rfl

theorem get_ts_to_schedule_leaf_withMoves (asserts : Bool) (C : Options) (ts : ℕ) (name : Ident)
    (steps : List ArrParGates) (b t : Sched) :
    get_ts_to_schedule_leaf asserts C ts name steps (b.withMoves t)
      = (get_ts_to_schedule_leaf asserts C ts name steps t).map
          fun r ↦ (r.1, r.2.1, b.withMoves r.2.2) := by
  rw [get_ts_to_schedule_leaf, get_ts_to_schedule_leaf]
  cases funcIndex name with
  | none => cases asserts <;> rfl
  | some type =>
    dsimp only [asserted, bind, Except.bind]
    cases search C.DATA_CONSTRAINT type ts
        (steps.map fun step ↦ step.take C.RES_CONSTRAINT) with
    | some x => rfl
    | none =>
      dsimp only
      by_cases hres : C.RES_CONSTRAINT ≤ MAX_RES_CONSTRAINT
      · rw [if_pos hres]
        rfl
      · rw [if_neg hres]
        rfl

theorem alike_place (h : DifferAt b leaf s s') :
    Alike (fun r r' ↦ r.1 = r'.1 ∧ DifferAt b leaf r.2 r'.2)
      (place asserts C funcInfo leaf ts x s) (place asserts C funcInfo leaf ts x s') := by
  obtain ⟨hs, hdiffer⟩ := h
  rw [hs]
  cases leaf with
  | true =>
    cases x with
    | call f ops => exact alike_error _
    | gate g =>
      obtain ⟨hb, hzero⟩ := hdiffer
      have hrun := get_ts_to_schedule_leaf_withMoves asserts C ts (fname g) s'.currArrParGates b
        s'.sched
      have hrun' := get_ts_to_schedule_leaf_withMoves asserts C ts (fname g) s'.currArrParGates
        .zero s'.sched
      rw [← hzero] at hrun'
      rw [← hb] at hrun
      simp only [place, hrun]
      cases hr : get_ts_to_schedule_leaf asserts C ts (fname g) s'.currArrParGates s'.sched with
      | error e => exact alike_error e
      | ok r =>
        rw [hr] at hrun'
        have hmoves : r.2.2 = Sched.zero.withMoves r.2.2 :=
          congrArg (fun r ↦ r.2.2) (Except.ok.inj hrun')
        exact alike_ok ⟨rfl, rfl, rfl, hmoves⟩
  | false =>
    simp only [place]
    refine (alike_self (asserted asserts (moduleInfo C funcInfo x))).bind ?_
    rintro m _ rfl
    refine alike_ok ?_
    rcases hdiffer with ⟨hb, hzero⟩ | hb
    · rw [hb, hzero, get_ts_to_schedule_init]
      exact ⟨rfl, rfl, .inr rfl⟩
    · rw [hb, get_ts_to_schedule_shift]
      exact ⟨rfl, rfl, .inr rfl⟩

/-- **The step.** A call is placed at the same timestep in both runs. -/
theorem alike_calc_critical_time (h : DifferAt b leaf s s') :
    Alike (DifferAt b leaf) (calc_critical_time asserts C funcInfo leaf s x)
      (calc_critical_time asserts C funcInfo leaf s' x) := by
  have hfields : s.funcQbits = s'.funcQbits ∧ s.isFirstMeas = s'.isFirstMeas := by
    rw [h.1]
    exact ⟨rfl, rfl⟩
  rw [calc_critical_time, calc_critical_time, hfields.1, hfields.2]
  cases x.args with
  | nil => exact alike_ok h
  | cons q qs =>
    dsimp only
    split_ifs with hmeas
    · rw [first_measurement, first_measurement, hfields.1]
      refine (alike_place h).bind fun r r' hr ↦ ?_
      obtain ⟨hts, hstate⟩ := hr
      dsimp only
      rw [hts]
      have hqbits : r.2.funcQbits = r'.2.funcQbits := by rw [hstate.1]
      rw [hqbits]
      refine (alike_self _).bind ?_
      rintro c _ rfl
      refine (alike_self _).bind ?_
      rintro _ _ -
      refine (alike_self _).bind ?_
      rintro _ _ -
      exact alike_ok ⟨by rw [hstate.1], hstate.2⟩
    · refine (alike_self _).bind ?_
      rintro ⟨T, n⟩ _ rfl
      have hT : DifferAt b leaf { s with funcQbits := T, isFirstMeas := s'.isFirstMeas }
          { s' with funcQbits := T } := ⟨by rw [h.1], h.2⟩
      refine (alike_place hT).bind fun r r' hr ↦ ?_
      obtain ⟨hts, hstate⟩ := hr
      refine alike_ok ⟨?_, hstate.2⟩
      rw [hts, hstate.1]

/-! ## A function -/

theorem blackbox_info_differ {t' : Sched} (h : Differ b leaf t t') :
    blackbox_info t = (blackbox_info t').addLeft b.left := by
  have hzero : add64 0 0 = 0 := rfl
  have hleft : ∀ x y, add64 (add64 x y) 0 = add64 x y := fun x y ↦ by
    rw [add64_comm _ 0, add64_zero_add64]
  cases leaf with
  | true =>
    obtain ⟨hb, hmoves⟩ := h
    rw [hb, hmoves]
    simp only [blackbox_info, ModularInfo.addLeft, Sched.left, Sched.withMoves, Sched.zero,
      ModularInfo.zero, hzero, hleft]
  | false =>
    rcases h with ⟨rfl, rfl⟩ | rfl
    · simp only [blackbox_info, ModularInfo.addLeft, Sched.left, init_critical_path_algo,
        ModularInfo.reset, Sched.zero, ModularInfo.zero, hzero, hleft]
    · simp only [blackbox_info, ModularInfo.addLeft, Sched.shift, add64_assoc]

theorem differ_init (b : Sched) (leaf : Bool) :
    Differ b leaf (init_critical_path_algo b) .zero := by
  cases leaf with
  | true => exact ⟨rfl, rfl⟩
  | false => exact .inl ⟨rfl, rfl⟩

/-- **What is saved** is what the schedule of the function has on its own, and what was left. -/
theorem alike_schedule (asserts : Bool) (C : Options) (funcInfo : Ident → Option ModularInfo)
    (S : PrioritySort) (F : Func) (b : Sched) :
    Alike (fun s s' ↦ blackbox_info s.sched = (blackbox_info s'.sched).addLeft b.left)
      (schedule asserts C funcInfo S F (init_critical_path_algo b))
      (schedule asserts C funcInfo S F .zero) := by
  have hrun : Alike (DifferAt b (hasPrimitivesOnly F))
      (schedule asserts C funcInfo S F (init_critical_path_algo b))
      (schedule asserts C funcInfo S F .zero) := by
    rw [schedule, schedule]
    refine (alike_self _).bind ?_
    rintro ⟨T, insts⟩ _ rfl
    refine Alike.foldlM (fun s s' hs inst _ ↦ ?_) ⟨rfl, differ_init b _⟩
    refine (alike_self _).bind ?_
    rintro x _ rfl
    exact alike_calc_critical_time hs
  rcases hrun with herror | ⟨s, s', hs, hs', hdiffer⟩
  · exact .inl herror
  · exact .inr ⟨s, s', hs, hs', blackbox_info_differ hdiffer.2⟩

/-- The functions that a function calls. -/
def callees (F : Func) : List Ident := F.body.filterMap fun
  | .gate _ => none
  | .call qFunc _ => some qFunc

/-- Only what is known of the called functions is used. -/
theorem schedule_congr (h : ∀ f ∈ callees F, funcInfo f = funcInfo' f) :
    schedule asserts C funcInfo S F b = schedule asserts C funcInfo' S F b := by
  have hinfo : ∀ x ∈ F.body, moduleInfo C funcInfo x = moduleInfo C funcInfo' x := by
    intro x hx
    cases x with
    | gate g => rfl
    | call f ops => exact h f (List.mem_filterMap.mpr ⟨_, hx, rfl⟩)
  have hplace : ∀ x ∈ F.body, ∀ leaf ts s,
      place asserts C funcInfo leaf ts x s = place asserts C funcInfo' leaf ts x s := by
    intro x hx leaf ts s
    cases leaf with
    | true => cases x <;> rfl
    | false => simp only [place, hinfo x hx]
  have hstep : (fun s (inst : InstPri) ↦ asserted asserts F.body[inst.1]? >>=
        calc_critical_time asserts C funcInfo (hasPrimitivesOnly F) s)
      = fun s inst ↦ asserted asserts F.body[inst.1]? >>=
        calc_critical_time asserts C funcInfo' (hasPrimitivesOnly F) s := by
    funext s inst
    cases hget : F.body[inst.1]? with
    | none => cases asserts <;> rfl
    | some x =>
      have hx := List.mem_of_getElem? hget
      simp only [asserted, bind, Except.bind, calc_critical_time, first_measurement, hplace x hx]
  rw [schedule, schedule, hstep]

/-! ## The pass -/

variable {fileContents : Ident → Option ModularInfo} {p p' q : PassState} {G : Ident × Func}
  {Fs Gs : List (Ident × Func)}

/-- What the schedule of a function has on its own. -/
def ownInfo (asserts : Bool) (C : Options) (S : PrioritySort) (p : PassState) (F : Func) :
    Except Failure ModularInfo :=
  (schedule asserts C p.funcInfo S F .zero).map fun s ↦ blackbox_info s.sched

theorem funcInfo_of_step (hfile : fileContents G.1 = none)
    (h : CountCriticalFunctionResources asserts C S fileContents p G = .ok p') :
    ∃ m, ownInfo asserts C S p G.2 = .ok m ∧
      p'.funcInfo G.1 = some (m.addLeft p.sched.left) := by
  rw [CountCriticalFunctionResources, hfile] at h
  obtain ⟨r, hr, hp⟩ := bind_eq_ok.mp h
  cases hp
  rcases alike_schedule asserts C p.funcInfo S G.2 p.sched with
    ⟨e, he, -⟩ | ⟨s, s', hs, hs', hinfo⟩
  · rw [hr] at he
    cases he
  · rw [hr] at hs
    cases hs
    refine ⟨_, by rw [ownInfo, hs']; rfl, ?_⟩
    rw [← hinfo]
    exact Function.update_self ..

theorem funcInfo_of_file (hfile : fileContents G.1 = some m)
    (h : CountCriticalFunctionResources asserts C S fileContents p G = .ok p') :
    p'.funcInfo G.1 = some m := by
  rw [CountCriticalFunctionResources, hfile] at h
  obtain ⟨r, -, hp⟩ := bind_eq_ok.mp h
  cases hp
  exact Function.update_self ..

theorem addLeft_inj {l l' : ℕ × ℕ} (hl : l.1 < 2 ^ 64 ∧ l.2 < 2 ^ 64)
    (hl' : l'.1 < 2 ^ 64 ∧ l'.2 < 2 ^ 64) : m.addLeft l = m.addLeft l' ↔ l = l' := by
  constructor
  · intro h
    refine Prod.ext ?_ ?_
    · exact (add64_left_inj _ hl.1 hl'.1).mp (congrArg ModularInfo.moves h)
    · exact (add64_left_inj _ hl.2 hl'.2).mp (congrArg ModularInfo.mts h)
  · rintro rfl
    rfl

theorem left_lt (b : Sched) : b.left.1 < 2 ^ 64 ∧ b.left.2 < 2 ^ 64 :=
  ⟨add64_lt _ _, add64_lt _ _⟩

/-- What a function leaves: the moves that were saved for it, unless its schedule is in the file. -/
theorem left_of_step (h : CountCriticalFunctionResources asserts C S fileContents p G = .ok p') :
    ((fileContents G.1).isSome ∧ p'.sched.left = p.sched.left) ∨
      ∃ m, p'.funcInfo G.1 = some m ∧ p'.sched.left = (m.moves, m.mts) := by
  rw [CountCriticalFunctionResources] at h
  cases hfile : fileContents G.1 with
  | some m =>
    rw [hfile] at h
    obtain ⟨_, -, hp⟩ := bind_eq_ok.mp h
    cases hp
    exact .inl ⟨rfl, left_init p.sched⟩
  | none =>
    rw [hfile] at h
    obtain ⟨r, -, hp⟩ := bind_eq_ok.mp h
    cases hp
    exact .inr ⟨_, Function.update_self .., left_eq_blackbox_info r.sched⟩

theorem runOnModule_concat : runOnModule asserts C S fileContents (Fs ++ [G]) = .ok p' ↔
    ∃ p, runOnModule asserts C S fileContents Fs = .ok p ∧
      CountCriticalFunctionResources asserts C S fileContents p G = .ok p' := by
  rw [runOnModule, foldlM_append_eq_ok]
  refine exists_congr fun p ↦ and_congr_right fun _ ↦ ?_
  rw [List.foldlM_cons, bind_eq_ok]
  constructor
  · rintro ⟨p₁, hp₁, ⟨⟩⟩
    exact hp₁
  · exact fun hp ↦ ⟨p', hp, rfl⟩

/-- After a run, what is left is what was saved for the last function whose schedule is not in the
file. -/
theorem left_of_run (h : runOnModule asserts C S fileContents Fs = .ok p) :
    ((∀ H ∈ Fs, (fileContents H.1).isSome) ∧ p.sched.left = (0, 0)) ∨
      ∃ pre H post r m, Fs = pre ++ H :: post ∧ (∀ H' ∈ post, (fileContents H'.1).isSome) ∧
        runOnModule asserts C S fileContents (pre ++ [H]) = .ok r ∧ r.funcInfo H.1 = some m ∧
        p.sched.left = (m.moves, m.mts) := by
  induction Fs using List.reverseRecOn generalizing p with
  | nil =>
    cases h
    exact .inl ⟨List.forall_mem_nil _, left_zero⟩
  | append_singleton Fs H ih =>
    obtain ⟨r, hr, hstep⟩ := runOnModule_concat.mp h
    rcases left_of_step hstep with ⟨hfile, hleft⟩ | ⟨m, hm, hleft⟩
    · have hlast : ∀ H' ∈ [H], (fileContents H'.1).isSome := List.forall_mem_singleton.mpr hfile
      rcases ih hr with ⟨hall, hzero⟩ | ⟨pre, H', post, r', m, rfl, hpost, hr', hm, hleft'⟩
      · exact .inl ⟨List.forall_mem_append.mpr ⟨hall, hlast⟩, hleft.trans hzero⟩
      · exact .inr ⟨pre, H', post ++ [H], r', m, by simp,
          List.forall_mem_append.mpr ⟨hpost, hlast⟩, hr', hm, hleft.trans hleft'⟩
    · exact .inr ⟨Fs, H, [], p, m, rfl, List.forall_mem_nil _, h, hm, hleft⟩

/-- **What is saved for a function** in two runs that agree on the functions it calls is the same if
and only if its schedule is in the file or what was left before is the same. -/
theorem funcInfo_eq_iff (hp : runOnModule asserts C S fileContents Fs = .ok p)
    (hq : runOnModule asserts C S fileContents Gs = .ok q)
    (hcallees : ∀ f ∈ callees G.2, p.funcInfo f = q.funcInfo f)
    (hp' : runOnModule asserts C S fileContents (Fs ++ [G]) = .ok p')
    (hq' : runOnModule asserts C S fileContents (Gs ++ [G]) = .ok q') :
    p'.funcInfo G.1 = q'.funcInfo G.1 ↔
      (fileContents G.1).isSome ∨ p.sched.left = q.sched.left := by
  obtain ⟨p₁, hp₁, hpstep⟩ := runOnModule_concat.mp hp'
  obtain ⟨q₁, hq₁, hqstep⟩ := runOnModule_concat.mp hq'
  obtain rfl : p = p₁ := Except.ok.inj (hp.symm.trans hp₁)
  obtain rfl : q = q₁ := Except.ok.inj (hq.symm.trans hq₁)
  cases hfile : fileContents G.1 with
  | some m =>
    rw [funcInfo_of_file hfile hpstep, funcInfo_of_file hfile hqstep]
    exact iff_of_true rfl (.inl rfl)
  | none =>
    obtain ⟨m, hm, hinfo⟩ := funcInfo_of_step hfile hpstep
    obtain ⟨m', hm', hinfo'⟩ := funcInfo_of_step hfile hqstep
    obtain rfl : m = m' := by
      rw [ownInfo, schedule_congr hcallees, ← ownInfo] at hm
      exact Except.ok.inj (hm.symm.trans hm')
    rw [hinfo, hinfo', Option.some.injEq, addLeft_inj (left_lt _) (left_lt _), Option.isSome_none,
      or_iff_right Bool.false_ne_true]

/-! ## Functions that come after others -/

def onQubit (body : List Inst) : Func := ⟨[("q".toList, some .qbit)], [], body⟩

def theQubit : CriticalPath.Operand := ⟨"q".toList, .qbit, some 0⟩

/-- A leaf function, and one that calls it before a gate. -/
def unrelated : List (Ident × Func) :=
  [("f".toList, onQubit [.gate (.gate1 .H theQubit)]),
    ("g".toList, onQubit [.call "f".toList [theQubit], .gate (.gate1 .H theQubit)])]

/-- Another leaf function. -/
def otherLeaf : Ident × Func := ("h".toList, onQubit [.gate (.gate1 .X theQubit)])

def Options.default : Options := ⟨⟨10, 1024⟩, 4⟩

/-- What is saved for the last function of a run. -/
def lastInfo (Fs : List (Ident × Func)) (G : Ident × Func) : Option ModularInfo :=
  (runOnModule true .default .stable (fun _ ↦ none) (Fs ++ [G])).toOption.bind
    fun p ↦ p.funcInfo G.1

theorem exists_of_lastInfo (h : lastInfo Fs G = some m) :
    ∃ p p', runOnModule true .default .stable (fun _ ↦ none) Fs = .ok p ∧
      runOnModule true .default .stable (fun _ ↦ none) (Fs ++ [G]) = .ok p' ∧
      p'.funcInfo G.1 = some m := by
  rw [lastInfo] at h
  cases hrun : runOnModule true .default .stable (fun _ ↦ none) (Fs ++ [G]) with
  | error e =>
    rw [hrun] at h
    cases h
  | ok p' =>
    rw [hrun] at h
    obtain ⟨p, hp, -⟩ := runOnModule_concat.mp hrun
    exact ⟨p, p', hp, rfl, h⟩

theorem lastInfo_nil : lastInfo [] otherLeaf = some ⟨1, 1, 0, 0, 0, 0, 0, 0⟩ := by
  decide +kernel

theorem lastInfo_unrelated : lastInfo unrelated otherLeaf = some ⟨1, 1, 2, 1, 0, 0, 0, 0⟩ := by
  decide +kernel

theorem funcInfo_eq_iff_unrelated :
    ∃ p q p' q' : PassState, runOnModule true .default .stable (fun _ ↦ none) [] = .ok p ∧
      runOnModule true .default .stable (fun _ ↦ none) unrelated = .ok q ∧
      (p'.funcInfo otherLeaf.1 = q'.funcInfo otherLeaf.1 ↔
        (none : Option ModularInfo).isSome ∨ p.sched.left = q.sched.left) := by
  obtain ⟨p, p', hp, hp', -⟩ := exists_of_lastInfo lastInfo_nil
  obtain ⟨q, q', hq, hq', -⟩ := exists_of_lastInfo lastInfo_unrelated
  exact ⟨p, q, p', q', hp, hq, funcInfo_eq_iff hp hq (List.forall_mem_nil _) hp' hq'⟩

/-- A leaf function without moves gets those of the functions that were scheduled before it. -/
theorem not_funcInfo_eq_unrelated :
    ¬ ∀ (asserts : Bool) (C : Options) (S : PrioritySort)
      (fileContents : Ident → Option ModularInfo) (Fs Gs : List (Ident × Func)) (G : Ident × Func)
      (p q p' q' : PassState), runOnModule asserts C S fileContents Fs = .ok p →
        runOnModule asserts C S fileContents Gs = .ok q →
        (∀ f ∈ callees G.2, p.funcInfo f = q.funcInfo f) →
        runOnModule asserts C S fileContents (Fs ++ [G]) = .ok p' →
        runOnModule asserts C S fileContents (Gs ++ [G]) = .ok q' →
        p'.funcInfo G.1 = q'.funcInfo G.1 := by
  intro hall
  obtain ⟨p, p', hp, hp', hinfo⟩ := exists_of_lastInfo lastInfo_nil
  obtain ⟨q, q', hq, hq', hinfo'⟩ := exists_of_lastInfo lastInfo_unrelated
  have heq := hall _ _ _ _ _ _ _ p q p' q' hp hq (List.forall_mem_nil _) hp' hq'
  rw [hinfo, hinfo'] at heq
  exact absurd heq (by decide)

end ScaffCC.GenSimd.Cg
