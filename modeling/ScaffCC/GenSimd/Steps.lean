import ScaffCC.GenSimd.LeafRight

/-!
# The steps of a placing

The operations of a leaf function are placed one after the other, so what holds of the schedule can
be told from the steps. A step changes one region of the table, which gets another gate, and the
table says what is placed: a region has as many gates as operations were put there, and a type as
soon as there is one.
-/

open Scheduling Fallible

namespace ScaffCC.GenSimd

variable {C : Constraints} {S : PrioritySort} {F : LeafFunction} {d ts k : ℕ} {t : GateType}
  {name : Ident} {T T' : Table} {x : ℕ × ℕ} {s s' : LeafState} {g : GateCall Operand}

/-! ## What a gate changes in the table -/

/-- The region at a place. Where there is no timestep yet it runs nothing. -/
def Table.region (T : Table) (x : ℕ × ℕ) : Region :=
  (T.currArrParGates[x.1]?.bind fun step ↦ step[x.2]?).getD .free

theorem typeAt_eq_region : T.typeAt x = (T.region x).typeOfGate := by
  rw [Table.typeAt, Table.region]
  cases T.currArrParGates[x.1]?.bind fun step ↦ step[x.2]? <;> rfl

/-- What putting a gate into the table does to the regions and the timesteps. -/
structure Enters (d : ℕ) (t : GateType) (T : Table) (x : ℕ × ℕ) (T' : Table) : Prop where
  takes : (T.region x).takes d t
  region_self : T'.region x = (T.region x).put d t
  region_of_ne : ∀ y, y ≠ x → T'.region y = T.region y
  le_length : x.1 ≤ T.currArrParGates.length
  length_eq : T'.currArrParGates.length = max T.currArrParGates.length (x.1 + 1)
  found : x.1 < T.currArrParGates.length →
    ∃ step, T.currArrParGates[x.1]? = some step ∧ step[x.2]? = some (T.region x)

theorem enters_put {i j w l : ℕ} {step : ArrParGates} {r : Region}
    (hstep : T.currArrParGates[i]? = some step) (hr : step[j]? = some r) (htakes : r.takes d t) :
    Enters d t T (i, j)
      ⟨T.currArrParGates.modify i fun step ↦ step.modify j (Region.put d t), w, l⟩ := by
  have hregion : T.region (i, j) = r := by
    rw [Table.region, hstep, Option.bind_some, hr, Option.getD_some]
  have hlt : i < T.currArrParGates.length := (List.getElem?_eq_some_iff.mp hstep).1
  refine ⟨by rwa [hregion], ?_, fun y hy ↦ ?_, hlt.le, ?_,
    fun _ ↦ ⟨step, hstep, by rw [hregion, hr]⟩⟩
  · rw [hregion, Table.region, List.getElem?_modify_eq, hstep, Option.map_eq_map, Option.map_some,
      Option.bind_some, List.getElem?_modify_eq, hr, Option.map_eq_map, Option.map_some,
      Option.getD_some]
  · obtain ⟨i', j'⟩ := y
    rw [Table.region, Table.region]
    by_cases hi : i' = i
    · subst hi
      have hj : j ≠ j' := fun h ↦ hy (h ▸ rfl)
      rw [List.getElem?_modify_eq, hstep, Option.map_eq_map, Option.map_some, Option.bind_some,
        Option.bind_some, List.getElem?_modify_ne _ _ hj]
    · rw [List.getElem?_modify_ne _ _ (Ne.symm hi)]
  · rw [List.length_modify]
    omega

theorem enters_newStep {K w l : ℕ} :
    Enters d t T (T.currArrParGates.length, 0) ⟨T.currArrParGates ++ [newStep K t], w, l⟩ := by
  have hregion : ∀ j, T.region (T.currArrParGates.length, j) = .free := fun j ↦ by
    rw [Table.region, List.getElem?_eq_none le_rfl, Option.bind_none, Option.getD_none]
  refine ⟨?_, ?_, fun y hy ↦ ?_, le_rfl, ?_, fun hlt ↦ absurd hlt (lt_irrefl _)⟩
  · rw [hregion]
    rfl
  · rw [hregion, Table.region, List.getElem?_concat_length, Option.bind_some]
    rfl
  · obtain ⟨i, j⟩ := y
    rcases lt_trichotomy i T.currArrParGates.length with hlt | rfl | hgt
    · rw [Table.region, Table.region, List.getElem?_append_left hlt]
    · -- the other regions of the new timestep run nothing
      obtain ⟨j, rfl⟩ := Nat.exists_eq_succ_of_ne_zero fun h : j = 0 ↦ hy (h ▸ rfl)
      rw [hregion, Table.region, List.getElem?_concat_length, Option.bind_some, newStep,
        List.getElem?_cons_succ, List.getElem?_replicate]
      split_ifs <;> rfl
    · rw [Table.region, Table.region, List.getElem?_eq_none hgt.le,
        List.getElem?_eq_none (by rw [List.length_append, List.length_singleton]; omega)]
  · rw [List.length_append, List.length_singleton]
    omega

theorem enters_of_ok (h : get_ts_to_schedule_leaf C ts name T = .ok (x, T')) :
    ∃ t, funcIndex name = some t ∧ Enters C.DATA_CONSTRAINT t T x T' := by
  rw [get_ts_to_schedule_leaf] at h
  cases ht : funcIndex name with
  | none =>
    rw [ht] at h
    cases h
  | some t =>
    refine ⟨t, rfl, ?_⟩
    rw [ht] at h
    dsimp only at h
    split at h
    · next i j hfound =>
      cases h
      obtain ⟨-, step, r, hstep, hr, htakes⟩ := search_eq_some hfound
      exact enters_put hstep hr htakes
    · by_cases hmax : MAX_RES_CONSTRAINT < C.RES_CONSTRAINT
      · rw [if_pos hmax] at h
        cases h
      · rw [if_neg hmax] at h
        cases h
        exact enters_newStep

/-! ## Steps -/

def placeInst (C : Constraints) (body : List (GateCall Operand)) (s : LeafState) (inst : InstPri) :
    Except Failure LeafState :=
  match body[inst.1]? with
  | none => .error .noInstruction
  | some g => calc_critical_time C s inst.1 g

theorem placeAll_eq_foldlM {insts : List InstPri} :
    placeAll C F.body s insts = insts.foldlM (placeInst C F.body) s := by
  induction insts generalizing s with
  | nil => rfl
  | cons inst insts ih =>
    obtain ⟨k, p⟩ := inst
    rw [placeAll, List.foldlM_cons, placeInst]
    cases F.body[k]? with
    | none => rfl
    | some g => exact congrArg _ (funext fun s ↦ ih)

/-- A step of the placing: the operation at position `k` is placed in a state, and what the state is
then. -/
def LeafFunction.Step (F : LeafFunction) (C : Constraints) (S : PrioritySort) (s : LeafState)
    (k : ℕ) (s' : LeafState) : Prop :=
  ∃ T insts p, priorityVector F.funcQbits 0 F.body = .ok (T, insts) ∧
    IsStep (placeInst C F.body) ⟨T.reset 0, .empty, true, .empty⟩ (S.sort insts).reverse s (k, p) s'

/-- The first timestep at which an operation can be placed. -/
def readyTime (s : LeafState) (g : GateCall Operand) : ℕ :=
  if s.isFirstMeas && isMeas g then s.funcQbits.latest
  else g.operands.toFinset.sup fun q ↦ s.funcQbits.lastUse q.access

/-- The region that is there for an operation, if any. -/
def regionFor (d : ℕ) (t : GateType) (s : LeafState) (g : GateCall Operand) : Option (ℕ × ℕ) :=
  search d t (readyTime s g) s.table.currArrParGates

/-- What a step does: the gate is put into the table, into the region that is there for it, and its
place is written down. -/
structure Sets (d k : ℕ) (g : GateCall Operand) (s : LeafState) (x : ℕ × ℕ) (s' : LeafState) :
    Prop where
  placed : s'.placed = s.placed.place k x
  enters : ∃ t, funcIndex (fname g) = some t ∧ Enters d t s.table x s'.table
  searched : ∀ t, funcIndex (fname g) = some t →
    x = (regionFor d t s g).getD (s.table.currArrParGates.length, 0)

theorem eq_search_of_ok (h : get_ts_to_schedule_leaf C ts name T = .ok (x, T'))
    (ht : funcIndex name = some t) : x =
      (search C.DATA_CONSTRAINT t ts T.currArrParGates).getD (T.currArrParGates.length, 0) := by
  rw [get_ts_to_schedule_leaf, ht] at h
  dsimp only at h
  split at h
  · next i j hfound =>
    cases h
    rw [hfound, Option.getD_some]
  · next hfound =>
    by_cases hmax : MAX_RES_CONSTRAINT < C.RES_CONSTRAINT
    · rw [if_pos hmax] at h
      cases h
    · rw [if_neg hmax] at h
      cases h
      rw [hfound, Option.getD_none]

theorem eq_sup_of_max_ts {funcQbits funcQbits' : FuncQbits} {m : ℕ} {qs : List Operand}
    (h : max_ts_of_all_args funcQbits 0 qs = .ok (funcQbits', m)) :
    m = qs.toFinset.sup fun q ↦ funcQbits.lastUse q.access := by
  obtain ⟨-, -, -, hlast, hleast⟩ := max_ts_of_all_args_eq_ok h
  refine le_antisymm (hleast _ (Nat.zero_le _) fun q hq ↦ ?_)
    (Finset.sup_le fun q hq ↦ hlast q (List.mem_toFinset.mp hq))
  exact Finset.le_sup (f := fun q ↦ funcQbits.lastUse q.access) (List.mem_toFinset.mpr hq)

theorem sets_of_ok (h : calc_critical_time C s k g = .ok s') :
    ∃ x, Sets C.DATA_CONSTRAINT k g s x s' := by
  rw [calc_critical_time] at h
  split_ifs at h with hmeas
  · obtain ⟨⟨x, table⟩, hget, h⟩ := bind_eq_ok.mp h
    cases hops : g.operands with
    | nil =>
      rw [hops] at h
      cases h
    | cons q qs =>
      rw [hops] at h
      obtain ⟨T', -, h⟩ := bind_eq_ok.mp h
      cases h
      refine ⟨x, rfl, enters_of_ok hget, fun t ht ↦ ?_⟩
      rw [regionFor, readyTime, if_pos hmeas]
      exact eq_search_of_ok hget ht
  · obtain ⟨⟨T₁, m⟩, hmax, h⟩ := bind_eq_ok.mp h
    obtain ⟨⟨x, table⟩, hget, h⟩ := bind_eq_ok.mp h
    cases h
    refine ⟨x, rfl, enters_of_ok hget, fun t ht ↦ ?_⟩
    rw [regionFor, readyTime, if_neg hmeas, ← eq_sup_of_max_ts hmax]
    exact eq_search_of_ok hget ht

/-! ## The table says what is placed -/

/-- A region has as many gates as there are operations, and a type if there is one. -/
structure Filled (s : LeafState) : Prop where
  numGates : ∀ x, (s.table.region x).numGates = (s.placed.opsAt x).length
  typeOfGate : ∀ x, (s.table.region x).typeOfGate = none ↔ s.placed.opsAt x = []

theorem filled_start {T : FuncQbits} : Filled ⟨T, .empty, true, .empty⟩ :=
  ⟨fun _ ↦ rfl, fun _ ↦ ⟨fun _ ↦ rfl, fun _ ↦ rfl⟩⟩

theorem opsAt_place_self : (s.placed.place k x).opsAt x = s.placed.opsAt x ++ [k] := by
  have hschedule : (s.placed.place k x).schedule
      = s.placed.schedule ++ [k].map fun a ↦ (x, a) := rfl
  rw [Placement.opsAt_of_schedule_eq hschedule, if_pos rfl]

theorem opsAt_place_of_ne {y : ℕ × ℕ} (h : y ≠ x) :
    (s.placed.place k x).opsAt y = s.placed.opsAt y := by
  have hschedule : (s.placed.place k x).schedule
      = s.placed.schedule ++ [k].map fun a ↦ (x, a) := rfl
  rw [Placement.opsAt_of_schedule_eq hschedule, if_neg h, List.append_nil]

/-- A region that takes a gate has one more afterwards, as it has none if it runs nothing. -/
theorem Filled.numGates_put (h : Filled s) (htakes : (s.table.region x).takes d t) :
    ((s.table.region x).put d t).numGates = (s.table.region x).numGates + 1 := by
  rw [Region.put]
  split_ifs with hroom
  · rfl
  · rw [Region.takes, Bool.or_eq_true, beq_iff_eq] at htakes
    rw [h.numGates, (h.typeOfGate x).mp (htakes.resolve_left hroom), List.length_nil]

theorem Filled.step (h : Filled s) (hs : Sets d k g s x s') : Filled s' := by
  obtain ⟨hplaced, ⟨t, -, henters⟩, -⟩ := hs
  constructor
  · intro y
    rw [hplaced]
    by_cases hy : y = x
    · subst hy
      rw [henters.region_self, h.numGates_put henters.takes, h.numGates, opsAt_place_self,
        List.length_append, List.length_singleton]
    · rw [henters.region_of_ne y hy, h.numGates, opsAt_place_of_ne hy]
  · intro y
    rw [hplaced]
    by_cases hy : y = x
    · subst hy
      rw [henters.region_self, typeOfGate_put, opsAt_place_self]
      simp
    · rw [henters.region_of_ne y hy, h.typeOfGate, opsAt_place_of_ne hy]

/-- What holds of the state and the operations that are left. -/
structure Filling (C : Constraints) (F : LeafFunction) (s : LeafState) (rest : List InstPri) :
    Prop where
  queue : ∃ T all, Queue C F T all s rest
  tracked : F.Tracked
  filled : Filled s

theorem Filling.inv {rest : List InstPri} (h : Filling C F s rest) : LeafInv C F s := by
  obtain ⟨T, all, hqueue⟩ := h.queue
  exact hqueue.inv

theorem filling_start {T : FuncQbits} {insts : List InstPri}
    (h : priorityVector F.funcQbits 0 F.body = .ok (T, insts)) :
    Filling C F ⟨T.reset 0, .empty, true, .empty⟩ (S.sort insts).reverse :=
  ⟨⟨T, insts, queue_start S h⟩, (tracked_of_priorityVector h).2, filled_start⟩

/-- What is placed next is an operation of the function that is not placed yet, and gets its
place. -/
theorem Filling.step {p : ℕ} {rest : List InstPri} (hC : 1 ≤ C.RES_CONSTRAINT)
    (h : Filling C F s ((k, p) :: rest)) (hs : placeInst C F.body s (k, p) = .ok s') :
    Filling C F s' rest ∧ s.placed.slot k = none ∧
      ∃ g x, F.body[k]? = some g ∧ Sets C.DATA_CONSTRAINT k g s x s' := by
  obtain ⟨T, all, hqueue⟩ := h.queue
  obtain ⟨g, -, hg⟩ := hqueue.exists_gate
  rw [placeInst, hg] at hs
  obtain ⟨x, hplaces⟩ := places_of_ok hC hqueue.inv.capped hqueue.inv.within hs
  obtain ⟨y, hsets⟩ := sets_of_ok hs
  exact ⟨⟨⟨T, all, hqueue.step h.tracked hg hplaces⟩, h.tracked, h.filled.step hsets⟩,
    hqueue.left _ List.mem_cons_self, g, y, hg, hsets⟩

/-- **What holds of a schedule can be told from its steps**, if a step keeps it exactly when it is a
good one. -/
theorem schedule_iff_steps {P : LeafState → Prop} {G : LeafState → ℕ → LeafState → Prop}
    (hC : 1 ≤ C.RES_CONSTRAINT) (hs : schedule C S F = .ok s)
    (hstart : ∀ T : FuncQbits, P ⟨T.reset 0, .empty, true, .empty⟩)
    (hP : ∀ s k g x p rest s', Filling C F s ((k, p) :: rest) → F.body[k]? = some g →
      Sets C.DATA_CONSTRAINT k g s x s' → (P s' ↔ P s ∧ G s k s')) :
    P s ↔ ∀ s k s', F.Step C S s k s' → G s k s' := by
  obtain ⟨⟨T, insts⟩, hprio, hrun⟩ := bind_eq_ok.mp hs
  dsimp only at hrun
  rw [placeAll_eq_foldlM] at hrun
  rw [foldlM_iff_steps (I := Filling C F) (P := P) (G := fun s inst s' ↦ G s inst.1 s')
    (fun s inst rest s' h hs ↦ (h.step hC hs).1)
    (fun s inst rest s' h hs ↦ by
      obtain ⟨-, -, g, x, hg, hsets⟩ := h.step hC hs
      exact hP s inst.1 g x inst.2 rest s' h hg hsets)
    (filling_start hprio) hrun, and_iff_right (hstart T)]
  constructor
  · rintro hall s k s' ⟨T', insts', p, hprio', hstep⟩
    rw [hprio] at hprio'
    cases hprio'
    exact hall s (k, p) s' hstep
  · exact fun hall s inst s' hstep ↦ hall s inst.1 s' ⟨T, insts, inst.2, hprio, hstep⟩

end ScaffCC.GenSimd
