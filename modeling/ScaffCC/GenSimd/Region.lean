import ScaffCC.GenSimd.Gate

/-!
# Timesteps and regions

The schedule of a leaf function is a table with a row for each timestep and a column for each
region, which has a type of gate and a number of gates. A gate goes to the first timestep from its
ready time on that has a region for it: one that runs its type and has room, or one that runs
nothing yet. If there is none, a new timestep is added, and the gate goes to its first region.
-/

namespace ScaffCC.GenSimd

/-- What makes the pass stop without a schedule: an operand without last-use times, a measurement of
an array, an intrinsic whose type is not found, an entry that is not there, and a table that is too
small for the number of regions. -/
inductive Failure
  | noFuncQbits
  | arrayMeasured
  | noGateIndex
  | noEntry
  | noInstruction
  | regionsBeyondTable
  deriving DecidableEq, Repr

/-- The size of the tables of a timestep. -/
def MAX_RES_CONSTRAINT : ℕ := 2000

/-- A region of a timestep: the type of gate it runs, if any, and how many of them. -/
structure Region where
  typeOfGate : Option GateType
  numGates : ℕ
  deriving DecidableEq, Repr

/-- A region that runs nothing. -/
def Region.free : Region := ⟨none, 0⟩

/-- The regions of a timestep. -/
abbrev ArrParGates := List Region

/-- What the options fix: the number of regions and how many qubits fit into one. -/
structure Constraints where
  RES_CONSTRAINT : ℕ
  DATA_CONSTRAINT : ℕ

/-- The table, and the numbers of regions and of timesteps in use. -/
structure Table where
  currArrParGates : List ArrParGates
  width : ℕ
  length : ℕ

/-- No timestep is there. -/
def Table.empty : Table := ⟨[], 0, 0⟩

/-- Whether another gate of a type fits into a region that runs the type. -/
def Region.room (d : ℕ) (t : GateType) (r : Region) : Bool :=
  r.typeOfGate == some t && (if t = .CNOT then 2 * r.numGates < d else r.numGates < d)

/-- Whether a gate can be put into a region. -/
def Region.takes (d : ℕ) (t : GateType) (r : Region) : Bool :=
  r.room d t || r.typeOfGate == none

/-- A region after a gate is put into it. -/
def Region.put (d : ℕ) (t : GateType) (r : Region) : Region :=
  if r.room d t then ⟨r.typeOfGate, r.numGates + 1⟩ else ⟨some t, 1⟩

/-- The first timestep from `ts` on with a region for the gate, and the first such region. -/
def search (d : ℕ) (t : GateType) : ℕ → List ArrParGates → Option (ℕ × ℕ)
  | _, [] => none
  | 0, step :: steps =>
    match step.findIdx? (Region.takes d t) with
    | some j => some (0, j)
    | none => (search d t 0 steps).map fun x ↦ (x.1 + 1, x.2)
  | ts + 1, _ :: steps => (search d t ts steps).map fun x ↦ (x.1 + 1, x.2)

/-- A new timestep with a gate in its first region. The rest of its regions are free. -/
def newStep (k : ℕ) (t : GateType) : ArrParGates := ⟨some t, 1⟩ :: List.replicate (k - 1) .free

/-- The type of gate that a region of a timestep runs, if any. -/
def Table.typeAt (T : Table) (x : ℕ × ℕ) : Option GateType :=
  (T.currArrParGates[x.1]?.bind fun step ↦ step[x.2]?).bind Region.typeOfGate

/-- A gate is put into the table. The result is its timestep and region. -/
def get_ts_to_schedule_leaf (C : Constraints) (ts : ℕ) (name : Ident) (T : Table) :
    Except Failure ((ℕ × ℕ) × Table) :=
  match funcIndex name with
  | none => .error .noGateIndex
  | some t =>
    match search C.DATA_CONSTRAINT t ts T.currArrParGates with
    | some (i, j) =>
      let steps := T.currArrParGates.modify i fun step ↦
        step.modify j (Region.put C.DATA_CONSTRAINT t)
      let width := if T.typeAt (i, j) = none ∧ T.width ≤ j then j + 1 else T.width
      .ok ((i, j), ⟨steps, width, T.length⟩)
    | none =>
      if MAX_RES_CONSTRAINT < C.RES_CONSTRAINT then .error .regionsBeyondTable
      else
        -- no step has room: a new one at the end
        let steps := T.currArrParGates ++ [newStep C.RES_CONSTRAINT t]
        let width := if T.width = 0 then 1 else T.width
        .ok ((T.currArrParGates.length, 0), ⟨steps, width, T.length + 1⟩)

variable {C : Constraints} {d ts : ℕ} {t : GateType} {name : Ident} {T T' : Table} {x : ℕ × ℕ}

/-! ## The search -/

theorem typeOfGate_put {r : Region} : (r.put d t).typeOfGate = some t := by
  rw [Region.put]
  split_ifs with hroom
  · rw [Region.room, Bool.and_eq_true, beq_iff_eq] at hroom
    exact hroom.1
  · rfl

theorem typeOfGate_of_takes {r : Region} (h : r.takes d t) :
    r.typeOfGate = some t ∨ r.typeOfGate = none := by
  rw [Region.takes, Bool.or_eq_true, Region.room, Bool.and_eq_true, beq_iff_eq, beq_iff_eq] at h
  exact h.imp_left And.left

/-- What is found is not before the time at which the search starts, and can take the gate. -/
theorem search_eq_some {steps : List ArrParGates} {i j : ℕ}
    (h : search d t ts steps = some (i, j)) :
    ts ≤ i ∧ ∃ step r, steps[i]? = some step ∧ step[j]? = some r ∧ r.takes d t := by
  induction steps generalizing ts i with
  | nil => exact absurd h.symm (Option.some_ne_none _)
  | cons step steps ih =>
    -- the rest of the timesteps, one further on
    have hrest : ∀ {ts' : ℕ}, (search d t ts' steps).map (fun x ↦ (x.1 + 1, x.2)) = some (i, j) →
        ts' + 1 ≤ i ∧ ∃ step' r, (step :: steps)[i]? = some step' ∧ step'[j]? = some r ∧
          r.takes d t := by
      intro ts' h'
      obtain ⟨⟨i', j'⟩, hfound, heq⟩ := Option.map_eq_some_iff.mp h'
      obtain ⟨rfl, rfl⟩ := Prod.mk.inj heq
      obtain ⟨hle, hex⟩ := ih hfound
      exact ⟨Nat.succ_le_succ hle, by simpa using hex⟩
    cases ts with
    | zero =>
      rw [search] at h
      split at h
      · next j' hj' =>
        obtain ⟨rfl, rfl⟩ := Prod.mk.inj (Option.some.inj h)
        obtain ⟨hlt, htakes, -⟩ := List.findIdx?_eq_some_iff_getElem.mp hj'
        exact ⟨le_rfl, step, step[j'], by simp, List.getElem?_eq_getElem hlt, htakes⟩
      · exact ⟨Nat.zero_le _, (hrest h).2⟩
    | succ ts => exact hrest (by rwa [search] at h)

/-! ## What a gate changes -/

/-- Every timestep has its regions. -/
def Table.Full (k : ℕ) (T : Table) : Prop := ∀ step ∈ T.currArrParGates, step.length = k

theorem full_empty {k : ℕ} : Table.empty.Full k := fun _ h ↦ absurd h List.not_mem_nil

/-- A region that runs something is one of those there are. -/
theorem Table.Full.lt {k : ℕ} (hT : T.Full k) (hx : T.typeAt x = some t) :
    x.1 < T.currArrParGates.length ∧ x.2 < k := by
  rw [Table.typeAt, Option.bind_eq_some_iff] at hx
  obtain ⟨r, hr, -⟩ := hx
  obtain ⟨step, hstep, hr⟩ := Option.bind_eq_some_iff.mp hr
  obtain ⟨hlt, rfl⟩ := List.getElem?_eq_some_iff.mp hstep
  obtain ⟨hlt', -⟩ := List.getElem?_eq_some_iff.mp hr
  rw [hT _ (List.getElem_mem hlt)] at hlt'
  exact ⟨hlt, hlt'⟩

theorem typeAt_put {steps : List ArrParGates} {w l : ℕ} {step : ArrParGates} {r : Region}
    {i j : ℕ} (hstep : T.currArrParGates[i]? = some step) (hr : step[j]? = some r)
    (hsteps : steps = T.currArrParGates.modify i fun step ↦ step.modify j (Region.put d t)) :
    (⟨steps, w, l⟩ : Table).typeAt x = if x = (i, j) then some t else T.typeAt x := by
  subst hsteps
  obtain ⟨i', j'⟩ := x
  simp only [Table.typeAt, Prod.mk.injEq]
  by_cases hi : i' = i
  · subst hi
    rw [List.getElem?_modify_eq, hstep, Option.map_eq_map, Option.map_some, Option.bind_some]
    by_cases hj : j' = j
    · subst hj
      rw [List.getElem?_modify_eq, hr, Option.map_eq_map, Option.map_some, Option.bind_some,
        typeOfGate_put, if_pos ⟨rfl, rfl⟩]
    · rw [List.getElem?_modify_ne _ _ (Ne.symm hj), if_neg fun h ↦ hj h.2, Option.bind_some]
  · rw [List.getElem?_modify_ne _ _ (Ne.symm hi), if_neg fun h ↦ hi h.1]

theorem typeAt_newStep {k w l : ℕ} {y : ℕ × ℕ} {t' : GateType} (hy : T.typeAt y = some t') :
    (⟨T.currArrParGates ++ [newStep k t], w, l⟩ : Table).typeAt y = some t' := by
  rw [Table.typeAt, Option.bind_eq_some_iff] at hy ⊢
  obtain ⟨r, hr, hrt⟩ := hy
  obtain ⟨step, hstep, hr⟩ := Option.bind_eq_some_iff.mp hr
  refine ⟨r, Option.bind_eq_some_iff.mpr ⟨step, ?_, hr⟩, hrt⟩
  rw [List.getElem?_append_left (List.getElem?_eq_some_iff.mp hstep).1, hstep]

/-- What putting a gate into the table does. -/
structure Puts (k ts : ℕ) (t : GateType) (T : Table) (x : ℕ × ℕ) (T' : Table) : Prop where
  le : ts ≤ x.1
  length_le : T.currArrParGates.length ≤ T'.currArrParGates.length
  full : T.Full k → T'.Full k
  typeAt_self : T'.typeAt x = some t
  typeAt_of : ∀ y t', T.typeAt y = some t' → T'.typeAt y = some t'

theorem puts_put {k i j w l : ℕ} {step : ArrParGates} {r : Region} (hle : ts ≤ i)
    (hstep : T.currArrParGates[i]? = some step) (hr : step[j]? = some r) (htakes : r.takes d t) :
    Puts k ts t T (i, j)
      ⟨T.currArrParGates.modify i fun step ↦ step.modify j (Region.put d t), w, l⟩ := by
  refine ⟨hle, by simp, fun hT step' hstep' ↦ ?_, ?_, fun y t' hy ↦ ?_⟩
  · obtain ⟨i', hi'⟩ := List.mem_iff_getElem?.mp hstep'
    rw [List.getElem?_modify] at hi'
    obtain ⟨step'', hstep'', rfl⟩ := Option.map_eq_some_iff.mp hi'
    have hlen := hT step'' (List.mem_of_getElem? hstep'')
    split_ifs
    · rw [List.length_modify, hlen]
    · exact hlen
  · rw [typeAt_put hstep hr rfl, if_pos rfl]
  · rw [typeAt_put hstep hr rfl]
    split_ifs with hxy
    · -- a region that ran something before ran the type of the gate
      subst hxy
      rw [Table.typeAt, hstep, Option.bind_some, hr, Option.bind_some] at hy
      rcases typeOfGate_of_takes htakes with h | h
      · rw [← h, hy]
      · rw [h] at hy
        cases hy
    · exact hy

theorem puts_newStep {k w l : ℕ} (hk : 1 ≤ k) (hts : ts ≤ T.currArrParGates.length) :
    Puts k ts t T (T.currArrParGates.length, 0) ⟨T.currArrParGates ++ [newStep k t], w, l⟩ := by
  refine ⟨hts, by simp, fun hT step hstep ↦ ?_, ?_, fun _ _ ↦ typeAt_newStep⟩
  · rcases List.mem_append.mp hstep with hstep | hstep
    · exact hT step hstep
    · rw [List.mem_singleton.mp hstep, newStep, List.length_cons, List.length_replicate]
      omega
  · rw [Table.typeAt, List.getElem?_concat_length, Option.bind_some, newStep,
      List.getElem?_cons_zero, Option.bind_some]

/-- **What a gate changes.** If it gets a place then not before its ready time, the region there
runs its type, and the regions that ran something run the same. -/
theorem puts_of_ok (hk : 1 ≤ C.RES_CONSTRAINT)
    (h : get_ts_to_schedule_leaf C ts name T = .ok (x, T'))
    (hts : ts ≤ T.currArrParGates.length) :
    ∃ t, funcIndex name = some t ∧ Puts C.RES_CONSTRAINT ts t T x T' := by
  rw [get_ts_to_schedule_leaf] at h
  cases ht : funcIndex name with
  | none => rw [ht] at h; cases h
  | some t =>
    refine ⟨t, rfl, ?_⟩
    rw [ht] at h
    dsimp only at h
    split at h
    · next i j hfound =>
      cases h
      obtain ⟨hle, step, r, hstep, hr, htakes⟩ := search_eq_some hfound
      exact puts_put hle hstep hr htakes
    · by_cases hmax : MAX_RES_CONSTRAINT < C.RES_CONSTRAINT
      · rw [if_pos hmax] at h
        cases h
      · rw [if_neg hmax] at h
        cases h
        exact puts_newStep hk hts

/-- A gate whose type is found gets a place when the tables are large enough. -/
theorem exists_ok (hname : (funcIndex name).isSome) (hk : C.RES_CONSTRAINT ≤ MAX_RES_CONSTRAINT) :
    ∃ x T', get_ts_to_schedule_leaf C ts name T = .ok (x, T') := by
  obtain ⟨t, ht⟩ := Option.isSome_iff_exists.mp hname
  rw [get_ts_to_schedule_leaf, ht]
  dsimp only
  split
  · exact ⟨_, _, rfl⟩
  · exact ⟨_, _, if_neg (not_lt.mpr hk)⟩

theorem le_max_of_ok (h : get_ts_to_schedule_leaf C ts name .empty = .ok (x, T')) :
    C.RES_CONSTRAINT ≤ MAX_RES_CONSTRAINT := by
  rw [get_ts_to_schedule_leaf] at h
  cases ht : funcIndex name with
  | none => rw [ht] at h; cases h
  | some t =>
    rw [ht] at h
    by_contra hmax
    rw [not_le] at hmax
    simp only [Table.empty, search, if_pos hmax, reduceCtorEq] at h

end ScaffCC.GenSimd
