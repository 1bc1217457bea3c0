import Mathlib.Data.Finset.Card
import ScaffCC.GenSimd.Steps

/-!
# The T-depth of a leaf schedule

With the schedule the pass reports a number of timesteps with `T` or `Tdag` gates. The number is
kept up while the operations are placed: it goes up with each such gate that goes to a new timestep,
and with each that goes to a free region of another timestep if no region there runs one. But the
region has its type already when the types of the timestep are looked through, so the new gate is
always found itself. The number is right exactly if no `T` gate ever is the first one of a timestep
that was there before it.
-/

open Scheduling Fallible

namespace ScaffCC.GenSimd

/-! ## The counters -/

/-- The counters of `T` gates of a schedule. -/
structure TGates where
  tgates : ℕ
  tgates_ub : ℕ
  tgates_par : ℕ
  tgates_par_ub : ℕ
  deriving DecidableEq, Repr

/-- Before anything is placed. -/
def TGates.zero : TGates := ⟨0, 0, 0, 0⟩

/-- Another timestep with a `T` gate. -/
def TGates.incr (n : TGates) : TGates :=
  ⟨n.tgates + 1, n.tgates_ub + 1, if n.tgates_par = 0 then 1 else n.tgates_par,
    if n.tgates_par = 0 then 1 else n.tgates_par_ub⟩

def GateType.isT (t : GateType) : Bool := t == .T || t == .Tdag

/-- What `get_ts_to_schedule_leaf` does to the counters when it puts a gate of type `t` into the
table at the place `x`. -/
def TGates.put (d : ℕ) (t : GateType) (T : Table) (x : ℕ × ℕ) (n : TGates) : TGates :=
  if t.isT then
    match T.currArrParGates[x.1]? with
    | none => n.incr
    | some step =>
      if (T.region x).room d t then
        let numGates := (T.region x).numGates + 1
        if n.tgates_par < numGates then ⟨n.tgates, n.tgates_ub, numGates, numGates⟩ else n
      else
        -- the type of the region is set before the types are looked through
        let prevTgateFound := (step.modify x.2 (Region.put d t)).any fun r ↦
          r.typeOfGate.any GateType.isT
        if prevTgateFound then n else n.incr
  else n

/-- The counters after the operation at position `k` is placed. -/
def noteT (d : ℕ) (body : List (GateCall Operand)) (s : LeafState) (inst : InstPri)
    (s' : LeafState) (n : TGates) : TGates :=
  match body[inst.1]?.bind fun g ↦ funcIndex (fname g), s'.placed.slot inst.1 with
  | some t, some x => n.put d t s.table x
  | _, _ => n

/-- The schedule of a leaf function, with its counters. What is reported is these, as the totals of
the calls are zero in a leaf function. -/
def scheduleCounted (C : Constraints) (S : PrioritySort) (F : LeafFunction) :
    Except Failure (LeafState × TGates) := do
  let (funcQbits, insts) ← priorityVector F.funcQbits 0 F.body
  (S.sort insts).reverse.foldlM (tally (placeInst C F.body) (noteT C.DATA_CONSTRAINT F.body))
    (⟨funcQbits.reset 0, .empty, true, .empty⟩, .zero)

/-! ## The timesteps with `T` gates -/

/-- Whether a gate is a `T` or a `Tdag`. -/
def runsT : GateCall Operand → Bool
  | .gate1 .T _ | .gate1 .Tdag _ => true
  | _ => false

/-- The timesteps in which a region runs a `T` or a `Tdag` gate. -/
def tSteps (body : List (GateCall Operand)) (s : Placement ℕ ℕ) : Finset ℕ :=
  ((List.range body.length).filterMap fun k ↦
    if body[k]?.any runsT then s.time k else none).toFinset

/-- If the step puts a `T` gate into a timestep that is there already, then there was one in this
timestep before. -/
def FindsT (F : LeafFunction) (s : LeafState) (k : ℕ) (s' : LeafState) : Prop :=
  ∀ g x, F.body[k]? = some g → runsT g → s'.placed.slot k = some x →
    x.1 < s.table.currArrParGates.length → x.1 ∈ tSteps F.body s.placed

variable {C : Constraints} {S : PrioritySort} {F : LeafFunction} {d i k : ℕ} {t : GateType}
  {x : ℕ × ℕ} {s s' : LeafState} {n : TGates} {g : GateCall Operand} {rest : List InstPri}

theorem isT_eq (hg : funcIndex (fname g) = some t) : t.isT = runsT g := by
  rw [funcIndex_fname] at hg
  cases g with
  | gate1 g => cases g <;> cases hg <;> rfl
  | rot a => cases a <;> cases hg
  | prep b => cases b <;> cases hg <;> rfl
  | meas b => cases b <;> cases hg <;> rfl
  | CNOT | Toffoli | Fredkin =>
    cases hg
    rfl

theorem mem_tSteps {body : List (GateCall Operand)} {s : Placement ℕ ℕ} :
    i ∈ tSteps body s ↔ ∃ k g, body[k]? = some g ∧ runsT g ∧ s.time k = some i := by
  simp only [tSteps, List.mem_toFinset, List.mem_filterMap, List.mem_range]
  constructor
  · rintro ⟨k, hk, hi⟩
    rw [List.getElem?_eq_getElem hk, Option.any_some] at hi
    split_ifs at hi with hT
    exact ⟨k, body[k], List.getElem?_eq_getElem hk, hT, hi⟩
  · rintro ⟨k, g, hg, hT, hi⟩
    refine ⟨k, (List.getElem?_eq_some_iff.mp hg).1, ?_⟩
    rw [hg, Option.any_some, if_pos hT, hi]

theorem tSteps_of_sets (hg : F.body[k]? = some g) (hk : s.placed.slot k = none)
    (hs : Sets d k g s x s') :
    tSteps F.body s'.placed
      = if runsT g then insert x.1 (tSteps F.body s.placed) else tSteps F.body s.placed := by
  have hold : ∀ l, l ≠ k → s'.placed.time l = s.placed.time l := fun l hl ↦ by
    rw [hs.placed, Placement.time_place, Function.update_of_ne hl]
  have hnew : s'.placed.time k = some x.1 := by
    rw [hs.placed, Placement.time_place, Function.update_self]
  have hnone : s.placed.time k = none := Placement.time_eq_none.mpr hk
  ext i
  rw [mem_tSteps]
  constructor
  · rintro ⟨l, g', hg', hT, hi⟩
    by_cases hl : l = k
    · subst hl
      cases hg.symm.trans hg'
      rw [hnew, Option.some.injEq] at hi
      rw [if_pos hT, ← hi]
      exact Finset.mem_insert_self x.1 _
    · have hmem : i ∈ tSteps F.body s.placed :=
        mem_tSteps.mpr ⟨l, g', hg', hT, by rw [← hold l hl, hi]⟩
      split_ifs
      · exact Finset.mem_insert_of_mem hmem
      · exact hmem
  · intro hi
    -- what was placed stays where it is
    have hkeep : i ∈ tSteps F.body s.placed →
        ∃ k g, F.body[k]? = some g ∧ runsT g ∧ s'.placed.time k = some i := by
      intro hmem
      obtain ⟨l, g', hg', hT, hl⟩ := mem_tSteps.mp hmem
      refine ⟨l, g', hg', hT, ?_⟩
      rwa [hold]
      rintro rfl
      rw [hnone] at hl
      cases hl
    split_ifs at hi with hT
    · rcases Finset.mem_insert.mp hi with rfl | hmem
      · exact ⟨k, g, hg, hT, hnew⟩
      · exact hkeep hmem
    · exact hkeep hi

/-! ## What a step does to the number -/

/-- Nothing is placed beyond the timesteps that are there. -/
theorem Filling.lt_length (h : Filling C F s rest) (hi : i ∈ tSteps F.body s.placed) :
    i < s.table.currArrParGates.length := by
  obtain ⟨k, g, -, -, htime⟩ := mem_tSteps.mp hi
  obtain ⟨r, hslot⟩ := Placement.time_eq_some.mp htime
  obtain ⟨g', t, -, -, hat⟩ := h.inv.typed k (i, r) hslot
  exact (h.inv.full.lt hat).1

theorem Filling.mem_tSteps (h : Filling C F s rest) (ht : t.isT)
    (hx : (s.table.region x).typeOfGate = some t) : x.1 ∈ tSteps F.body s.placed := by
  have hne : s.placed.opsAt x ≠ [] := by
    rw [Ne, ← h.filled.typeOfGate, hx]
    exact Option.some_ne_none t
  obtain ⟨k, hk⟩ := List.exists_mem_of_ne_nil _ hne
  have hslot := (h.inv.consistent.mem x k).mp (Placement.mem_opsAt.mp hk)
  obtain ⟨g, t', hg, ht', hat⟩ := h.inv.typed k x hslot
  rw [typeAt_eq_region, hx] at hat
  cases hat
  exact GenSimd.mem_tSteps.mpr
    ⟨k, g, hg, by rw [← isT_eq ht', ht], Placement.time_eq_some.mpr ⟨x.2, hslot⟩⟩

theorem noteT_eq {p : ℕ} (hg : F.body[k]? = some g) (ht : funcIndex (fname g) = some t)
    (hx : s'.placed.slot k = some x) : noteT d F.body s (k, p) s' n = n.put d t s.table x := by
  rw [noteT, hg, Option.bind_some, ht, hx]

theorem put_of_new (ht : t.isT) (hx : s.table.currArrParGates[x.1]? = none) :
    n.put d t s.table x = n.incr := by
  rw [TGates.put, if_pos ht, hx]

/-- One in a timestep that is there is not: the check for an earlier one finds the gate itself. -/
theorem tgates_put_of_old (ht : t.isT) (henters : Enters d t s.table x s'.table)
    (hx : x.1 < s.table.currArrParGates.length) : (n.put d t s.table x).tgates = n.tgates := by
  obtain ⟨step, hstep, hregion⟩ := henters.found hx
  rw [TGates.put, if_pos ht, hstep]
  dsimp only
  by_cases hroom : (s.table.region x).room d t
  · rw [if_pos hroom]
    split_ifs <;> rfl
  · have hself : (step.modify x.2 (Region.put d t)).any
        (fun r ↦ r.typeOfGate.any GateType.isT) := by
      refine List.any_eq_true.mpr
        ⟨(s.table.region x).put d t, List.mem_of_getElem? (i := x.2) ?_, ?_⟩
      · rw [List.getElem?_modify_eq, hregion, Option.map_eq_map, Option.map_some]
      · rw [typeOfGate_put, Option.any_some, ht]
    rw [if_neg hroom, if_pos hself]

/-- The number is not too large. -/
def NotAbove (F : LeafFunction) (s : LeafState) (n : TGates) : Prop :=
  n.tgates ≤ (tSteps F.body s.placed).card

/-- **The step.** The number is never too large, and it is right after a step exactly if it was
right before and the step is no first `T` gate of a timestep that is there. -/
theorem Filling.tgates_step {p : ℕ} (h : Filling C F s rest) (hn : NotAbove F s n)
    (hg : F.body[k]? = some g) (hk : s.placed.slot k = none) (hs : Sets d k g s x s') :
    NotAbove F s' (noteT d F.body s (k, p) s' n) ∧
      ((noteT d F.body s (k, p) s' n).tgates = (tSteps F.body s'.placed).card ↔
        n.tgates = (tSteps F.body s.placed).card ∧ FindsT F s k s') := by
  have hslot : s'.placed.slot k = some x := by rw [hs.placed, Placement.slot_place_self]
  have hfinds : FindsT F s k s' ↔
      (runsT g → x.1 < s.table.currArrParGates.length → x.1 ∈ tSteps F.body s.placed) := by
    constructor
    · exact fun hall hT ↦ hall g x hg hT hslot
    · intro himp g' x' hg' hT hx'
      cases hg.symm.trans hg'
      cases hslot.symm.trans hx'
      exact himp hT
  obtain ⟨t, ht, henters⟩ := hs.enters
  have hisT := isT_eq ht
  rw [NotAbove] at hn ⊢
  rw [hfinds, noteT_eq hg ht hslot, tSteps_of_sets hg hk hs]
  by_cases hT : runsT g
  · rw [hT] at hisT
    rw [if_pos hT]
    rcases henters.le_length.lt_or_eq with hlt | heq
    · -- a timestep that is there
      rw [tgates_put_of_old hisT henters hlt]
      by_cases hmem : x.1 ∈ tSteps F.body s.placed
      · rw [Finset.insert_eq_of_mem hmem]
        exact ⟨hn, (and_iff_left fun _ _ ↦ hmem).symm⟩
      · rw [Finset.card_insert_of_notMem hmem]
        refine ⟨hn.trans (Nat.le_succ _), ⟨fun heq ↦ ?_, fun hall ↦ absurd (hall.2 hT hlt) hmem⟩⟩
        omega
    · -- a new timestep
      have hnew : x.1 ∉ tSteps F.body s.placed := fun hmem ↦ (h.lt_length hmem).ne heq
      rw [put_of_new hisT (List.getElem?_eq_none heq.ge), Finset.card_insert_of_notMem hnew]
      refine ⟨Nat.succ_le_succ hn, ⟨fun hincr ↦ ⟨Nat.succ.inj hincr, fun _ hlt ↦ ?_⟩,
        fun hall ↦ congrArg Nat.succ hall.1⟩⟩
      exact absurd heq hlt.ne
  · have hput : n.put d t s.table x = n := by
      rw [TGates.put, if_neg fun h ↦ hT (hisT ▸ h)]
    rw [hput, if_neg hT]
    exact ⟨hn, (and_iff_left fun h ↦ absurd h hT).symm⟩

theorem schedule_of_counted (h : scheduleCounted C S F = .ok (s, n)) : schedule C S F = .ok s := by
  obtain ⟨⟨T, insts⟩, hprio, hrun⟩ := bind_eq_ok.mp h
  refine bind_eq_ok.mpr ⟨(T, insts), hprio, ?_⟩
  dsimp only
  rw [placeAll_eq_foldlM]
  exact foldlM_of_tally hrun

/-- **When the reported T-depth is right**: if no `T` or `Tdag` gate goes to a timestep that is
there without one in it. -/
theorem tgates_iff (hC : 1 ≤ C.RES_CONSTRAINT) (h : scheduleCounted C S F = .ok (s, n)) :
    n.tgates = (tSteps F.body s.placed).card ↔
      ∀ s k s', F.Step C S s k s' → FindsT F s k s' := by
  obtain ⟨⟨T, insts⟩, hprio, hrun⟩ := bind_eq_ok.mp h
  have hstep : ∀ {c c' : LeafState × TGates} {inst rest},
      Filling C F c.1 (inst :: rest) ∧ NotAbove F c.1 c.2 →
      tally (placeInst C F.body) (noteT C.DATA_CONSTRAINT F.body) c inst = .ok c' →
        Filling C F c'.1 rest ∧ NotAbove F c'.1 c'.2 ∧
          (c'.2.tgates = (tSteps F.body c'.1.placed).card ↔
            c.2.tgates = (tSteps F.body c.1.placed).card ∧ FindsT F c.1 inst.1 c'.1) := by
    rintro ⟨s, n⟩ ⟨s', n'⟩ ⟨k, p⟩ rest ⟨hfill, hn⟩ hc
    obtain ⟨hs, hn'⟩ := tally_eq_ok.mp hc
    dsimp only at hs hn' hn
    obtain ⟨hfill', hk, g, x, hg, hsets⟩ := hfill.step hC hs
    rw [hn']
    exact ⟨hfill', hfill.tgates_step hn hg hk hsets⟩
  have hzero : TGates.zero.tgates = (tSteps F.body Placement.empty).card := by
    rw [eq_comm, TGates.zero, Finset.card_eq_zero, Finset.eq_empty_iff_forall_notMem]
    rintro i hi
    obtain ⟨k, g, -, -, htime⟩ := mem_tSteps.mp hi
    cases htime
  have hstart : Filling C F ⟨T.reset 0, .empty, true, .empty⟩ (S.sort insts).reverse ∧
      NotAbove F ⟨T.reset 0, .empty, true, .empty⟩ .zero :=
    ⟨filling_start hprio, hzero.le⟩
  have hsteps := tally_iff_steps (I := fun c rest ↦ Filling C F c.1 rest ∧ NotAbove F c.1 c.2)
    (P := fun c ↦ c.2.tgates = (tSteps F.body c.1.placed).card)
    (G := fun s inst s' ↦ FindsT F s inst.1 s')
    (c := (⟨T.reset 0, .empty, true, .empty⟩, .zero))
    (fun c inst rest c' hI hc ↦ ⟨(hstep hI hc).1, (hstep hI hc).2.1⟩)
    (fun c inst rest c' hI hc ↦ (hstep hI hc).2.2) hstart hrun
  rw [hsteps, and_iff_right hzero]
  constructor
  · rintro hall s k s' ⟨T', insts', p, hprio', hstep'⟩
    rw [hprio] at hprio'
    cases hprio'
    exact hall s (k, p) s' hstep'
  · exact fun hall s inst s' hstep' ↦ hall s inst.1 s' ⟨T, insts, inst.2, hprio, hstep'⟩

/-- A gate of one qubit and a `T` gate of another. -/
def hadamardAndT : LeafFunction :=
  ⟨[], [("q".toList, .qbit)], [.gate1 .H ⟨"q".toList, .qbit, some 0⟩,
    .gate1 .T ⟨"q".toList, .qbit, some 1⟩], by simp⟩

/-- With two regions the `T` gate goes to the second region of the first timestep, and is not
counted. -/
theorem not_tgates_hadamardAndT :
    ¬ ∀ (C : Constraints) (S : PrioritySort) (F : LeafFunction) (s : LeafState) (n : TGates),
      1 ≤ C.RES_CONSTRAINT → scheduleCounted C S F = .ok (s, n) →
        n.tgates = (tSteps F.body s.placed).card := by
  intro hall
  have hrun : (scheduleCounted ⟨2, 1024⟩ .stable hadamardAndT).toOption.map
      (fun c ↦ (c.2.tgates, (tSteps hadamardAndT.body c.1.placed).card)) = some (0, 1) := by
    decide +kernel
  cases hs : scheduleCounted ⟨2, 1024⟩ .stable hadamardAndT with
  | error e =>
    rw [hs] at hrun
    cases hrun
  | ok c =>
    rw [hs] at hrun
    obtain ⟨hzero, hone⟩ := Prod.mk.inj (Option.some.inj hrun)
    have heq := hall ⟨2, 1024⟩ .stable hadamardAndT c.1 c.2 (by decide) hs
    omega

/-- With one region it gets a timestep of its own. -/
theorem tgates_iff_hadamardAndT :
    ∃ s n, scheduleCounted ⟨1, 1024⟩ .stable hadamardAndT = .ok (s, n) ∧
      (n.tgates = (tSteps hadamardAndT.body s.placed).card ↔
        ∀ s k s', hadamardAndT.Step ⟨1, 1024⟩ .stable s k s' → FindsT hadamardAndT s k s') := by
  have hrun : (scheduleCounted ⟨1, 1024⟩ .stable hadamardAndT).toOption.isSome := by
    decide +kernel
  cases hs : scheduleCounted ⟨1, 1024⟩ .stable hadamardAndT with
  | error e =>
    rw [hs] at hrun
    cases hrun
  | ok c => exact ⟨c.1, c.2, rfl, tgates_iff (C := ⟨1, 1024⟩) le_rfl hs⟩

end ScaffCC.GenSimd
