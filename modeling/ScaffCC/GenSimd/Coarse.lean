import ScaffCC.GenSimd.Calls
import ScaffCC.GenSimd.LeafRight
import ScaffCC.GenSimd.TDepth
import ScaffCC.Scheduling.Jobs

/-!
# Coarse-grain scheduling

In a function that calls others the pass schedules the calls as they are, each with the number of
regions and of timesteps it was found to take. It fills one batch after the other: a call joins the
current batch if its operands are ready before the batch ends and there are regions left, and
otherwise it starts a new batch where the current one ends. Operands are ready again when the batch
as it is then ends.

The lengths are 64-bit numbers and their sums can wrap around, as a chain of functions that call
each other twice doubles the length with each. A wrapped sum puts the end of the schedule before
calls that are still running. As long as no call ends after the last 64-bit timestep, all is right:
the batches do not overlap, each of them has regions enough, and operands are not ready before the
calls that use them are over.
-/

open Scheduling Fallible

namespace ScaffCC.GenSimd

open CriticalPath (Inst FuncQbits compute_max_ts_of_all_args update_timesteps find_map set_map
  set_entry set_top)

/-! ## The batches -/

/-- A sum of 64-bit numbers. -/
def add64 (a b : ℕ) : ℕ := (a + b) % 2 ^ 64

/-- What is known of a function, and what is kept of the batches: the regions and timesteps, and the
timesteps with `T` gates. -/
structure ModularInfo where
  width : ℕ
  length : ℕ
  tgates : ℕ
  tgates_ub : ℕ
  tgates_par : ℕ
  tgates_par_ub : ℕ
  deriving DecidableEq, Repr

/-- Nothing at all. -/
def ModularInfo.zero : ModularInfo := ⟨0, 0, 0, 0, 0, 0⟩

/-- A gate takes one region, and a `T` gate a hundred timesteps. -/
def intrinsicInfo (g : GateCall CriticalPath.Operand) : ModularInfo :=
  if runsT g then ⟨1, 100, 1, 1, 1, 1⟩ else ⟨1, 1, 0, 0, 0, 0⟩

/-- What is known of what is called, if the function was scheduled before. -/
def moduleInfo (funcInfo : Ident → Option ModularInfo) : Inst → Option ModularInfo
  | .gate g => some (intrinsicInfo g)
  | .call qFunc _ => funcInfo qFunc

/-- The batches that are full, and the current one. -/
structure Batches where
  totalSched : ModularInfo
  currSched : ModularInfo

/-- The current batch is full, and a call starts the next one. -/
def Batches.serialize (m : ModularInfo) (s : Batches) : Batches where
  totalSched :=
    { width := max s.totalSched.width s.currSched.width
      length := add64 s.totalSched.length s.currSched.length
      tgates := add64 s.totalSched.tgates s.currSched.tgates
      tgates_ub := add64 s.totalSched.tgates_ub s.currSched.tgates_ub
      tgates_par := max s.totalSched.tgates_par s.currSched.tgates_par
      tgates_par_ub := max s.totalSched.tgates_par_ub s.currSched.tgates_par_ub }
  currSched := m

/-- A call joins the current batch at a timestep. -/
def Batches.parallelize (m : ModularInfo) (first_step : ℕ) (s : Batches) : Batches :=
  let width := s.currSched.width + m.width
  let length := max (add64 (first_step - s.totalSched.length) m.length) s.currSched.length
  { totalSched := s.totalSched
    currSched :=
      { width := width
        length := length
        tgates := max m.tgates s.currSched.tgates
        tgates_ub := min (add64 m.tgates_ub s.currSched.tgates_ub) length
        tgates_par := max m.tgates_par s.currSched.tgates_par
        tgates_par_ub := min (add64 m.tgates_par_ub s.currSched.tgates_par_ub) width } }

/-- A call gets its timestep, from `ts` on. The result is the last timestep in use, the first one of
the call, and the batches. Widths are at most `K`, an `unsigned`, so that their sums do not wrap. -/
def get_ts_to_schedule (K ts : ℕ) (m : ModularInfo) (s : Batches) : ℕ × ℕ × Batches :=
  let total := s.totalSched.length
  let (first_step, s) :=
    if ts < add64 total s.currSched.length then
      if m.width + s.currSched.width ≤ K then (max ts total, s.parallelize m (max ts total))
      else (add64 total s.currSched.length, s.serialize m)
    else (add64 total s.currSched.length, s.serialize m)
  (add64 (add64 s.totalSched.length s.currSched.length) (2 ^ 64 - 1), first_step, s)

/-! ## Sequences of calls -/

/-- A call with the timestep that was asked for and the one it got. -/
structure PlacedCall where
  inst : Inst
  ts : ℕ
  first_step : ℕ
  info : ModularInfo
  deriving DecidableEq, Repr

/-- The time a call takes, and its regions. -/
def PlacedCall.job (c : PlacedCall) : Job := ⟨c.first_step, c.info.length, c.info.width⟩

/-- The batches, and the calls placed so far. -/
structure CoarseState extends Batches where
  placed : List PlacedCall

/-- Before the first call. -/
def CoarseState.start : CoarseState := ⟨⟨.zero, .zero⟩, []⟩

/-- The search for the timestep of a call. A function that was not scheduled before stops it. -/
def placer (K : ℕ) (funcInfo : Ident → Option ModularInfo) : Calls.Placer CoarseState :=
  fun s ts x ↦ (moduleInfo funcInfo x).map fun m ↦
    let (last, first_step, batches) := get_ts_to_schedule K ts m s.toBatches
    (last, ⟨batches, s.placed ++ [⟨x, ts, first_step, m⟩]⟩)

/-- A sequence of calls. An intrinsic measures one qubit, never an array. -/
structure CallSequence where
  calls : List Inst
  meas_elem : ∀ b q, Inst.gate (.meas b q) ∈ calls → q.index ≠ none

abbrev placeCall (asserts : Bool) (K : ℕ) (funcInfo : Ident → Option ModularInfo) :=
  Calls.calc_critical_time asserts (placer K funcInfo)

/-- The state before the first call, with the arrays that have times. -/
def coarseStart (T : FuncQbits) : Calls.State CoarseState := ⟨T.reset 0, true, .start⟩

/-- Two calls share a qubit. -/
def Shares (x y : Inst) : Prop :=
  ∃ a ∈ x.operands.map Operand.access, ∃ b ∈ y.operands.map Operand.access, Overlap a b

/-- No call starts before the timestep that was asked for. Calls that share a qubit are not running
at the same time, and those that are running never take more than `K` regions. -/
structure CoarseRight (K : ℕ) (placed : List PlacedCall) : Prop where
  notBefore : ∀ c ∈ placed, c.ts ≤ c.first_step
  apart : placed.Pairwise fun c d ↦ Shares c.inst d.inst → c.job.Apart d.job
  capacity : ∀ τ, load (placed.map PlacedCall.job) τ ≤ K

/-- The timestep from which on all operands of a call are free. The first measurement waits for all
that came before. -/
def requested (s : Calls.State CoarseState) (x : Inst) : ℕ :=
  if s.isFirstMeas && x.isMeasurement then s.funcQbits.latest
  else s.funcQbits.lastUses (x.operands.map Operand.access)

/-- Where a call is placed when nothing wraps around. -/
def startOf (K ts : ℕ) (m : ModularInfo) (s : Batches) : ℕ :=
  if ts < s.totalSched.length + s.currSched.length ∧ m.width + s.currSched.width ≤ K then
    max ts s.totalSched.length
  else s.totalSched.length + s.currSched.length

/-- The call is over when the 64-bit timesteps end. -/
def EndsInRange (K : ℕ) (funcInfo : Ident → Option ModularInfo) (s : Calls.State CoarseState)
    (x : Inst) : Prop :=
  ∀ m, moduleInfo funcInfo x = some m →
    startOf K (requested s x) m s.slots.toBatches + m.length < 2 ^ 64

variable {asserts : Bool} {K ts : ℕ} {funcInfo : Ident → Option ModularInfo} {m : ModularInfo}
  {b : Batches} {s s' : Calls.State CoarseState} {x y : Inst} {T : FuncQbits}

/-! ## One call -/

theorem add64_eq {a b : ℕ} (h : a + b < 2 ^ 64) : add64 a b = a + b := Nat.mod_eq_of_lt h

/-- The end of the current batch. -/
def Batches.stop (b : Batches) : ℕ := b.totalSched.length + b.currSched.length

/-- The batches hold some jobs, and no timestep is beyond the 64-bit ones. -/
structure Holds64 (K : ℕ) (b : Batches) (jobs : List Job) : Prop where
  range : b.stop < 2 ^ 64
  batched : Batched K b.totalSched.length b.stop b.currSched.width jobs

theorem holds64_start : Holds64 K CoarseState.start.toBatches [] := ⟨by decide, batched_nil⟩

/-- What a call of `get_ts_to_schedule` does when nothing wraps around. -/
structure Schedules (K ts : ℕ) (m : ModularInfo) (b : Batches) (jobs : List Job)
    (r : ℕ × ℕ × Batches) : Prop where
  notBefore : ts ≤ r.2.1
  last : r.1 + 1 = r.2.2.stop
  stop_le : b.stop ≤ r.2.2.stop
  job_le : r.2.1 + m.length ≤ r.2.2.stop
  holds : Holds64 K r.2.2 (jobs ++ [⟨r.2.1, m.length, m.width⟩])
  serial : ts = b.stop → b.stop ≤ r.1

theorem add64_pred {n : ℕ} (hpos : 0 < n) (hn : n < 2 ^ 64) : add64 n (2 ^ 64 - 1) + 1 = n := by
  rw [add64]
  omega

theorem schedules_serialize {jobs : List Job} (h : Holds64 K b jobs) (hts : ts ≤ b.stop)
    (hwidth : m.width ≤ K) (hpos : 0 < m.length) (hrange : b.stop + m.length < 2 ^ 64) :
    Schedules K ts m b jobs
      (add64 (add64 (b.serialize m).totalSched.length m.length) (2 ^ 64 - 1), b.stop,
        b.serialize m) := by
  have htotal : (b.serialize m).totalSched.length = b.stop := add64_eq h.range
  have hstop : (b.serialize m).stop = b.stop + m.length := by
    rw [Batches.stop, htotal]
    rfl
  have hlast : add64 (add64 (b.serialize m).totalSched.length m.length) (2 ^ 64 - 1) + 1
      = b.stop + m.length := by
    rw [htotal, add64_eq hrange]
    exact add64_pred (by omega) hrange
  have hbatch := h.batched.serial (j := ⟨b.stop, m.length, m.width⟩) rfl hwidth
  refine ⟨hts, hlast.trans hstop.symm, ?_, hstop.ge, ⟨hstop.trans_lt hrange, ?_⟩, fun _ ↦ ?_⟩
  · exact hstop ▸ Nat.le_add_right ..
  · rw [htotal, hstop]
    exact hbatch
  · dsimp only
    omega

theorem schedules_parallelize {jobs : List Job} (h : Holds64 K b jobs) (hts : ts < b.stop)
    (hwidth : m.width + b.currSched.width ≤ K)
    (hrange : max ts b.totalSched.length + m.length < 2 ^ 64) :
    Schedules K ts m b jobs
      (add64 (add64 b.totalSched.length
          (b.parallelize m (max ts b.totalSched.length)).currSched.length) (2 ^ 64 - 1),
        max ts b.totalSched.length, b.parallelize m (max ts b.totalSched.length)) := by
  have hb := h.range
  have hbstop : b.stop = b.totalSched.length + b.currSched.length := rfl
  have hlen : add64 (max ts b.totalSched.length - b.totalSched.length) m.length
      = max ts b.totalSched.length - b.totalSched.length + m.length := add64_eq (by omega)
  have hcurr : (b.parallelize m (max ts b.totalSched.length)).currSched.length
      = max (max ts b.totalSched.length - b.totalSched.length + m.length) b.currSched.length := by
    rw [← hlen]
    rfl
  have hstop : (b.parallelize m (max ts b.totalSched.length)).stop
      = max b.stop (max ts b.totalSched.length + m.length) := by
    rw [Batches.stop, hcurr, hbstop]
    change b.totalSched.length + _ = _
    omega
  have hsum : add64 b.totalSched.length
      (b.parallelize m (max ts b.totalSched.length)).currSched.length
        = (b.parallelize m (max ts b.totalSched.length)).stop := by
    refine add64_eq ?_
    rw [hcurr]
    omega
  have hbatch := h.batched.join (j := ⟨max ts b.totalSched.length, m.length, m.width⟩)
    (le_max_right ..) ((Nat.add_comm ..).trans_le hwidth)
  refine ⟨le_max_left .., ?_, ?_, ?_, ⟨?_, ?_⟩, fun heq ↦ absurd heq hts.ne⟩
  · rw [hsum]
    exact add64_pred (by rw [hstop]; omega) (by rw [hstop]; omega)
  · exact hstop ▸ le_max_left ..
  · exact hstop ▸ le_max_right ..
  · rw [hstop]
    omega
  · rw [hstop]
    exact hbatch

/-- **One call.** It gets a timestep from the one that was asked for on, with regions enough. -/
theorem schedules_of_range {jobs : List Job} (h : Holds64 K b jobs) (hts : ts ≤ b.stop)
    (hwidth : m.width ≤ K) (hpos : 0 < m.length) (hrange : startOf K ts m b + m.length < 2 ^ 64) :
    Schedules K ts m b jobs (get_ts_to_schedule K ts m b) := by
  have hsum : add64 b.totalSched.length b.currSched.length = b.stop := add64_eq h.range
  rw [startOf] at hrange
  rw [get_ts_to_schedule, hsum]
  by_cases hlt : ts < b.stop
  · by_cases hroom : m.width + b.currSched.width ≤ K
    · rw [if_pos ⟨hlt, hroom⟩] at hrange
      rw [if_pos hlt, if_pos hroom]
      exact schedules_parallelize h hlt hroom hrange
    · rw [if_neg fun hboth ↦ hroom hboth.2] at hrange
      rw [if_pos hlt, if_neg hroom]
      exact schedules_serialize h hts hwidth hpos hrange
  · rw [if_neg fun hboth ↦ hlt hboth.1] at hrange
    rw [if_neg hlt]
    exact schedules_serialize h hts hwidth hpos hrange

/-! ## The run -/

/-- What is used by a call. -/
abbrev operandsOf (x : Inst) : List (Access Ident ℕ) := x.operands.map Operand.access

/-- What a call that is placed leaves. -/
structure Placed (K : ℕ) (funcInfo : Ident → Option ModularInfo) (s : Calls.State CoarseState)
    (x : Inst) (m : ModularInfo) (r : ℕ × ℕ × Batches) (s' : Calls.State CoarseState) : Prop where
  info : moduleInfo funcInfo x = some m
  found : r = get_ts_to_schedule K (requested s x) m s.slots.toBatches
  slots : s'.slots = ⟨r.2.2, s.slots.placed ++ [⟨x, requested s x, r.2.1, m⟩]⟩
  names : ∀ a ∈ operandsOf x, a.1 ∈ s.funcQbits.names
  lastUse : s.funcQbits.Capped → ∀ a ∈ operandsOf x, s.funcQbits.lastUse a ≤ requested s x
  advances : s.funcQbits.Capped → (∀ a ∈ operandsOf x, s.funcQbits.lastUse a ≤ r.1 + 1) →
    (requested s x = s.funcQbits.latest → s.funcQbits.latest ≤ r.1) →
      Advances s.funcQbits s'.funcQbits (r.1 + 1) (operandsOf x)

theorem placer_eq_some {t : CoarseState} {n : ℕ} {t' : CoarseState}
    (h : placer K funcInfo t ts x = some (n, t')) :
    ∃ m r, moduleInfo funcInfo x = some m ∧ r = get_ts_to_schedule K ts m t.toBatches ∧
      n = r.1 ∧ t' = ⟨r.2.2, t.placed ++ [⟨x, ts, r.2.1, m⟩]⟩ := by
  obtain ⟨m, hm, heq⟩ := Option.map_eq_some_iff.mp h
  obtain ⟨rfl, rfl⟩ := Prod.mk.inj heq
  exact ⟨m, _, hm, rfl, rfl, rfl⟩

/-- The entry of an element and that for the latest time are overwritten. -/
theorem set_map_eq_record {q : CriticalPath.Operand} {i n : ℕ} (hi : q.index = some i) :
    set_map (T.reset n) q.name (set_top (set_entry ((T.reset n).clock q.name) (n + 1) q.index)
      (n + 1)) = (T.reset n).record (n + 1) q.access := by
  have htop : max n (n + 1) = n + 1 := max_eq_right (Nat.le_succ n)
  rw [Operand.access, hi]
  simp only [set_map, set_top, set_entry, Clocks.record, ArrayClock.record, Clocks.reset,
    ArrayClock.reset, htop]

theorem placed_first {q : CriticalPath.Operand}
    (hx : x.operands = [q]) (hq : q.index ≠ none) (hmeas : s.isFirstMeas && x.isMeasurement)
    (h : Calls.first_measurement asserts (placer K funcInfo) s x q = .ok s') :
    ∃ m r, Placed K funcInfo s x m r s' := by
  have hreq : requested s x = s.funcQbits.latest := if_pos hmeas
  obtain ⟨i, hi⟩ := Option.ne_none_iff_exists'.mp hq
  rw [Calls.first_measurement, ← hreq] at h
  cases hplace : placer K funcInfo s.slots (requested s x) x with
  | none =>
    rw [hplace] at h
    cases h
  | some r =>
    obtain ⟨n, slots⟩ := r
    obtain ⟨m, r, hm, hr, rfl, rfl⟩ := placer_eq_some hplace
    rw [hplace] at h
    obtain ⟨c, hc, h⟩ := bind_eq_ok.mp h
    obtain ⟨-, -, h⟩ := bind_eq_ok.mp h
    obtain ⟨-, -, h⟩ := bind_eq_ok.mp h
    rw [find_map] at hc
    split at hc
    · next hname =>
      cases hc
      cases h
      have hmem : q.name ∈ s.funcQbits.names := List.contains_iff_mem.mp hname
      refine ⟨m, r, hm, hr, rfl, ?_, fun hT a ha ↦ ?_, fun hT _ hlatest ↦ ?_⟩
      · rw [operandsOf, hx]
        exact List.forall_mem_singleton.mpr hmem
      · rw [operandsOf, hx] at ha
        rw [List.mem_singleton.mp ha, hreq]
        exact (hT _).lastUse_le.trans (Clocks.top_le_latest hmem)
      · rw [operandsOf, hx]
        have hadv := advances_reset (a := q.access) hT (hlatest hreq)
        rw [← set_map_eq_record hi] at hadv
        exact hadv
    · cases asserts <;> cases hc

theorem placed_other {q : CriticalPath.Operand} {qs : List CriticalPath.Operand}
    (hx : x.operands = q :: qs) (hmeas : ¬ (s.isFirstMeas && x.isMeasurement))
    (h : placeCall asserts K funcInfo s x = .ok s') : ∃ m r, Placed K funcInfo s x m r s' := by
  have hreq : requested s x = s.funcQbits.lastUses (operandsOf x) := if_neg hmeas
  rw [placeCall, Calls.calc_critical_time, hx] at h
  dsimp only at h
  rw [if_neg hmeas] at h
  obtain ⟨⟨T₁, ts⟩, hmax, h⟩ := bind_eq_ok.mp h
  have hnames : ∀ q' ∈ q :: qs, q'.name ∈ s.funcQbits.names := by
    by_contra hnot
    rw [(Calls.yields_compute_max 0).error hnot] at hmax
    cases hmax
  rw [CriticalPath.compute_max_eq hnames] at hmax
  cases hmax
  rw [← hx] at hnames h
  dsimp only at h
  rw [← Clocks.lastUses, ← hreq] at h
  cases hplace : placer K funcInfo s.slots (requested s x) x with
  | none =>
    rw [hplace] at h
    cases h
  | some r =>
    obtain ⟨n, slots⟩ := r
    obtain ⟨m, r, hm, hr, rfl, rfl⟩ := placer_eq_some hplace
    rw [hplace] at h
    cases h
    refine ⟨m, r, hm, hr, rfl, fun a ha ↦ ?_, fun _ a ha ↦ ?_, fun hT hle _ ↦ ?_⟩
    · obtain ⟨q, hq, rfl⟩ := List.mem_map.mp ha
      exact hnames q hq
    · rw [hreq]
      exact (Clocks.lastUses_spec s.funcQbits (operandsOf x)).1 a ha
    · rw [CriticalPath.update_timesteps_eq]
      exact advances_use hT hle

/-- A call without quantum operands changes nothing, and any other call is placed. -/
theorem placed_of_ok (helem : ∀ b q, x = .gate (.meas b q) → q.index ≠ none)
    (h : placeCall asserts K funcInfo s x = .ok s') :
    s' = s ∨ x.operands ≠ [] ∧ ∃ m r, Placed K funcInfo s x m r s' := by
  cases hops : x.operands with
  | nil =>
    rw [placeCall, Calls.calc_critical_time, hops] at h
    cases h
    exact .inl rfl
  | cons q qs =>
    refine .inr ⟨List.cons_ne_nil q qs, ?_⟩
    by_cases hmeas : s.isFirstMeas && x.isMeasurement
    · rw [placeCall, Calls.calc_critical_time, hops] at h
      dsimp only at h
      rw [if_pos hmeas] at h
      cases x with
      | gate g =>
        obtain ⟨b, q', rfl⟩ := exists_of_isMeas (Bool.and_eq_true _ _ ▸ hmeas).2
        cases hops
        exact placed_first rfl (helem b q rfl) hmeas h
      | call f ops => exact absurd (Bool.and_eq_true _ _ ▸ hmeas).2 Bool.false_ne_true
    · exact placed_other hops hmeas h

/-- What holds after every call. -/
structure CoarseInv (K : ℕ) (s : Calls.State CoarseState) : Prop where
  capped : s.funcQbits.Capped
  within : s.funcQbits.Within s.slots.stop
  latest : s.slots.stop ≤ s.funcQbits.latest
  holds : Holds64 K s.slots.toBatches (s.slots.placed.map PlacedCall.job)
  covers : ∀ c ∈ s.slots.placed, ∀ a ∈ operandsOf c.inst,
    a.1 ∈ s.funcQbits.names ∧ s.funcQbits.Covers c.job.stop a
  notBefore : ∀ c ∈ s.slots.placed, c.ts ≤ c.first_step
  apart : s.slots.placed.Pairwise fun c d ↦ Shares c.inst d.inst → c.job.Apart d.job

theorem coarseInv_start : CoarseInv K (coarseStart T) :=
  ⟨Clocks.capped_reset, Clocks.within_reset, Nat.zero_le _, holds64_start,
    List.forall_mem_nil _, List.forall_mem_nil _, List.Pairwise.nil⟩

/-- No operand is asked for after the end of the batch. -/
theorem CoarseInv.requested_le (h : CoarseInv K s) (x : Inst) :
    requested s x ≤ s.slots.stop := by
  rw [requested]
  split_ifs
  · exact Clocks.latest_le h.within
  · rcases (Clocks.lastUses_spec s.funcQbits (operandsOf x)).2 with hzero | ⟨a, -, ha⟩
    · rw [hzero]
      exact Nat.zero_le _
    · rw [← ha]
      exact h.capped.lastUse_le h.within

/-- **The step.** A call of a width and a length that is over in range is placed as it should be. -/
theorem CoarseInv.step {r : ℕ × ℕ × Batches} (h : CoarseInv K s) (hops : x.operands ≠ [])
    (hp : Placed K funcInfo s x m r s') (hwidth : m.width ≤ K) (hpos : 0 < m.length)
    (hrange : EndsInRange K funcInfo s x) : CoarseInv K s' := by
  have hsched := schedules_of_range h.holds (h.requested_le x) hwidth hpos (hrange m hp.info)
  rw [← hp.found] at hsched
  have hlast := hp.lastUse h.capped
  have hle : ∀ a ∈ operandsOf x, s.funcQbits.lastUse a ≤ r.1 + 1 := fun a _ ↦
    (h.capped.lastUse_le h.within).trans (hsched.stop_le.trans_eq hsched.last.symm)
  have hend : s.funcQbits.latest = s.slots.stop := (Clocks.latest_le h.within).antisymm h.latest
  have hadv := hp.advances h.capped hle fun hreq ↦ by
    rw [hend] at hreq ⊢
    exact hsched.serial hreq
  rw [hsched.last] at hadv
  have hslots : s'.slots.stop = r.2.2.stop := by rw [hp.slots]
  have hplaced : s'.slots.placed = s.slots.placed ++ [⟨x, requested s x, r.2.1, m⟩] := by
    rw [hp.slots]
  refine ⟨hadv.capped, ?_, ?_, ?_, ?_, ?_, ?_⟩
  · rw [hslots]
    exact hadv.within _ (fun n ↦ (h.within n).trans hsched.stop_le) le_rfl
  · -- an operand of the call is free when the batch ends
    obtain ⟨a, ha⟩ := List.exists_mem_of_ne_nil _ (mt List.map_eq_nil_iff.mp hops :
      operandsOf x ≠ [])
    rw [hslots]
    calc r.2.2.stop
      _ ≤ s'.funcQbits.lastUse a :=
        (hadv.self a ha).le_lastUse hadv.capped ⟨rfl, .inr (.inr rfl)⟩
      _ ≤ (s'.funcQbits.clock a.1).top := (hadv.capped a.1).lastUse_le
      _ ≤ s'.funcQbits.latest := Clocks.top_le_latest (hadv.names ▸ hp.names a ha)
  · rw [hplaced, List.map_append, hp.slots]
    exact hsched.holds
  · rw [hplaced, List.forall_mem_append, List.forall_mem_singleton, hadv.names]
    refine ⟨fun c hc a ha ↦ ?_, fun a ha ↦ ⟨hp.names a ha, ?_⟩⟩
    · obtain ⟨hname, hcov⟩ := h.covers c hc a ha
      exact ⟨hname, hadv.covers _ a hname hcov⟩
    · exact (hadv.self a ha).mono hsched.job_le
  · rw [hplaced, List.forall_mem_append, List.forall_mem_singleton]
    exact ⟨h.notBefore, hsched.notBefore⟩
  · rw [hplaced, List.pairwise_append]
    refine ⟨h.apart, List.pairwise_singleton .., fun c hc d hd ↦ ?_⟩
    rw [List.mem_singleton.mp hd]
    -- a call with a shared operand is over when the operand is free
    rintro ⟨a, ha, b, hb, hab⟩
    left
    calc c.job.stop
      _ ≤ s.funcQbits.lastUse b := (h.covers c hc a ha).2.le_lastUse h.capped hab
      _ ≤ requested s x := hlast b hb
      _ ≤ r.2.1 := hsched.notBefore

theorem CoarseInv.right (h : CoarseInv K s) : CoarseRight K s.slots.placed :=
  ⟨h.notBefore, h.apart, h.holds.batched.load_le⟩

/-- **Every sequence of calls is scheduled as it should be, as long as no call ends beyond the
64-bit timesteps.** The same holds after every beginning of the sequence, as that is a sequence of
calls too. -/
theorem coarseRight_of_inRange (W : CallSequence)
    (hcalls : ∀ x ∈ W.calls, ∀ m, moduleInfo funcInfo x = some m → m.width ≤ K ∧ 0 < m.length)
    (hrun : W.calls.foldlM (placeCall asserts K funcInfo) (coarseStart T) = .ok s)
    (hrange : ∀ t x t', IsStep (placeCall asserts K funcInfo) (coarseStart T) W.calls t x t' →
      EndsInRange K funcInfo t x) : CoarseRight K s.slots.placed := by
  refine (foldlM_of_steps (P := CoarseInv K) (G := EndsInRange K funcInfo)
    (fun s x hx s' hs hstep hin ↦ ?_) coarseInv_start hrun hrange).right
  rcases placed_of_ok (fun b q heq ↦ W.meas_elem b q (heq ▸ hx)) hstep with
    rfl | ⟨hops, m, r, hplaced⟩
  · exact hs
  · obtain ⟨hwidth, hpos⟩ := hcalls x hx m hplaced.info
    exact hs.step hops hplaced hwidth hpos hin

/-- The calls of a function are placed as such a sequence, in the order of falling priorities. -/
theorem exists_calls_of_schedule {S : PrioritySort} {F : CriticalPath.Func}
    (h : Calls.schedule asserts (placer K funcInfo) S .start F = .ok s) :
    ∃ (T : FuncQbits) (xs : List Inst), (∀ x ∈ xs, x ∈ F.body) ∧
      xs.foldlM (placeCall asserts K funcInfo) (coarseStart T) = .ok s := by
  obtain ⟨⟨T, insts⟩, -, hrun⟩ := bind_eq_ok.mp h
  -- the operations that are looked up one after the other
  have hlookup : ∀ (l : List InstPri) (s₀ : Calls.State CoarseState),
      l.foldlM (fun s inst ↦ CriticalPath.asserted asserts F.body[inst.1]? >>=
        placeCall asserts K funcInfo s) s₀ = .ok s →
      ∃ xs : List Inst, (∀ x ∈ xs, x ∈ F.body) ∧
        xs.foldlM (placeCall asserts K funcInfo) s₀ = .ok s := by
    intro l
    induction l with
    | nil => exact fun s₀ hs ↦ ⟨[], List.forall_mem_nil _, hs⟩
    | cons inst l ih =>
      intro s₀ hs
      rw [List.foldlM_cons] at hs
      obtain ⟨s₁, hs₁, hs⟩ := bind_eq_ok.mp hs
      obtain ⟨x, hx, hs₁⟩ := bind_eq_ok.mp hs₁
      obtain ⟨xs, hxs, hrest⟩ := ih s₁ hs
      have hmem : x ∈ F.body := by
        cases hget : F.body[inst.1]? with
        | none =>
          rw [hget] at hx
          cases hx
        | some y =>
          rw [hget] at hx
          cases hx
          exact List.mem_of_getElem? hget
      refine ⟨x :: xs, List.forall_mem_cons.mpr ⟨hmem, hxs⟩, ?_⟩
      rw [List.foldlM_cons, hs₁]
      exact hrest
  obtain ⟨xs, hxs, hplace⟩ := hlookup _ _ hrun
  exact ⟨T, xs, hxs, hplace⟩

/-! ## Lengths that wrap around -/

/-- A function by its length, of one region. -/
def lengthOf (n : ℕ) : ModularInfo := ⟨1, n, 0, 0, 0, 0⟩

/-- Three functions of one region. The first two together take five timesteps more than there are
64-bit numbers. -/
def longCalls (name : Ident) : Option ModularInfo :=
  if name = "f".toList then some (lengthOf (2 ^ 63))
  else if name = "g".toList then some (lengthOf (2 ^ 63 + 5))
  else some (lengthOf 1)

/-- A call of a function with one qubit. -/
def callOf (name : String) : Inst := .call name.toList [⟨"q".toList, .qbit, some 0⟩]

def oneArray : FuncQbits := ⟨["q".toList], fun _ ↦ .zero⟩

/-- One after the other is called with the same qubit. -/
def threeCalls : CallSequence where
  calls := [callOf "f", callOf "g", callOf "h"]
  meas_elem b q h := by simp [callOf] at h

/-- The third call starts while the first one is running. -/
theorem not_coarseRight_threeCalls :
    ¬ ∀ (asserts : Bool) (K : ℕ) (funcInfo : Ident → Option ModularInfo) (T : FuncQbits)
      (W : CallSequence) (s : Calls.State CoarseState),
      (∀ x ∈ W.calls, ∀ m, moduleInfo funcInfo x = some m → m.width ≤ K ∧ 0 < m.length) →
        W.calls.foldlM (placeCall asserts K funcInfo) (coarseStart T) = .ok s →
          CoarseRight K s.slots.placed := by
  intro hall
  have hplaced : (threeCalls.calls.foldlM (placeCall true 1 longCalls)
      (coarseStart oneArray)).toOption.map (fun s ↦ s.slots.placed)
        = some [⟨callOf "f", 0, 0, lengthOf (2 ^ 63)⟩,
          ⟨callOf "g", 2 ^ 63, 2 ^ 63, lengthOf (2 ^ 63 + 5)⟩,
          ⟨callOf "h", 5, 5, lengthOf 1⟩] := by
    decide +kernel
  have hcalls : ∀ x ∈ threeCalls.calls, ∀ m, moduleInfo longCalls x = some m →
      m.width ≤ 1 ∧ 0 < m.length := by
    have hinfo : ∀ x ∈ threeCalls.calls, (moduleInfo longCalls x).all
        fun m ↦ m.width ≤ 1 ∧ 0 < m.length := by
      decide +kernel
    intro x hx m hm
    have hm' := hinfo x hx
    rw [hm, Option.all_some, decide_eq_true_eq] at hm'
    exact hm'
  cases hs : threeCalls.calls.foldlM (placeCall true 1 longCalls) (coarseStart oneArray) with
  | error e =>
    rw [hs] at hplaced
    cases hplaced
  | ok s =>
    have hright := hall true 1 longCalls oneArray threeCalls s hcalls hs
    rw [hs] at hplaced
    have hapart := hright.apart
    rw [show s.slots.placed = _ from Option.some.inj hplaced] at hapart
    have hthird := (List.pairwise_cons.mp hapart).1 ⟨callOf "h", 5, 5, lengthOf 1⟩ (by simp)
    have hshares : Shares (callOf "f") (callOf "h") :=
      ⟨("q".toList, some 0), by decide, ("q".toList, some 0), by decide, by decide⟩
    exact absurd (hthird hshares) (by unfold Job.Apart; decide)

def oneGate : CallSequence where
  calls := [.gate (.gate1 .H ⟨"q".toList, .qbit, some 0⟩)]
  meas_elem b q h := by simp at h

theorem coarseRight_oneGate :
    ∃ s, oneGate.calls.foldlM (placeCall true 1 longCalls) (coarseStart oneArray) = .ok s ∧
      CoarseRight 1 s.slots.placed := by
  have hok : (oneGate.calls.foldlM (placeCall true 1 longCalls)
      (coarseStart oneArray)).toOption.isSome := by
    decide +kernel
  cases hs : oneGate.calls.foldlM (placeCall true 1 longCalls) (coarseStart oneArray) with
  | error e =>
    rw [hs] at hok
    cases hok
  | ok s =>
    refine ⟨s, rfl, coarseRight_of_inRange oneGate (fun x hx m hm ↦ ?_) hs ?_⟩
    · rw [List.mem_singleton.mp hx] at hm
      cases hm
      decide
    · rintro t x t' ⟨pre, post, hcalls, hpre, -⟩
      -- the first call is the only one
      cases pre with
      | nil =>
        cases hpre
        obtain ⟨rfl, -⟩ := List.cons.inj hcalls
        intro m hm
        cases hm
        decide +kernel
      | cons y pre =>
        obtain ⟨-, hnil⟩ := List.cons.inj hcalls
        exact absurd hnil (by simp)

end ScaffCC.GenSimd
