import ScaffCC.CriticalPath.Late

/-!
# The critical path of a leaf function

In a leaf function without measurements each gate gets the first time after the last uses of its
qubits, so that the latest time is the length of a longest chain of gates of which each shares a
qubit with the next one.

The length is reported after the gates of the first half were scheduled as late as possible. That
part has assertions that no gate is about a whole array. It looks at all gates but those at the
latest time, and not at all if the latest time is `3` or less.
-/

open Scheduling Fallible

namespace ScaffCC.CriticalPath

open GenSimd (fname isMeas)

variable {asserts : Bool}

/-- A leaf function without measurements. Each of its gates is about qubits of the function. -/
structure LeafFunc extends Func where
  gates : List (GateCall Operand)
  body_eq : body = gates.map Inst.gate
  noMeas : ∀ b q, GateCall.meas b q ∉ gates
  onQubits : ∀ g ∈ gates, (Inst.gate g).args ≠ []
  inTracked : ∀ g ∈ gates, ∀ q ∈ (Inst.gate g).args, q.name ∈ toFunc.tracked

/-! ## The times of the gates -/

/-- The time of a gate after others. -/
def LeafFunc.time (F : LeafFunc) (pre : List (GateCall Operand)) (g : GateCall Operand) : ℕ :=
  asapTime uses F.funcQbits pre g

/-- The gates so far have the times that are as soon as possible. -/
structure Timed (F : LeafFunc) (gates : List (GateCall Operand)) (s : State) : Prop where
  funcQbits : s.funcQbits = gates.foldl (asap uses) F.funcQbits
  isLeaf : s.isLeaf = true
  leaf : LeafInv s
  tsGates : ∀ t g, g ∈ s.tsGates t ↔ ∃ pre post, gates = pre ++ g :: post ∧ F.time pre g = t

variable {F : LeafFunc} {gates : List (GateCall Operand)} {s : State} {tables : Tables}

theorem timed_start : Timed F [] F.start := by
  refine ⟨rfl, rfl, leafInv_start F.toFunc, fun t g ↦ ⟨fun h ↦ absurd h List.not_mem_nil, ?_⟩⟩
  rintro ⟨pre, post, h, -⟩
  exact absurd h (by simp)

theorem isMeas_of_mem {g : GateCall Operand} (hg : g ∈ F.gates) : isMeas g = false := by
  rw [Bool.eq_false_iff]
  intro h
  obtain ⟨b, q, rfl⟩ := GenSimd.exists_of_isMeas h
  exact F.noMeas b q hg

theorem Timed.step (asserts : Bool) (tables : Tables) {g : GateCall Operand}
    (h : Timed F gates s) (hg : g ∈ F.gates) :
    ∃ s', calc_critical_time asserts tables s (.gate g) = .ok s' ∧ Timed F (gates ++ [g]) s' := by
  have hnames : ∀ q ∈ (Inst.gate g).args, q.name ∈ s.funcQbits.names := by
    rw [h.funcQbits, names_foldl_asap]
    exact F.inTracked g hg
  obtain ⟨q, qs, hargs⟩ := List.exists_cons_of_ne_nil (F.onQubits g hg)
  rw [calc_critical_time_gate hargs, isMeas_of_mem hg, Bool.and_false, if_neg Bool.false_ne_true]
  refine ⟨_, schedule_gate_eq hnames, ?_⟩
  have htime : s.funcQbits.lastUses (uses g) + 1 = F.time gates g := by
    rw [LeafFunc.time, asapTime, ← h.funcQbits]
  refine ⟨?_, ?_, h.leaf.gate h.isLeaf hnames, fun t g' ↦ ?_⟩
  · rw [List.foldl_append, List.foldl_cons, List.foldl_nil, h.funcQbits]
  · exact isLeaf_addToTSGates.trans h.isLeaf
  · have hold := h.tsGates t g'
    -- the new gate is the last one, and has a time of its own
    have hnew : (∃ pre post, gates ++ [g] = pre ++ g' :: post ∧ F.time pre g' = t) ↔
        (∃ pre post, gates = pre ++ g' :: post ∧ F.time pre g' = t) ∨
          g = g' ∧ F.time gates g = t := by
      constructor
      · rintro ⟨pre, post, heq, ht⟩
        rcases append_eq_concat.mp heq with ⟨post', -, rfl⟩ | ⟨-, rfl, rfl⟩
        · exact .inl ⟨pre, post', rfl, ht⟩
        · exact .inr ⟨rfl, ht⟩
      · rintro (⟨pre, post, rfl, ht⟩ | ⟨rfl, ht⟩)
        · exact ⟨pre, post ++ [g], by simp, ht⟩
        · exact ⟨gates, [], rfl, ht⟩
    rw [hnew, ← hold, ← htime]
    refine (mem_addToTSGates h.isLeaf).trans (or_congr_right ?_)
    rw [eq_comm (a := t), eq_comm (a := g'), and_comm]

theorem exists_timed (asserts : Bool) (tables : Tables) (F : LeafFunc) :
    ∃ s, calc_critical_times asserts tables F.start F.body = .ok s ∧ Timed F F.gates s := by
  have hrun : ∀ gates, (∀ g ∈ gates, g ∈ F.gates) → ∃ s,
      calc_critical_times asserts tables F.start (gates.map Inst.gate) = .ok s ∧
        Timed F gates s := by
    intro gates
    induction gates using List.reverseRecOn with
    | nil => exact fun _ ↦ ⟨_, rfl, timed_start⟩
    | append_singleton gates g ih =>
      intro h
      obtain ⟨hgates, hg⟩ := List.forall_mem_append.mp h
      obtain ⟨s, hs, hT⟩ := ih hgates
      obtain ⟨s', hs', hT'⟩ := hT.step asserts tables (List.forall_mem_singleton.mp hg)
      refine ⟨s', ?_, hT'⟩
      rw [List.map_append, List.map_singleton, calc_critical_times, foldlM_append_eq_ok]
      exact ⟨s, hs, by rw [List.foldlM_cons, hs']; rfl⟩
  rw [F.body_eq]
  exact hrun F.gates fun _ ↦ id

/-! ## The reported length -/

/-- The length that is reported for a function. -/
def reported (asserts : Bool) (tables : Tables) (F : Func) : Except Failure ℕ := do
  let callee ← CountCriticalFunctionResources asserts tables F
  return callee.crit_path_f

/-- Every gate about a whole array ends a chain of `n` gates. -/
def ArraysLast (gates : List (GateCall Operand)) (n : ℕ) : Prop :=
  ∀ pre g post, gates = pre ++ g :: post → (∃ q ∈ (Inst.gate g).args, q.index = none) →
    ∃ c, ChainOf (Meets uses) pre c ∧ (c ++ [g]).IsChain (Meets uses) ∧ c.length + 1 = n

theorem tracksChains (F : LeafFunc) (gates : List (GateCall Operand)) :
    TracksChains uses (gates.foldl (asap uses) F.funcQbits) gates :=
  (tracksChains_zero F.tracked).foldl_asap gates

theorem Timed.isLongest (h : Timed F F.gates s) : IsLongest (Meets uses) F.gates s.critPath := by
  have htracks := tracksChains F F.gates
  rw [← h.funcQbits] at htracks
  rw [h.leaf.critPath]
  refine htracks.latest fun g hg ↦ ?_
  obtain ⟨q, hq⟩ := List.exists_mem_of_ne_nil _ (F.onQubits g hg)
  refine ⟨q.access, List.mem_map_of_mem hq, ?_⟩
  rw [h.funcQbits, names_foldl_asap]
  exact F.inTracked g hg q hq

theorem time_isGreatest (pre : List (GateCall Operand)) (g : GateCall Operand) :
    IsGreatest {k | ∃ c, ChainOf (Meets uses) pre c ∧ (c ++ [g]).IsChain (Meets uses) ∧
      k = c.length + 1} (F.time pre g) := by
  obtain ⟨⟨c, hc, hchain, hlen⟩, hleast⟩ := (tracksChains F pre).lastUses g
  refine ⟨⟨c, hc, hchain, congrArg (· + 1) hlen⟩, ?_⟩
  rintro k ⟨c, hc, hchain, rfl⟩
  exact Nat.succ_le_succ (hleast ⟨c, hc, hchain, rfl⟩)

theorem Timed.allowed_iff (h : Timed F F.gates s) :
    (∀ i, 1 ≤ i → i < s.critPath → ∀ g ∈ s.tsGates i, Allowed asserts g) ↔
      (asserts = true → ArraysLast F.gates s.critPath) := by
  constructor
  · rintro hall ha pre g post heq ⟨q, hq, hnone⟩
    obtain ⟨⟨c, hc, hchain, hlen⟩, -⟩ := time_isGreatest (F := F) pre g
    refine ⟨c, hc, hchain, ?_⟩
    -- a gate before the latest time is not about a whole array
    by_contra hne
    have hmem : ChainOf (Meets uses) F.gates (c ++ [g]) := by
      rw [heq]
      refine (chainOf_concat.mpr (.inr ⟨c, rfl, hc, hchain⟩)).mono ?_
      exact (List.singleton_sublist.mpr List.mem_cons_self).append_left pre
    have hle : c.length + 1 ≤ s.critPath :=
      h.isLongest.2 ⟨c ++ [g], hmem, by rw [List.length_append, List.length_singleton]⟩
    exact hall (c.length + 1) (Nat.le_add_left ..) (lt_of_le_of_ne hle hne) g
      ((h.tsGates _ g).mpr ⟨pre, post, heq, hlen⟩) ha q hq hnone
  · intro hlast i _ hi g hg ha q hq hnone
    obtain ⟨pre, post, heq, htime⟩ := (h.tsGates i g).mp hg
    obtain ⟨c, hc, hchain, hlen⟩ := hlast ha pre g post heq ⟨q, hq, hnone⟩
    have hle := (time_isGreatest (F := F) pre g).2 ⟨c, hc, hchain, rfl⟩
    omega

/-- **The reported length is that of a longest chain of gates** of which each shares a qubit with
the next one. Something is reported exactly if assertions are compiled out, no chain has more than
three gates, or every gate about a whole array ends a longest chain. -/
theorem reported_eq_ok_iff (asserts : Bool) (tables : Tables) (F : LeafFunc) (n : ℕ) :
    reported asserts tables F.toFunc = .ok n ↔
      IsLongest (Meets uses) F.gates n ∧ (asserts = true → n ≤ 3 ∨ ArraysLast F.gates n) := by
  obtain ⟨s, hs, hT⟩ := exists_timed asserts tables F
  have hstage : (∃ H, process_leafALAP asserts s = .ok H) ↔
      (asserts = true → s.critPath ≤ 3 ∨ ArraysLast F.gates s.critPath) := by
    rw [hT.leaf.yields.isOk_iff, hT.allowed_iff, ← Nat.not_lt, ← imp_iff_not_or]
    exact ⟨fun h ha hct ↦ h hct ha, fun h hct ha ↦ h ha hct⟩
  have hrun : reported asserts tables F.toFunc = .ok n ↔
      (∃ H, process_leafALAP asserts s = .ok H) ∧ s.critPath = n := by
    rw [reported, bind_eq_ok, CountCriticalFunctionResources, hs]
    constructor
    · rintro ⟨callee, h, hn⟩
      obtain ⟨s', h', h⟩ := bind_eq_ok.mp h
      cases h'
      simp only [hT.isLeaf, if_true] at h
      obtain ⟨H, hH, h⟩ := bind_eq_ok.mp h
      cases h
      cases hn
      exact ⟨⟨H, hH⟩, rfl⟩
    · rintro ⟨⟨H, hH⟩, rfl⟩
      refine ⟨⟨s.critPath, saveTable F.toFunc s.funcQbits, saveTable F.toFunc H⟩,
        bind_eq_ok.mpr ⟨s, rfl, ?_⟩, rfl⟩
      simp only [hT.isLeaf, if_true]
      exact bind_eq_ok.mpr ⟨H, hH, rfl⟩
  rw [hrun, hstage]
  constructor
  · rintro ⟨h, rfl⟩
    exact ⟨hT.isLongest, h⟩
  · rintro ⟨hn, h⟩
    obtain rfl := hn.unique hT.isLongest
    exact ⟨h, rfl⟩

/-- A preparation of a whole array and three gates on one of its qubits. -/
private def arrayGates : List (GateCall Operand) :=
  [.prep .z ⟨"a".toList, .qbit, none⟩ 0, .gate1 .H ⟨"a".toList, .qbit, some 0⟩,
    .gate1 .T ⟨"a".toList, .qbit, some 0⟩, .gate1 .H ⟨"a".toList, .qbit, some 0⟩]

private def arrayFunc : Func := ⟨[], [("a".toList, .qbit)], arrayGates.map Inst.gate⟩

private theorem noMeas_arrayGates (b : Basis) (q : Operand) : GateCall.meas b q ∉ arrayGates := by
  simp [arrayGates]

private theorem onQubits_arrayGates : ∀ g ∈ arrayGates, (Inst.gate g).args ≠ [] := by
  decide

private theorem inTracked_arrayGates :
    ∀ g ∈ arrayGates, ∀ q ∈ (Inst.gate g).args, q.name ∈ arrayFunc.tracked := by
  decide

private def arrayPrepared : LeafFunc :=
  ⟨arrayFunc, arrayGates, rfl, noMeas_arrayGates, onQubits_arrayGates, inTracked_arrayGates⟩

/-- No length is reported if the whole array is prepared first. -/
theorem not_reported_arrayPrepared :
    ¬ ∀ (asserts : Bool) (F : LeafFunc),
      ∃ n, reported asserts (fun _ ↦ none) F.toFunc = .ok n ∧ IsLongest (Meets uses) F.gates n := by
  intro h
  obtain ⟨n, hn, -⟩ := h true arrayPrepared
  have hstop : reported true (fun _ ↦ none) arrayPrepared.toFunc = .error .assertion := by
    decide +kernel
  rw [hstop] at hn
  cases hn

end ScaffCC.CriticalPath
