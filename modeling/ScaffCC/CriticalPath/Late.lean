import ScaffCC.CriticalPath.Time
import ScaffCC.Fallible.Fold

/-!
# Scheduling a leaf function as late as possible

After the gates of a leaf function got times as soon as possible, every operand of a gate has an
entry, and there is a gate at every time up to the latest. So all searches of the stage that follows
succeed, and only its assertions that no gate is about a whole array can fail. It looks at all gates
before the latest time, and at none if the latest time is `3` or less.
-/

open Scheduling Fallible

namespace ScaffCC.CriticalPath

open GenSimd (fname isMeas)

variable {asserts : Bool} {T H : FuncQbits} {q : Operand} {qs : List Operand} {s : State}
  {g : GateCall Operand} {tsGates : ℕ → List (GateCall Operand)} {i t : ℕ}

/-- All operands of the gates have entries. -/
def Entered (tsGates : ℕ → List (GateCall Operand)) (H : FuncQbits) : Prop :=
  ∀ t, ∀ g ∈ tsGates t, ∀ q ∈ (Inst.gate g).args, HasEntry H q

/-- The gate is about no whole array, if assertions look. -/
def Allowed (asserts : Bool) (g : GateCall Operand) : Prop :=
  asserts = true → ∀ q ∈ (Inst.gate g).args, q.index ≠ none

/-! ## Searches that succeed -/

theorem yields_half_entry (h : HasEntry H q) :
    Yields (half_entry asserts H q) (asserts = true → q.index ≠ none) (fun _ ↦ True)
      .assertion := by
  obtain ⟨t, ht⟩ := h.exists_entry
  have heq : half_entry asserts H q = assert asserts q.index.isSome >>= fun _ ↦ .ok t := by
    rw [half_entry, find_map_eq h.1]
    show (assert asserts q.index.isSome >>= fun _ ↦ asserted asserts _) = _
    rw [ht]
    rfl
  rw [heq, assert]
  cases hi : q.index with
  | none =>
    cases asserts with
    | false => exact yields_ok (fun h ↦ absurd h Bool.false_ne_true) trivial
    | true => exact yields_error fun h ↦ h rfl rfl
  | some i =>
    rw [Option.isSome_some, Bool.not_true, Bool.and_false, if_neg Bool.false_ne_true]
    exact yields_ok (fun _ ↦ Option.some_ne_none i) trivial

theorem Entered.set_entry {name : Ident} {a : Option ℕ} (h : Entered tsGates H) :
    Entered tsGates (set_map H name (set_entry (H.clock name) t a)) :=
  fun u g hg q hq ↦ (h u g hg q hq).set_map fun _ hi ↦ isSome_set_entry.mpr (.inl hi)

theorem yields_lower_entries (hH : Entered tsGates H) (hg : g ∈ tsGates t) :
    Yields ((Inst.gate g).args.foldlM (lower_entry asserts i) H) (Allowed asserts g)
      (Entered tsGates) .assertion := by
  have hloop := yields_foldlM (e := Failure.assertion) (f := lower_entry asserts i)
    (l := (Inst.gate g).args) (p := fun q ↦ asserts = true → q.index ≠ none)
    (I := Entered tsGates) (fun H q hq hH ↦ by
      refine (yields_half_entry (hH t g hg q hq)).bind_ok fun u _ ↦ ⟨_, rfl, ?_⟩
      split
      · exact hH.set_entry
      · exact hH) hH
  exact hloop.congr ⟨fun h ha q hq ↦ h q hq ha, fun h q hq ha ↦ h ha q hq⟩

theorem Entered.record_alap (h : Entered tsGates H) : Entered tsGates (record_alap t H q) := by
  intro u g hg q' hq'
  rw [CriticalPath.record_alap]
  split
  · refine (h u g hg q' hq').set_map fun i hi ↦ ?_
    rwa [ArrayClock.elem_reset, Option.isSome_map]
  · exact (h u g hg q' hq').set_map fun i hi ↦ isSome_set_entry.mpr (.inl hi)

theorem yields_schedule_alap_inst {ct : ℕ} (hH : Entered tsGates H) (hg : g ∈ tsGates t) :
    Yields (schedule_alap_inst asserts ct H g) (Allowed asserts g) (Entered tsGates)
      .assertion := by
  have hmin := yields_foldlM (e := Failure.assertion) (I := fun _ : ℕ ↦ True)
    (f := fun m q ↦ do
      let t ← half_entry asserts H q
      return min m t)
    (p := fun q ↦ asserts = true → q.index ≠ none) (l := (Inst.gate g).args)
    (fun m q hq _ ↦ (yields_half_entry (hH t g hg q hq)).bind_ok fun u _ ↦ ⟨_, rfl, trivial⟩)
    (s := ct) trivial
  refine (hmin.bind_ok (J := Entered tsGates) fun m _ ↦ ⟨_, rfl, ?_⟩).congr ?_
  · have hfold : ∀ (qs : List Operand) H, Entered tsGates H →
        Entered tsGates (qs.foldl (CriticalPath.record_alap (m - 1)) H) := by
      intro qs
      induction qs with
      | nil => exact fun _ ↦ id
      | cons q qs ih => exact fun H hH ↦ ih _ hH.record_alap
    exact hfold _ H hH
  · exact ⟨fun h ha q hq ↦ h q hq ha, fun h q hq ha ↦ h ha q hq⟩

theorem yields_ts {f : ℕ → FuncQbits → GateCall Operand → Except Failure FuncQbits}
    {steps : List ℕ} (hts : ∀ i ∈ steps, tsGates i ≠ [])
    (hf : ∀ i H g, Entered tsGates H → g ∈ tsGates i →
      Yields (f i H g) (Allowed asserts g) (Entered tsGates) .assertion)
    (hH : Entered tsGates H) :
    Yields (steps.foldlM (fun H i ↦ do
        let gates ← find_ts tsGates i
        gates.foldlM (f i) H) H)
      (∀ i ∈ steps, ∀ g ∈ tsGates i, Allowed asserts g) (Entered tsGates) .assertion := by
  refine yields_foldlM (fun H i hi hH ↦ ?_) hH
  have hfind : find_ts tsGates i = .ok (tsGates i) := by
    rw [find_ts, if_neg (by rw [List.isEmpty_iff]; exact hts i hi)]
    rfl
  rw [hfind]
  exact yields_foldlM (fun H g hg hH ↦ hf i H g hH hg) hH

/-! ## Gates so far -/

/-- The calls so far are gates. Their operands have entries, each time is that of a gate, and so is
the one before. -/
structure LeafInv (s : State) : Prop where
  source : s.funcQbits.From fun _ t ↦ s.tsGates t ≠ []
  gap : ∀ t, s.tsGates (t + 1) ≠ [] → t = 0 ∨ s.tsGates t ≠ []
  entered : Entered s.tsGates s.funcQbits
  highestDelay : s.highestDelay = 0

theorem leafInv_start (F : Func) : LeafInv F.start :=
  ⟨fun _ ↦ ArrayClock.from_zero, fun _ h ↦ absurd rfl h, fun _ _ h ↦ absurd h List.not_mem_nil, rfl⟩

theorem LeafInv.critPath (h : LeafInv s) : s.critPath = s.funcQbits.latest := by
  rw [State.critPath, h.highestDelay, max_eq_left (Nat.zero_le _)]

theorem LeafInv.tsGates_ne_nil (h : LeafInv s) (h1 : 1 ≤ i) (hi : i ≤ s.critPath) :
    s.tsGates i ≠ [] := by
  have hdown : ∀ k, i ≤ k → s.tsGates k ≠ [] → s.tsGates i ≠ [] := by
    intro k hk
    induction k, hk using Nat.le_induction with
    | base => exact id
    | succ k hk ih =>
      intro hne
      rcases h.gap k hne with hzero | hne
      · omega
      · exact ih hne
  rw [h.critPath] at hi
  rcases h.source.latest with hzero | ⟨-, hne⟩
  · omega
  · exact hdown _ hi hne

theorem mem_addToTSGates {g' : GateCall Operand} (hleaf : s.isLeaf = true) :
    g' ∈ (s.addToTSGates g t).tsGates i ↔ g' ∈ s.tsGates i ∨ i = t ∧ g' = g := by
  rw [State.addToTSGates, if_pos hleaf]
  show g' ∈ Function.update s.tsGates t (s.tsGates t ++ [g]) i ↔ _
  by_cases hi : i = t
  · subst hi
    simp
  · rw [Function.update_of_ne hi]
    simp [hi]

theorem isLeaf_addToTSGates : (s.addToTSGates g t).isLeaf = s.isLeaf := by
  rw [State.addToTSGates]
  split <;> rfl

/-- A gate at the time after a last use, or at the first time. -/
theorem LeafInv.add (h : LeafInv s) (hleaf : s.isLeaf = true) {b : Bool}
    (ht : t = 0 ∨ s.tsGates t ≠ [])
    (hT : T.From fun _ u ↦ (s.addToTSGates g (t + 1)).tsGates u ≠ [])
    (hkeep : ∀ q, HasEntry s.funcQbits q → HasEntry T q)
    (hg : ∀ q ∈ (Inst.gate g).args, HasEntry T q) :
    LeafInv { s.addToTSGates g (t + 1) with funcQbits := T, isFirstMeas := b } := by
  have hmono : ∀ {u}, s.tsGates u ≠ [] → (s.addToTSGates g (t + 1)).tsGates u ≠ [] := by
    intro u hu
    obtain ⟨g', hg'⟩ := List.exists_mem_of_ne_nil _ hu
    exact List.ne_nil_of_mem ((mem_addToTSGates hleaf).mpr (.inl hg'))
  refine ⟨hT, fun u hu ↦ ?_, fun u g' hg' q hq ↦ ?_, ?_⟩
  · obtain ⟨g', hg'⟩ := List.exists_mem_of_ne_nil _ hu
    rcases (mem_addToTSGates hleaf).mp hg' with hg' | ⟨hut, -⟩
    · exact (h.gap u (List.ne_nil_of_mem hg')).imp_right hmono
    · obtain rfl := Nat.succ_injective hut
      exact ht.imp_right hmono
  · rcases (mem_addToTSGates hleaf).mp hg' with hg' | ⟨-, rfl⟩
    · exact hkeep q (h.entered u g' hg' q hq)
    · exact hg q hq
  · show (s.addToTSGates g (t + 1)).highestDelay = 0
    rw [State.addToTSGates, if_pos hleaf]
    exact h.highestDelay

theorem addToTSGates_self_ne_nil (hleaf : s.isLeaf = true) :
    (s.addToTSGates g t).tsGates t ≠ [] :=
  List.ne_nil_of_mem ((mem_addToTSGates hleaf).mpr (.inr ⟨rfl, rfl⟩))

theorem addToTSGates_ne_nil (hleaf : s.isLeaf = true) (hi : s.tsGates i ≠ []) :
    (s.addToTSGates g t).tsGates i ≠ [] := by
  obtain ⟨g', hg'⟩ := List.exists_mem_of_ne_nil _ hi
  exact List.ne_nil_of_mem ((mem_addToTSGates hleaf).mpr (.inl hg'))

theorem LeafInv.gate (h : LeafInv s) (hleaf : s.isLeaf = true)
    (hnames : ∀ q ∈ (Inst.gate g).args, q.name ∈ s.funcQbits.names) :
    LeafInv { s.addToTSGates g (s.funcQbits.lastUses (uses g) + 1) with
      funcQbits := asap uses s.funcQbits g } := by
  refine h.add hleaf ?_ ?_ (fun q hq ↦ hq.use) fun q hq ↦
    hasEntry_use_self (hnames q hq) (List.mem_map_of_mem hq)
  · rcases (s.funcQbits.lastUses_spec (uses g)).2 with hzero | ⟨a, -, ha⟩
    · exact .inl hzero
    · rw [← ha]
      exact (h.source.lastUse a).imp_right fun ⟨_, hb, _⟩ ↦ hb
  · exact (h.source.mono fun _ _ hne ↦ addToTSGates_ne_nil hleaf hne).use fun _ _ ↦
      addToTSGates_self_ne_nil hleaf

theorem LeafInv.meas (h : LeafInv s) (hleaf : s.isLeaf = true) (hq : HasEntry s.funcQbits q)
    (hargs : ∀ q' ∈ (Inst.gate g).args, q' = q) :
    LeafInv { s.addToTSGates g (s.funcQbits.latest + 1) with
      funcQbits := measured s.funcQbits q
      isFirstMeas := false } := by
  have hlatest : s.funcQbits.latest = 0 ∨ s.tsGates s.funcQbits.latest ≠ [] :=
    h.source.latest.imp_right fun ⟨_, hne⟩ ↦ hne
  have hself := addToTSGates_self_ne_nil (g := g) (t := s.funcQbits.latest + 1) hleaf
  refine h.add hleaf hlatest (fun n ↦ ?_) (fun q' hq' ↦ hasEntry_measured hq') fun q' hq' ↦ ?_
  swap
  · rw [hargs q' hq']
    exact hasEntry_measured hq
  have hreset : ((s.funcQbits.clock n).reset s.funcQbits.latest).From fun _ u ↦
      (s.addToTSGates g (s.funcQbits.latest + 1)).tsGates u ≠ [] :=
    ArrayClock.from_reset (hlatest.imp_right fun hne ↦ addToTSGates_ne_nil hleaf hne)
  by_cases hn : n = q.name
  · subst hn
    rw [measured, clock_set_map_self]
    refine ⟨?_, .inr ⟨none, hself⟩, fun i w hw ↦ ?_⟩
    · cases q.index with
      | none => exact .inr hself
      | some i => exact hreset.whole
    · cases hi : q.index with
      | none =>
        rw [hi] at hw
        exact hreset.elem i w hw
      | some j =>
        rw [hi, elem_set_top, elem_set_entry] at hw
        by_cases hij : i = j
        · subst hij
          rw [Function.update_self, Option.some.injEq] at hw
          exact .inr (.inl (hw ▸ hself))
        · rw [Function.update_of_ne hij] at hw
          exact hreset.elem i w hw
  · rw [measured, clock_set_map_of_ne hn]
    exact hreset

/-! ## The stage -/

/-- The stage gets through exactly if all gates before the latest time are allowed, and fails at an
assertion otherwise. -/
theorem LeafInv.yields (h : LeafInv s) :
    Yields (process_leafALAP asserts s)
      (3 < s.critPath → ∀ i, 1 ≤ i → i < s.critPath → ∀ g ∈ s.tsGates i, Allowed asserts g)
      (fun _ ↦ True) .assertion := by
  by_cases hct : 3 < s.critPath
  swap
  · rw [process_leafALAP]
    simp only [gt_iff_lt, hct, if_false]
    exact yields_ok (fun h ↦ h.elim) trivial
  -- the upper half is read for its entries
  have hgen : Yields (gen_half_funcQbits asserts s.funcQbits s.tsGates s.critPath (s.critPath / 2))
      (∀ i ∈ List.range' (s.critPath / 2 + 1) (s.critPath - 1 - s.critPath / 2),
        ∀ g ∈ s.tsGates i, Allowed asserts g) (Entered s.tsGates) .assertion := by
    refine yields_ts (fun i hi ↦ ?_) (fun i H g hH hg ↦ yields_lower_entries hH hg)
      fun u g hg q hq ↦ (h.entered u g hg q hq).reset
    have hi := List.mem_range'_1.mp hi
    exact h.tsGates_ne_nil (by omega) (by omega)
  -- the lower half is scheduled as late as possible, from its end
  have halap : ∀ H, Entered s.tsGates H →
      Yields (schedule_alap_insts asserts s.tsGates s.critPath (s.critPath / 2) H)
        (∀ i ∈ (List.range' 1 (s.critPath / 2)).reverse,
          ∀ g ∈ s.tsGates i, Allowed asserts g) (Entered s.tsGates) .assertion := by
    intro H hH
    have hassert : assert asserts (s.critPath / 2 != 0) = .ok () := by
      rw [assert, show (s.critPath / 2 != 0) = true by rw [bne_iff_ne]; omega, Bool.not_true,
        Bool.and_false]
      rfl
    rw [schedule_alap_insts, hassert]
    refine yields_ts (f := fun _ ↦ schedule_alap_inst asserts s.critPath) (fun i hi ↦ ?_)
      (fun i H g hH hg ↦ yields_schedule_alap_inst hH hg) hH
    have hi := List.mem_range'_1.mp (List.mem_reverse.mp hi)
    exact h.tsGates_ne_nil (by omega) (by omega)
  have hstage := hgen.bind halap
  rw [process_leafALAP]
  simp only [gt_iff_lt, hct, if_true]
  refine ((hstage.mono fun _ _ ↦ trivial).congr ?_)
  refine ⟨fun h _ i h1 hi ↦ ?_, fun h ↦ ⟨fun i hi ↦ ?_, fun i hi ↦ ?_⟩⟩
  · by_cases hhalf : i ≤ s.critPath / 2
    · exact h.2 i (List.mem_reverse.mpr (List.mem_range'_1.mpr (by omega)))
    · exact h.1 i (List.mem_range'_1.mpr (by omega))
  · have hi := List.mem_range'_1.mp hi
    exact h trivial i (by omega) (by omega)
  · have hi := List.mem_range'_1.mp (List.mem_reverse.mp hi)
    exact h trivial i (by omega) (by omega)

end ScaffCC.CriticalPath
