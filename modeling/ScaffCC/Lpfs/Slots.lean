import Mathlib.Data.Finset.Card
import ScaffCC.Lpfs.Run

/-!
# One gate and at most `d` qubits in a slot

The operations of a slot are done at once, so they should be the same gate, and a region has room
for `d` qubits. An operation joins others only where the gate is the same, and otherwise the slot it
gets is empty, so there is one gate to a slot if there is a region at all. The qubits are not
counted: where an operation joins others the source has a comment in the place of the check. So
there are at most `d` qubits in a slot exactly as long as no operation comes that the check would
have turned away.
-/

open StateTransition

namespace ScaffCC.Lpfs

namespace State

/-- The operations in the slot, in the order in which they were put there. -/
def opsAt (s : State) (x : Slot) : List ℕ := (s.schedule.filter (·.1 = x)).map Prod.snd

/-- The qubits that the operations in the slot touch. -/
def qubitsAt (body : List Call) (s : State) (x : Slot) : Finset Qubit :=
  ((s.opsAt x).flatMap fun i ↦ (callAt body i).args).toFinset

variable {body : List Call} {s s' : State} {i : ℕ} {x y : Slot}

theorem mem_opsAt : i ∈ s.opsAt x ↔ (x, i) ∈ s.schedule := by simp [opsAt]

theorem opsAt_of_schedule_eq (h : s'.schedule = s.schedule) : s'.opsAt = s.opsAt := by
  funext x
  rw [opsAt, opsAt, h]

theorem opsAt_place_self : (s.place i x).count.opsAt x = s.opsAt x ++ [i] := by
  simp [opsAt, place, count]

theorem opsAt_place_of_ne (h : y ≠ x) : (s.place i x).count.opsAt y = s.opsAt y := by
  simp [opsAt, place, count, h.symm]

theorem qubitsAt_of_opsAt_eq (h : s'.opsAt x = s.opsAt x) :
    s'.qubitsAt body x = s.qubitsAt body x := by
  rw [qubitsAt, qubitsAt, h]

theorem qubitsAt_place_self :
    (s.place i x).count.qubitsAt body x
      = s.qubitsAt body x ∪ (callAt body i).args.toFinset := by
  rw [qubitsAt, opsAt_place_self, List.flatMap_append, List.flatMap_singleton,
    List.toFinset_append, qubitsAt]

theorem qubitsAt_eq_empty (h : s.opsAt x = []) : s.qubitsAt body x = ∅ := by
  rw [qubitsAt, h, List.flatMap_nil, List.toFinset_nil]

theorem opsAt_sublist (h : s.schedule <+: s'.schedule) : (s.opsAt x).Sublist (s'.opsAt x) :=
  (h.sublist.filter _).map _

theorem qubitsAt_subset (h : s.schedule <+: s'.schedule) :
    s.qubitsAt body x ⊆ s'.qubitsAt body x := by
  intro q hq
  simp only [qubitsAt, List.mem_toFinset, List.mem_flatMap] at hq ⊢
  obtain ⟨i, hi, hqi⟩ := hq
  exact ⟨i, (opsAt_sublist h).subset hi, hqi⟩

theorem opsAt_eq_nil_iff : s.opsAt x = [] ↔ ¬ occupied s x := by
  rw [opsAt, List.map_eq_nil_iff, List.filter_eq_nil_iff, occupied, List.any_eq_true]
  push Not
  rfl

theorem curOp_eq_head? : curOp s x = (s.opsAt x).head? := by
  rw [curOp, opsAt, List.head?_map, List.head?_filter]

end State

/-- The operations in the slot are the same gate and touch at most `d` qubits. -/
structure SlotOk (body : List Call) (d : ℕ) (s : State) (x : Slot) : Prop where
  oneGate : ∀ i ∈ s.opsAt x, ∀ j ∈ s.opsAt x, (callAt body i).qFunc = (callAt body j).qFunc
  budget : (s.qubitsAt body x).card ≤ d

/-- What would have to be checked before an operation is put in a slot: that it has room there by
itself, and together with the operations that are there already. Where there is no region it would
have to be the same gate as well. -/
structure Admitted (body : List Call) (k d : ℕ) (s : State) (i : ℕ) (x : Slot) : Prop where
  alone : (callAt body i).args.toFinset.card ≤ d
  joined : occupied s x → (s.qubitsAt body x ∪ (callAt body i).args.toFinset).card ≤ d
  region : k = 0 → ∀ j ∈ s.opsAt x, (callAt body j).qFunc = (callAt body i).qFunc

variable {body : List Call} {P : Params} {c c' : Config} {d : ℕ} {s s' : State} {i : ℕ}
  {x : Slot}

theorem SlotOk.of_isPrefix (h : s.schedule <+: s'.schedule) (hs : SlotOk body d s' x) :
    SlotOk body d s x :=
  ⟨fun i hi j hj ↦ hs.oneGate i ((State.opsAt_sublist h).subset hi) j
      ((State.opsAt_sublist h).subset hj),
    (Finset.card_le_card (State.qubitsAt_subset h)).trans hs.budget⟩

theorem SlotOk.of_opsAt_eq (h : s'.opsAt x = s.opsAt x) (hs : SlotOk body d s x) :
    SlotOk body d s' x :=
  ⟨by rw [h]; exact hs.oneGate, by rw [State.qubitsAt_of_opsAt_eq h]; exact hs.budget⟩

theorem slotOk_init : SlotOk body d .init x :=
  ⟨fun _ hi ↦ absurd hi List.not_mem_nil, Nat.zero_le d⟩

/-! ## The slot an operation gets -/

theorem curOp_of_sameGate {k ts r : ℕ} (h : sameGate body k s i ts = some r) :
    ∃ j, curOp s ⟨ts, r⟩ = some j ∧ (callAt body j).qFunc = (callAt body i).qFunc := by
  have hfind := List.find?_some h
  cases hcur : curOp s ⟨ts, r⟩ with
  | none =>
    rw [hcur] at hfind
    exact absurd hfind Bool.false_ne_true
  | some j =>
    rw [hcur] at hfind
    exact ⟨j, rfl, of_decide_eq_true hfind⟩

/-- An operation gets an empty slot or joins others that do the same gate. -/
theorem not_occupied_or_curOp {ts : ℕ} (hk : 1 ≤ P.k) (hs : s.Ok body)
    (hts : ts ≤ s.schedule.length) :
    ¬ occupied s (chooseSlot body P.k true s i ts) ∨
      ∃ j, curOp s (chooseSlot body P.k true s i ts) = some j ∧
        (callAt body j).qFunc = (callAt body i).qFunc := by
  rw [chooseSlot, if_pos rfl]
  cases hsame : sameGate body P.k s i ts with
  | some r => exact .inr (curOp_of_sameGate hsame)
  | none =>
    obtain ⟨r, hr⟩ := exists_lowSlot_eq hk s ts
    rw [hr]
    exact .inl (tempTS_spec hs.lt_length hts (by omega)).2

/-- On a path the slot is empty; on the free list it is empty or has the same gate in it, if there
is a region. -/
theorem slot_of_nextAdd (hopp : P.opp_simd = true) (hc : Sound body P c)
    (h : nextAdd body P c = some (i, x)) :
    ¬ occupied c.state x ∨ P.k = 0 ∨
      ∃ j, curOp c.state x = some j ∧ (callAt body j).qFunc = (callAt body i).qFunc := by
  obtain ⟨point, s⟩ := c
  cases point with
  | paths entries ts =>
    cases entries with
    | nil => exact absurd h.symm (Option.some_ne_none _)
    | cons e rest =>
      obtain ⟨j, path⟩ := e
      rw [nextAdd] at h
      split_ifs at h
      obtain ⟨rfl, rfl⟩ := Prod.mk.inj (Option.some.inj h)
      -- the counter is ahead of everything in the schedule
      refine .inl fun hocc ↦ ?_
      obtain ⟨p, hp, heq⟩ := List.any_eq_true.mp hocc
      have hlt := hc.1.lt_length p hp
      rw [of_decide_eq_true heq, hc.2] at hlt
      exact lt_irrefl _ hlt
  | free rest =>
    cases rest with
    | nil => exact absurd h.symm (Option.some_ne_none _)
    | cons j rest =>
      rw [nextAdd] at h
      split_ifs at h
      obtain ⟨ts, hts, heq⟩ := Option.map_eq_some_iff.mp h
      obtain ⟨rfl, rfl⟩ := Prod.mk.inj heq
      rcases Nat.eq_zero_or_pos P.k with hk | hk
      · exact .inr (.inl hk)
      · have hlt := firstMet_lt hts
        rw [hopp]
        exact (not_occupied_or_curOp hk (hc hk) (by omega)).imp_right .inr

/-! ## Steps and runs -/

/-- **The step.** An operation that is admitted leaves every slot in order. -/
theorem SlotOk.step (hopp : P.opp_simd = true) (hc : Sound body P c)
    (hs : ∀ x, SlotOk body d c.state x) (h : step body P c = some c')
    (hadm : ∀ i x, nextAdd body P c = some (i, x) → Admitted body P.k d c.state i x) :
    ∀ x, SlotOk body d c'.state x := by
  rcases step_cases h with ⟨i, x, hnext, heq⟩ | ⟨-, heq, -⟩
  · intro y
    rw [heq]
    by_cases hy : y = x
    · subst hy
      have hi := hadm i y hnext
      have hgate : ∀ j ∈ c.state.opsAt y, (callAt body j).qFunc = (callAt body i).qFunc := by
        rcases slot_of_nextAdd hopp hc hnext with hfree | hk | ⟨j, hcur, hgate⟩
        · rw [State.opsAt_eq_nil_iff.mpr hfree]
          exact fun j hj ↦ absurd hj List.not_mem_nil
        · exact hi.region hk
        · rw [State.curOp_eq_head?] at hcur
          exact fun l hl ↦ ((hs y).oneGate l hl j (List.mem_of_mem_head? hcur)).trans hgate
      constructor
      · rw [State.opsAt_place_self]
        intro a ha b hb
        have hboth : ∀ a ∈ c.state.opsAt y ++ [i],
            (callAt body a).qFunc = (callAt body i).qFunc := by
          intro a ha
          rcases List.mem_append.mp ha with ha | ha
          · exact hgate a ha
          · rw [List.mem_singleton.mp ha]
        rw [hboth a ha, hboth b hb]
      · rw [State.qubitsAt_place_self]
        by_cases hocc : occupied c.state y
        · exact hi.joined hocc
        · rw [State.qubitsAt_eq_empty (State.opsAt_eq_nil_iff.mpr hocc), Finset.empty_union]
          exact hi.alone
    · exact (hs y).of_opsAt_eq (State.opsAt_place_of_ne hy)
  · exact fun y ↦ (hs y).of_opsAt_eq (congrFun (State.opsAt_of_schedule_eq heq) y)

theorem Admitted.of_slotOk {k : ℕ} (h : SlotOk body d (s.place i x).count x) :
    Admitted body k d s i x := by
  have hbudget := h.budget
  rw [State.qubitsAt_place_self] at hbudget
  refine ⟨(Finset.card_le_card Finset.subset_union_right).trans hbudget, fun _ ↦ hbudget,
    fun _ j hj ↦ h.oneGate j ?_ i ?_⟩
  · rw [State.opsAt_place_self]
    exact List.mem_append_left _ hj
  · rw [State.opsAt_place_self]
    exact List.mem_append_right _ (List.mem_singleton_self i)

/-- **The run.** If every operation is admitted, every slot is in order all the way. -/
theorem slotOk_of_reaches (hopp : P.opp_simd = true)
    (hadm : ∀ c i x, Reaches (step body P) (start body P) c → nextAdd body P c = some (i, x) →
      Admitted body P.k d c.state i x)
    (h : Reaches (step body P) (start body P) c) : ∀ x, SlotOk body d c.state x := by
  induction h with
  | refl => exact fun x ↦ slotOk_init
  | tail hreach hstep ih =>
    exact SlotOk.step hopp (sound_of_reaches hreach) ih hstep fun i x ↦ hadm _ i x hreach

/-- **When every slot is in order.** With gates put where the same gate is done, every slot has one
gate and at most `d` qubits in every state of the run exactly when every operation that is placed is
one the check would have admitted, and the same holds of the schedule the function ends with. -/
theorem slotOk_iff (hopp : P.opp_simd = true) :
    ((∀ c, Reaches (step body P) (start body P) c → ∀ x, SlotOk body d c.state x) ↔
      ∀ c i x, Reaches (step body P) (start body P) c → nextAdd body P c = some (i, x) →
        Admitted body P.k d c.state i x) ∧
    ∀ s, lpfs body P = some s → ((∀ x, SlotOk body d s x) ↔
      ∀ c i x, Reaches (step body P) (start body P) c → nextAdd body P c = some (i, x) →
        Admitted body P.k d c.state i x) := by
  have hall : (∀ c, Reaches (step body P) (start body P) c → ∀ x, SlotOk body d c.state x) ↔
      ∀ c i x, Reaches (step body P) (start body P) c → nextAdd body P c = some (i, x) →
        Admitted body P.k d c.state i x := by
    constructor
    · intro hslots c i x hreach hnext
      obtain ⟨c', hstep, heq⟩ := exists_step hnext
      have hok := hslots c' (hreach.tail hstep) x
      rw [heq] at hok
      exact .of_slotOk hok
    · exact fun hadm c hreach ↦ slotOk_of_reaches hopp hadm hreach
  refine ⟨hall, fun s hrun ↦ ?_⟩
  obtain ⟨hend, hstop⟩ := reaches_of_lpfs hrun
  rw [← hall]
  constructor
  · -- every state of the run comes before the last one, and nothing is taken out of a slot
    intro hs c hreach x
    have hlast : Reaches (step body P) c ⟨.free [], s⟩ := by
      rcases reaches_total hreach hend with hle | hge
      · exact hle
      · rcases hge.cases_head with heq | ⟨c₁, hc₁, -⟩
        · rw [← heq]
          exact .refl
        · rw [Option.mem_def, hstop] at hc₁
          exact absurd hc₁ nofun
    exact (hs x).of_isPrefix (schedule_prefix_of_reaches hlast)
  · exact fun hslots ↦ hslots _ hend

theorem slotOk_iff_oneGate :
    ((∀ c, Reaches (step [gateOn "H" [0]] ⟨1, 1, true, [0], 0⟩)
        (start [gateOn "H" [0]] ⟨1, 1, true, [0], 0⟩) c →
          ∀ x, SlotOk [gateOn "H" [0]] 1 c.state x) ↔
      ∀ c i x, Reaches (step [gateOn "H" [0]] ⟨1, 1, true, [0], 0⟩)
        (start [gateOn "H" [0]] ⟨1, 1, true, [0], 0⟩) c →
          nextAdd [gateOn "H" [0]] ⟨1, 1, true, [0], 0⟩ c = some (i, x) →
          Admitted [gateOn "H" [0]] 1 1 c.state i x) ∧
    ∀ s, lpfs [gateOn "H" [0]] ⟨1, 1, true, [0], 0⟩ = some s →
      ((∀ x, SlotOk [gateOn "H" [0]] 1 s x) ↔
      ∀ c i x, Reaches (step [gateOn "H" [0]] ⟨1, 1, true, [0], 0⟩)
        (start [gateOn "H" [0]] ⟨1, 1, true, [0], 0⟩) c →
          nextAdd [gateOn "H" [0]] ⟨1, 1, true, [0], 0⟩ c = some (i, x) →
          Admitted [gateOn "H" [0]] 1 1 c.state i x) :=
  slotOk_iff (P := ⟨1, 1, true, [0], 0⟩) rfl

/-- Two gates on different qubits, with room for one qubit in a region: the second joins the
first. -/
theorem not_slotOk_twoGates :
    IsPriorityOrder [gateOn "H" [0], gateOn "H" [1]] [0, 1] ∧
      ∃ s, lpfs [gateOn "H" [0], gateOn "H" [1]] ⟨1, 1, true, [0, 1], 1⟩ = some s ∧
        ¬ ∀ x, SlotOk [gateOn "H" [0], gateOn "H" [1]] 1 s x := by
  have hrun : (lpfs [gateOn "H" [0], gateOn "H" [1]] ⟨1, 1, true, [0, 1], 1⟩).map
      (fun s ↦ (s.qubitsAt [gateOn "H" [0], gateOn "H" [1]] ⟨0, 1⟩).card) = some 2 := by decide
  obtain ⟨s, hs, hcard⟩ := Option.map_eq_some_iff.mp hrun
  refine ⟨⟨by decide, by decide⟩, s, hs, fun hslots ↦ ?_⟩
  have hbudget := (hslots ⟨0, 1⟩).budget
  omega

end ScaffCC.Lpfs
