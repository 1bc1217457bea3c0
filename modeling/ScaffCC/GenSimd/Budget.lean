import ScaffCC.GenSimd.Steps

/-!
# How many qubits a region gets

A region has room for `DATA_CONSTRAINT` qubits. Whether another gate joins a region is tested on the
gates that are there: their number has to be below the bound, and twice the number for `CNOT`. This
counts a `Toffoli` or a `Fredkin` as one qubit, and for `CNOT` it asks for room for one qubit where
the new gate needs two, which is not enough if the bound is odd. So a region gets too many qubits
exactly if such a gate joins one where it does not fit.
-/

open Scheduling Fallible

namespace ScaffCC.GenSimd

variable {C : Constraints} {S : PrioritySort} {F : LeafFunction} {d k : ℕ} {t : GateType}
  {x y : ℕ × ℕ} {s s' : LeafState} {g h : GateCall Operand} {rest : List InstPri}

/-- The qubits that the gates put into a region touch, one for each operand: an operand of an
intrinsic is a single qubit. -/
def qubitsAt (body : List (GateCall Operand)) (s : Placement ℕ ℕ) (x : ℕ × ℕ) :
    List (Access Ident ℕ) :=
  (s.opsAt x).flatMap fun k ↦ (body[k]?.map accesses).getD []

/-- The test lets a gate into a region that has too little room: a `CNOT` where one qubit is left,
or a gate of three qubits where not three are left. -/
def Region.Overfilled (d : ℕ) (t : GateType) (g : GateCall Operand) (r : Region) : Prop :=
  r.room d t ∧ (t = .CNOT ∧ 2 * r.numGates + 1 = d ∨
    g.operands.length = 3 ∧ d < 3 * (r.numGates + 1))

/-- The operation at position `k` does not join a region that then has too many qubits. -/
def JoinFits (F : LeafFunction) (d : ℕ) (s : LeafState) (k : ℕ) : Prop :=
  ∀ g t x, F.body[k]? = some g → funcIndex (fname g) = some t → regionFor d t s g = some x →
    ¬ (s.table.region x).Overfilled d t g

/-! ## Operands of gates of one type -/

/-- The number of operands of the intrinsic with a name. -/
def operandCount (baseName : Ident) : ℕ :=
  if baseName = "CNOT".toList then 2
  else if ["Toffoli".toList, "Fredkin".toList].contains baseName then 3
  else 1

theorem length_operands (g : GateCall Operand) : g.operands.length = operandCount g.baseName := by
  cases g with
  | gate1 g => cases g <;> rfl
  | rot a => cases a <;> rfl
  | prep b => cases b <;> rfl
  | meas b => cases b <;> rfl
  | CNOT | Toffoli | Fredkin => rfl

theorem length_operands_le (g : GateCall Operand) : g.operands.length ≤ 3 := by
  rw [length_operands, operandCount]
  split_ifs <;> omega

theorem length_operands_eq (hg : funcIndex (fname g) = some t) (hh : funcIndex (fname h) = some t) :
    g.operands.length = h.operands.length := by
  rw [length_operands, length_operands, baseName_eq_of_funcIndex hg hh]

theorem eq_CNOT_iff (hg : funcIndex (fname g) = some t) :
    t = .CNOT ↔ g.operands.length = 2 := by
  have hall : ∀ e ∈ gate_index, e.2 = .CNOT ↔ operandCount e.1 = 2 := by decide +kernel
  rw [funcIndex_fname, listedType] at hg
  split_ifs at hg
  obtain ⟨e, he, rfl⟩ := Option.map_eq_some_iff.mp hg
  have hname : e.1 = g.baseName := of_decide_eq_true (List.find?_some he :)
  rw [length_operands, ← hname]
  exact hall e (List.mem_of_find?_eq_some he)

/-! ## The qubits of a region -/

theorem qubitsAt_self (hs : Sets d k g s x s') (hg : F.body[k]? = some g) :
    qubitsAt F.body s'.placed x = qubitsAt F.body s.placed x ++ accesses g := by
  rw [qubitsAt, hs.placed, opsAt_place_self, List.flatMap_append, List.flatMap_singleton, hg]
  rfl

theorem qubitsAt_of_ne (hs : Sets d k g s x s') (hy : y ≠ x) :
    qubitsAt F.body s'.placed y = qubitsAt F.body s.placed y := by
  rw [qubitsAt, hs.placed, opsAt_place_of_ne hy, qubitsAt]

/-- All gates of a region have the same number of operands. -/
theorem Filling.length_qubitsAt (h : Filling C F s rest) (hg : funcIndex (fname g) = some t)
    (ht : (s.table.region x).typeOfGate = some t) :
    (qubitsAt F.body s.placed x).length
      = g.operands.length * (s.table.region x).numGates := by
  have hop : ∀ k ∈ s.placed.opsAt x,
      ((F.body[k]?.map accesses).getD []).length = g.operands.length := by
    intro k hk
    have hslot := (h.inv.consistent.mem x k).mp (Placement.mem_opsAt.mp hk)
    obtain ⟨g', t', hg', ht', hat⟩ := h.inv.typed k x hslot
    rw [typeAt_eq_region, ht] at hat
    cases hat
    rw [hg', Option.map_some, Option.getD_some, accesses, List.length_map]
    exact length_operands_eq ht' hg
  rw [qubitsAt, List.length_flatMap, List.map_congr_left hop, List.map_const', List.sum_replicate,
    h.filled.numGates, smul_eq_mul, mul_comm]

theorem Filling.qubitsAt_eq_nil (h : Filling C F s rest)
    (hx : (s.table.region x).typeOfGate = none) : qubitsAt F.body s.placed x = [] := by
  rw [qubitsAt, (h.filled.typeOfGate x).mp hx, List.flatMap_nil]

theorem Filling.length_qubitsAt_self (h : Filling C F s rest) (hg : F.body[k]? = some g)
    (hs : Sets d k g s x s') :
    (qubitsAt F.body s'.placed x).length
      = g.operands.length * ((s.table.region x).numGates + 1) := by
  obtain ⟨t, ht, henters⟩ := hs.enters
  rw [qubitsAt_self hs hg, List.length_append, accesses, List.length_map, mul_add, mul_one]
  rcases typeOfGate_of_takes henters.takes with htype | hnone
  · rw [h.length_qubitsAt ht htype]
  · rw [h.qubitsAt_eq_nil hnone, h.filled.numGates, (h.filled.typeOfGate x).mp hnone,
      List.length_nil, List.length_nil, mul_zero]

/-- Gates of one timestep have no qubit in common, so if the operands of each gate are different no
qubit of a region is counted twice. -/
theorem Queue.nodup_qubitsAt {T : FuncQbits} {all : List InstPri} (h : Queue C F T all s rest)
    (hF : ∀ g ∈ F.body, (accesses g).Nodup) : (qubitsAt F.body s.placed x).Nodup := by
  have hmem : ∀ k ∈ s.placed.opsAt x, s.placed.slot k = some x := fun k hk ↦
    (h.inv.consistent.mem x k).mp (Placement.mem_opsAt.mp hk)
  -- the later of two gates that have a qubit in common is at a later timestep
  have hlt : ∀ k ∈ s.placed.opsAt x, ∀ l ∈ s.placed.opsAt x, ¬ depends F.body k l := by
    intro k hk l hl hdep
    obtain ⟨n, hn, hlt⟩ := h.inv.timely k l x.1 hdep
      (Placement.time_eq_some.mpr ⟨x.2, hmem l hl⟩)
    obtain ⟨r, hr⟩ := Placement.time_eq_some.mp hn
    have heq := Option.some.inj ((hmem k hk).symm.trans hr)
    rw [heq] at hlt
    exact lt_irrefl n hlt
  have hshared : ∀ {k l a}, a ∈ (F.body[k]?.map accesses).getD [] →
      a ∈ (F.body[l]?.map accesses).getD [] → k < l → depends F.body k l := by
    intro k l a hk hl hkl
    cases hg : F.body[k]? with
    | none =>
      rw [hg] at hk
      exact absurd hk List.not_mem_nil
    | some g =>
      cases hg' : F.body[l]? with
      | none =>
        rw [hg'] at hl
        exact absurd hl List.not_mem_nil
      | some g' =>
        rw [hg] at hk
        rw [hg'] at hl
        exact ⟨hkl, g, g', hg, hg', a, hk, a, hl, rfl, .inr (.inr rfl)⟩
  refine List.nodup_flatMap.mpr ⟨fun k hk ↦ ?_, ?_⟩
  · obtain ⟨g, t, hg, -⟩ := h.inv.typed k x (hmem k hk)
    rw [hg]
    exact hF g (List.mem_of_getElem? hg)
  · have hnodup : (s.placed.opsAt x).Nodup :=
      h.inv.consistent.nodup.sublist (List.filter_sublist.map _)
    refine hnodup.imp_of_mem fun {k l} hk hl hkl a hak hal ↦ ?_
    rcases lt_or_gt_of_ne hkl with hlt' | hgt
    · exact hlt k hk l hl (hshared hak hal hlt')
    · exact hlt l hl k hk (hshared hal hak hgt)

/-! ## The bound -/

/-- A gate that passes the test has room, unless it is one of those that the test forgets. -/
theorem le_iff_not_overfilled (hg : funcIndex (fname g) = some t) {r : Region}
    (hroom : r.room d t) :
    g.operands.length * (r.numGates + 1) ≤ d ↔ ¬ r.Overfilled d t g := by
  rw [Region.Overfilled, and_iff_right hroom, not_or, eq_CNOT_iff hg]
  rw [Region.room, Bool.and_eq_true] at hroom
  have htest := hroom.2
  have hle := length_operands_le g
  have hpos : 0 < g.operands.length := by
    rw [length_operands, operandCount]
    split_ifs <;> omega
  obtain hone | htwo | hthree : g.operands.length = 1 ∨ g.operands.length = 2 ∨
      g.operands.length = 3 := by omega
  · rw [if_neg (mt (eq_CNOT_iff hg).mp (by omega)), decide_eq_true_eq] at htest
    rw [hone]
    omega
  · rw [if_pos ((eq_CNOT_iff hg).mpr htwo), decide_eq_true_eq] at htest
    rw [htwo]
    omega
  · rw [hthree]
    omega

theorem regionFor_of_room (hs : Sets d k g s x s') (ht : funcIndex (fname g) = some t)
    (hroom : (s.table.region x).room d t) : regionFor d t s g = some x := by
  have hx := hs.searched t ht
  cases hfound : regionFor d t s g with
  | some y => rw [hx, hfound, Option.getD_some]
  | none =>
    -- a new timestep has only free regions
    rw [hfound, Option.getD_none] at hx
    rw [hx, Table.region, List.getElem?_eq_none le_rfl] at hroom
    exact absurd hroom Bool.false_ne_true

/-- **The step.** No region gets too many qubits exactly if none had and the gate fits where it
joins others. -/
theorem Filling.budget_step (hd : 3 ≤ d) (h : Filling C F s rest) (hg : F.body[k]? = some g)
    (hs : Sets d k g s x s') :
    (∀ y, (qubitsAt F.body s'.placed y).length ≤ d) ↔
      (∀ y, (qubitsAt F.body s.placed y).length ≤ d) ∧ JoinFits F d s k := by
  have hself := h.length_qubitsAt_self hg hs
  constructor
  · intro hbudget
    refine ⟨fun y ↦ ?_, fun g' t x' hg' ht hfound hover ↦ ?_⟩
    · by_cases hy : y = x
      · subst hy
        have hafter := hbudget y
        rw [qubitsAt_self hs hg, List.length_append] at hafter
        omega
      · rw [← qubitsAt_of_ne hs hy]
        exact hbudget y
    · cases hg.symm.trans hg'
      obtain rfl : x = x' := by rw [hs.searched t ht, hfound, Option.getD_some]
      refine (le_iff_not_overfilled ht hover.1).mp ?_ hover
      rw [← hself]
      exact hbudget x
  · rintro ⟨hbudget, hfits⟩ y
    by_cases hy : y = x
    · subst hy
      obtain ⟨t, ht, henters⟩ := hs.enters
      rw [hself]
      by_cases hroom : (s.table.region y).room d t
      · exact (le_iff_not_overfilled ht hroom).mpr
          (hfits g t y hg ht (regionFor_of_room hs ht hroom))
      · -- the gate is the first of its region
        have htakes := henters.takes
        rw [Region.takes, Bool.or_eq_true, beq_iff_eq] at htakes
        have hnone := htakes.resolve_left hroom
        rw [h.filled.numGates, (h.filled.typeOfGate y).mp hnone, List.length_nil, zero_add, mul_one]
        exact (length_operands_le g).trans hd
    · rw [qubitsAt_of_ne hs hy]
      exact hbudget y

/-- **When no region gets too many qubits**: if no gate joins a region that the test lets it
overfill. If the operands of each gate are different, the qubits that are counted are different as
well. -/
theorem budget_iff (hC : 1 ≤ C.RES_CONSTRAINT) (hd : 3 ≤ C.DATA_CONSTRAINT)
    (hs : schedule C S F = .ok s) :
    ((∀ x, (qubitsAt F.body s.placed x).length ≤ C.DATA_CONSTRAINT) ↔
      ∀ s k s', F.Step C S s k s' → JoinFits F C.DATA_CONSTRAINT s k) ∧
    ((∀ g ∈ F.body, (accesses g).Nodup) → ∀ x, (qubitsAt F.body s.placed x).Nodup) := by
  constructor
  · exact schedule_iff_steps (P := fun s ↦
      ∀ x, (qubitsAt F.body s.placed x).length ≤ C.DATA_CONSTRAINT)
      hC hs (fun T x ↦ Nat.zero_le _) fun s k g x p rest s' h hg hsets ↦
        h.budget_step hd hg hsets
  · intro hF x
    obtain ⟨⟨T, insts⟩, hprio, hrun⟩ := bind_eq_ok.mp hs
    have hend := (queue_start (C := C) S hprio).run hC (tracked_of_priorityVector hprio).2 hrun
    exact hend.nodup_qubitsAt hF

/-- **No region gets too many qubits** if the bound is even and no gate has three qubits. -/
theorem budget_of_even (hC : 1 ≤ C.RES_CONSTRAINT) (hd : 3 ≤ C.DATA_CONSTRAINT)
    (heven : Even C.DATA_CONSTRAINT) (hF : ∀ g ∈ F.body, g.operands.length ≤ 2)
    (hs : schedule C S F = .ok s) (x : ℕ × ℕ) :
    (qubitsAt F.body s.placed x).length ≤ C.DATA_CONSTRAINT := by
  refine (schedule_iff_steps (P := fun s ↦
    ∀ x, (qubitsAt F.body s.placed x).length ≤ C.DATA_CONSTRAINT)
    (G := fun s k _ ↦ JoinFits F C.DATA_CONSTRAINT s k) hC hs (fun T x ↦ Nat.zero_le _)
    fun s k g x p rest s' h hg hsets ↦ h.budget_step hd hg hsets).mpr ?_ x
  rintro s k - - g t x hg - - ⟨-, ⟨-, hodd⟩ | ⟨hthree, -⟩⟩
  · obtain ⟨e, he⟩ := heven
    omega
  · have htwo := hF g (List.mem_of_getElem? hg)
    omega

/-- Two `CNOT`s on four qubits, with one region. -/
def twoCNOTs : LeafFunction :=
  ⟨[], [("q".toList, .qbit)], [.CNOT ⟨"q".toList, .qbit, some 0⟩ ⟨"q".toList, .qbit, some 1⟩,
    .CNOT ⟨"q".toList, .qbit, some 2⟩ ⟨"q".toList, .qbit, some 3⟩], by simp⟩

/-- With room for three qubits the second `CNOT` passes the test, and the region touches four. -/
theorem not_budget_twoCNOTs :
    ¬ ∀ (C : Constraints) (S : PrioritySort) (F : LeafFunction) (s : LeafState),
      1 ≤ C.RES_CONSTRAINT → 3 ≤ C.DATA_CONSTRAINT → schedule C S F = .ok s →
        ∀ x, (qubitsAt F.body s.placed x).toFinset.card ≤ C.DATA_CONSTRAINT := by
  intro hall
  have hrun : (schedule ⟨1, 3⟩ .stable twoCNOTs).toOption.map
      (fun s ↦ (qubitsAt twoCNOTs.body s.placed (0, 0)).toFinset.card) = some 4 := by
    decide +kernel
  cases hs : schedule ⟨1, 3⟩ .stable twoCNOTs with
  | error e =>
    rw [hs] at hrun
    cases hrun
  | ok s =>
    rw [hs] at hrun
    have hfour : (qubitsAt twoCNOTs.body s.placed (0, 0)).toFinset.card = 4 :=
      Option.some.inj hrun
    have hcard : (qubitsAt twoCNOTs.body s.placed (0, 0)).toFinset.card ≤ 3 :=
      hall ⟨1, 3⟩ .stable twoCNOTs s le_rfl le_rfl hs (0, 0)
    omega

/-- With room for four it fits. -/
theorem budget_iff_twoCNOTs : ∃ s, schedule ⟨1, 4⟩ .stable twoCNOTs = .ok s ∧
    ((∀ x, (qubitsAt twoCNOTs.body s.placed x).length ≤ 4) ↔
      ∀ s k s', twoCNOTs.Step ⟨1, 4⟩ .stable s k s' → JoinFits twoCNOTs 4 s k) ∧
    ((∀ g ∈ twoCNOTs.body, (accesses g).Nodup) →
      ∀ x, (qubitsAt twoCNOTs.body s.placed x).Nodup) := by
  have hrun : (schedule ⟨1, 4⟩ .stable twoCNOTs).toOption.isSome := by decide +kernel
  cases hs : schedule ⟨1, 4⟩ .stable twoCNOTs with
  | error e =>
    rw [hs] at hrun
    cases hrun
  | ok s =>
    exact ⟨s, rfl, budget_iff (C := ⟨1, 4⟩) le_rfl (by decide) hs⟩

end ScaffCC.GenSimd
