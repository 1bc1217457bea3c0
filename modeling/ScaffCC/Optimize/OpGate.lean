import ScaffCC.IR.Gate

/-!
# Gates of the optimizer

The pass `Optimize` works on a vector of `OpGate`s, one for each gate of the flattened circuit.
Qubits are numbered from 1 and the number 0 stands for an operand the gate does not have. A gate
that is optimized away stays in the vector as an erased slot.

`ifCommute` is the pass's syntactic test that two gates commute. It errs on one side only: when it
says yes of two slots, the operators of their outcomes commute.
-/

open Quantum

namespace ScaffCC.Optimize

/-- The values of `gateTy`, the letters of the source in order: `'\0'` for an erased
slot, `h`, `c`, `o`, `X`, `Z`, `n`, `m`, `S`, `s`, `t`, `T`, `r`, `x` and `z`. -/
inductive GateTy
  | erased
  | H
  | CNOT
  | Tof
  | MeasX
  | MeasZ
  | PrepX
  | PrepZ
  | Sdag
  | S
  | T
  | Tdag
  | Rz
  | X
  | Z
  deriving DecidableEq, Repr

/-- A slot of the gate list. -/
structure OpGate where
  gateTy : GateTy
  target : ℕ
  control1 : ℕ
  control2 : ℕ
  hasParam : Bool
  param : ℚ
  deriving DecidableEq, Repr

/-- What `erase_OpGate` leaves in a slot. -/
def erased : OpGate := ⟨.erased, 0, 0, 0, false, 0⟩

/-- A CNOT from control `c` to target `t`. -/
def cnotGate (c t : ℕ) : OpGate := ⟨.CNOT, t, c, 0, false, 0⟩

/-- The gates that are not a CNOT or a Toffoli. -/
def GateTy.oneQubit : GateTy → Bool
  | .CNOT | .Tof => false
  | _ => true

/-- The gates the flags `G1st` and `G2st` stand for. -/
def GateTy.st : GateTy → Bool
  | .S | .Sdag | .T | .Tdag => true
  | _ => false

/-- Whether the pass takes two gates to commute. -/
def ifCommute (G1 G2 : OpGate) : Bool :=
  if G1.gateTy = .erased ∨ G2.gateTy = .erased then true
  else if G1.gateTy.oneQubit ∧ G2.gateTy.oneQubit then
    if G1.target ≠ G2.target then true
    else G1.gateTy.st && G2.gateTy.st
  else if G1.gateTy.oneQubit then
    if G1.target ≠ G2.target ∧ G1.target ≠ G2.control1 ∧ G1.target ≠ G2.control2 then true
    else G1.gateTy.st && G1.target ≠ G2.target
  else if G2.gateTy.oneQubit then
    if G2.target ≠ G1.target ∧ G2.target ≠ G1.control1 ∧ G2.target ≠ G1.control2 then true
    else G2.gateTy.st && G1.target ≠ G2.target
  else
    G1.target ≠ G2.control1 ∧ G1.target ≠ G2.control2 ∧ G2.target ≠ G1.control1 ∧
      G2.target ≠ G1.control2

/-- Whether two gates have an operand in common. -/
def shareBit (G1 G2 : OpGate) : Bool :=
  (G1.target = G2.target ∧ G1.target ≠ 0) ∨ (G1.target = G2.control1 ∧ G1.target ≠ 0) ∨
    (G1.target = G2.control2 ∧ G1.target ≠ 0) ∨ (G1.control1 = G2.control2 ∧ G1.control1 ≠ 0) ∨
    (G1.control1 = G2.control1 ∧ G1.control1 ≠ 0) ∨ (G1.control1 = G2.target ∧ G1.control1 ≠ 0) ∨
    (G1.control2 = G2.target ∧ G1.control2 ≠ 0) ∨ (G1.control2 = G2.control1 ∧ G1.control2 ≠ 0) ∨
    (G1.control2 = G2.control2 ∧ G1.control2 ≠ 0)

/-! ## Meaning -/

def OpGate.toGate (g : OpGate) : Option (GateCall ℕ) :=
  match g.gateTy with
  | .erased => none
  | .H => some (.gate1 .H g.target)
  | .CNOT => some (.CNOT g.control1 g.target)
  | .Tof => some (.Toffoli g.control1 g.control2 g.target)
  | .MeasX => some (.meas .x g.target)
  | .MeasZ => some (.meas .z g.target)
  | .PrepX => some (.prep .x g.target ⌊g.param⌋)
  | .PrepZ => some (.prep .z g.target ⌊g.param⌋)
  | .Sdag => some (.gate1 .Sdag g.target)
  | .S => some (.gate1 .S g.target)
  | .T => some (.gate1 .T g.target)
  | .Tdag => some (.gate1 .Tdag g.target)
  | .Rz => some (.rot .z g.target g.param)
  | .X => some (.gate1 .X g.target)
  | .Z => some (.gate1 .Z g.target)

/-- The circuit of a gate list, its erased slots left out. -/
def gates (G : List OpGate) : List (GateCall ℕ) := G.filterMap OpGate.toGate

@[simp] theorem toGate_erased : erased.toGate = none := rfl

@[simp] theorem gates_cons_erased (G : List OpGate) : gates (erased :: G) = gates G :=
  List.filterMap_cons_none toGate_erased

@[simp] theorem gates_append (G H : List OpGate) : gates (G ++ H) = gates G ++ gates H :=
  List.filterMap_append

def OpGate.operands (g : OpGate) : List ℕ :=
  match g.gateTy with
  | .erased => []
  | .CNOT => [g.control1, g.target]
  | .Tof => [g.control1, g.control2, g.target]
  | _ => [g.target]

/-- A CNOT, a Toffoli or a one-qubit gate on distinct qubits below `b`, with 0 for the operands it
does not have. -/
@[mk_iff] structure OpGate.WellFormed (b : ℕ) (g : OpGate) : Prop where
  not_erased : g.gateTy ≠ .erased
  nodup : g.operands.Nodup
  range : ∀ q ∈ g.operands, 1 ≤ q ∧ q < b
  control1 : g.gateTy.oneQubit = true → g.control1 = 0
  control2 : g.gateTy ≠ .Tof → g.control2 = 0

instance (b : ℕ) (g : OpGate) : Decidable (g.WellFormed b) :=
  decidable_of_iff _ (OpGate.wellFormed_iff b g).symm

/-- What the pass finds in a slot: a well-formed gate or what `erase_OpGate` leaves. -/
def OpGate.Slot (b : ℕ) (g : OpGate) : Prop := g = erased ∨ g.WellFormed b

theorem OpGate.Slot.wellFormed {b : ℕ} {g : OpGate} (h : g.Slot b) (hg : g.gateTy ≠ .erased) :
    g.WellFormed b := by
  rcases h with rfl | h
  · exact absurd rfl hg
  · exact h

namespace OpGate

variable {b : ℕ} {g h : OpGate} {k : GateCall ℕ} {a : Op ℕ ℂ}

theorem toGate_of_CNOT (hg : g.gateTy = .CNOT) : g.toGate = some (.CNOT g.control1 g.target) := by
  rw [toGate, hg]

theorem WellFormed.control1_ne_target (hg : g.WellFormed b) (hty : g.gateTy = .CNOT) :
    g.control1 ≠ g.target := by
  have := hg.nodup
  rw [operands, hty] at this
  simpa using this

/-! ## Commutation -/

noncomputable def cnot (g : OpGate) : Op ℕ ℂ := flip ℂ g.target fun x ↦ x g.control1

theorem outcomes_CNOT (hg : g.gateTy = .CNOT) (hk : g.toGate = some k) : k.outcomes = [g.cnot] := by
  rw [toGate_of_CNOT hg, Option.some.injEq] at hk
  rw [← hk]
  rfl

private theorem exists_onWire (hh : h.gateTy.oneQubit) (hk : h.toGate = some k)
    (ha : a ∈ k.outcomes) : ∃ u, a = onWire h.target u := by
  rw [toGate] at hk
  cases hty : h.gateTy <;> rw [hty] at hk hh <;>
    first
    | exact absurd hh Bool.false_ne_true
    | exact absurd hk.symm (Option.some_ne_none _)
    | skip
  all_goals
    rw [Option.some.injEq] at hk
    rw [← hk] at ha
    simp only [GateCall.outcomes, List.mem_cons, List.not_mem_nil, or_false] at ha
    first
    | exact ⟨_, ha⟩
    | exact ha.elim (fun ha ↦ ⟨_, ha⟩) fun ha ↦ ⟨_, ha⟩

private theorem exists_diagonal (hh : h.gateTy.st) (hk : h.toGate = some k)
    (ha : a ∈ k.outcomes) : ∃ d, a = onWire h.target (.diagonal d) := by
  rw [toGate] at hk
  cases hty : h.gateTy <;> rw [hty] at hk hh <;>
    first
    | exact absurd hh Bool.false_ne_true
    | skip
  all_goals
    rw [Option.some.injEq] at hk
    rw [← hk, GateCall.outcomes, List.mem_singleton] at ha
    exact ⟨_, ha⟩

private theorem exists_flip (hh : ¬ h.gateTy.oneQubit) (hk : h.toGate = some k)
    (ha : a ∈ k.outcomes) : ∃ p, a = flip ℂ h.target p ∧
      ∀ q, q ≠ h.control1 → q ≠ h.control2 → Indep p q := by
  cases hty : h.gateTy <;> rw [hty] at hh <;> first | exact absurd rfl hh | skip
  · rw [outcomes_CNOT hty hk, List.mem_singleton] at ha
    exact ⟨_, ha, fun q hq _ x b ↦ Function.update_of_ne hq.symm b x⟩
  · rw [toGate, hty, Option.some.injEq] at hk
    rw [← hk, GateCall.outcomes, List.mem_singleton] at ha
    refine ⟨_, ha, fun q hq hq' x b ↦ ?_⟩
    rw [Function.update_of_ne hq.symm, Function.update_of_ne hq'.symm]

private theorem commute_onWire_controlled {l : GateCall ℕ} {a' : Op ℕ ℂ}
    (hone : h.gateTy.oneQubit) (hcontrolled : ¬ g.gateTy.oneQubit)
    (hgh : (h.target ≠ g.target ∧ h.target ≠ g.control1 ∧ h.target ≠ g.control2) ∨
      h.gateTy.st ∧ h.target ≠ g.target)
    (hk : h.toGate = some k) (ha : a ∈ k.outcomes) (hl : g.toGate = some l)
    (ha' : a' ∈ l.outcomes) : Commute a a' := by
  obtain ⟨p, rfl, hp⟩ := exists_flip hcontrolled hl ha'
  rcases hgh with ⟨ht, hc1, hc2⟩ | ⟨hst, ht⟩
  · obtain ⟨u, rfl⟩ := exists_onWire hone hk ha
    exact commute_onWire_flip ht (hp _ hc1 hc2) u
  · obtain ⟨d, rfl⟩ := exists_diagonal hst hk ha
    exact commute_onWire_diagonal_flip ht d p

theorem not_erased_of_toGate (hk : g.toGate = some k) : g.gateTy ≠ .erased := by
  intro hty
  rw [toGate, hty] at hk
  exact absurd hk.symm (Option.some_ne_none _)

/-- **Soundness of `ifCommute`.** All outcomes of what it takes to commute commute. -/
theorem commute_outcomes {l : GateCall ℕ} {a' : Op ℕ ℂ} (hgh : ifCommute g h)
    (hk : g.toGate = some k) (ha : a ∈ k.outcomes) (hl : h.toGate = some l)
    (ha' : a' ∈ l.outcomes) : Commute a a' := by
  have herased : ¬ (g.gateTy = .erased ∨ h.gateTy = .erased) :=
    not_or.mpr ⟨not_erased_of_toGate hk, not_erased_of_toGate hl⟩
  rw [ifCommute, if_neg herased] at hgh
  by_cases hg : g.gateTy.oneQubit
  · by_cases hh : h.gateTy.oneQubit
    · rw [if_pos ⟨hg, hh⟩] at hgh
      by_cases hdisj : g.target ≠ h.target
      · obtain ⟨u, rfl⟩ := exists_onWire hg hk ha
        obtain ⟨v, rfl⟩ := exists_onWire hh hl ha'
        exact commute_onWire hdisj u v
      · rw [if_neg hdisj, Bool.and_eq_true] at hgh
        obtain ⟨d, rfl⟩ := exists_diagonal hgh.1 hk ha
        obtain ⟨e, rfl⟩ := exists_diagonal hgh.2 hl ha'
        rw [not_not.mp hdisj]
        exact commute_onWire_diagonal h.target d e
    · rw [if_neg fun hboth ↦ hh hboth.2, if_pos hg] at hgh
      refine commute_onWire_controlled hg hh ?_ hk ha hl ha'
      split_ifs at hgh with hdisj
      · exact .inl hdisj
      · exact .inr (by simpa using hgh)
  · rw [if_neg fun hboth ↦ hg hboth.1, if_neg hg] at hgh
    by_cases hh : h.gateTy.oneQubit
    · rw [if_pos hh] at hgh
      refine (commute_onWire_controlled hh hg ?_ hl ha' hk ha).symm
      split_ifs at hgh with hdisj
      · exact .inl hdisj
      · rw [Bool.and_eq_true, decide_eq_true_iff] at hgh
        exact .inr ⟨hgh.1, hgh.2.symm⟩
    · rw [if_neg hh, decide_eq_true_iff] at hgh
      obtain ⟨hc1, hc2, ht1, ht2⟩ := hgh
      obtain ⟨p, rfl, hp⟩ := exists_flip hg hk ha
      obtain ⟨p', rfl, hp'⟩ := exists_flip hh hl ha'
      exact commute_flip (hp _ ht1 ht2) (hp' _ hc1 hc2)

theorem commute_of_ifCommute (hg : g.gateTy = .CNOT) (hgh : ifCommute g h)
    (hk : h.toGate = some k) (ha : a ∈ k.outcomes) : Commute a g.cnot :=
  (commute_outcomes hgh (toGate_of_CNOT hg) List.mem_cons_self hk ha).symm

end OpGate

end ScaffCC.Optimize
