import ScaffCC.Optimize.Restart

/-!
# What the optimized circuit means

Moving a CNOT past gates it commutes with, and cancelling two equal CNOTs that meet, keep the
operation of the circuit. Replacing two reversed CNOTs by one does not: the operation changes by an
exchange of the two wires, and the exchange is to be recorded in `M`, but the entries of `M` are
looked up by the operands of a slot that was erased two lines before. So `M` is the identity at all
times, and the circuit keeps its operation as long as no two CNOTs are merged.
-/

open StateTransition Quantum

namespace ScaffCC.Optimize

/-! ## Circuits -/

section Circuit

variable {A B C : List OpGate} {x f : OpGate}

theorem gates_cons_CNOT (hx : x.gateTy = .CNOT) (G : List OpGate) :
    gates (x :: G) = .CNOT x.control1 x.target :: gates G :=
  List.filterMap_cons_some (OpGate.toGate_of_CNOT hx)

theorem commute_cnot_of_mem_gates (h : ∀ y ∈ B, ∀ k, y.toGate = some k →
    ∀ a ∈ k.outcomes, Commute a x.cnot) :
    ∀ k ∈ gates B, ∀ a ∈ k.outcomes, Commute a x.cnot := by
  intro k hk
  obtain ⟨y, hy, hyk⟩ := List.mem_filterMap.mp hk
  exact h y hy k hyk

theorem circuit_move (hx : x.gateTy = .CNOT) (h : ∀ y ∈ B, ifCommute x y) :
    circuit (gates (A ++ x :: (B ++ C))) = circuit (gates (A ++ (B ++ x :: C))) := by
  have hcomm := commute_cnot_of_mem_gates fun y hy k hk a ha ↦
    OpGate.commute_of_ifCommute hx (h y hy) hk ha
  have hseg := run_append_singleton_of_commute (m := GateCall.outcomes)
    (g := .CNOT x.control1 x.target) (b := x.cnot) rfl hcomm
  have hrun := run_congr_segment hseg (gates A) (gates C)
  simp only [gates_append, gates_cons_CNOT hx, circuit]
  simpa using hrun.symm

/-- Two equal CNOTs cancel when each gate between commutes with one of them. -/
theorem circuit_cancel (hx : x.gateTy = .CNOT) (hf : f.gateTy = .CNOT) (hne : x.control1 ≠ x.target)
    (ht : f.target = x.target) (hc : f.control1 = x.control1)
    (h : ∀ y ∈ B, ifCommute x y ∨ ifCommute f y) :
    circuit (gates (A ++ x :: (B ++ f :: C))) =
      circuit (gates (A ++ erased :: (B ++ erased :: C))) := by
  have hcnot : f.cnot = x.cnot := by rw [OpGate.cnot, OpGate.cnot, ht, hc]
  have hcomm : ∀ k ∈ gates B, ∀ a ∈ k.outcomes, Commute a x.cnot := by
    refine commute_cnot_of_mem_gates fun y hy k hk a ha ↦ ?_
    rcases h y hy with hxy | hfy
    · exact OpGate.commute_of_ifCommute hx hxy hk ha
    · exact hcnot ▸ OpGate.commute_of_ifCommute hf hfy hk ha
  have hself : x.cnot * x.cnot = 1 :=
    flip_mul_self fun y b ↦ Function.update_of_ne hne b y
  set k : GateCall ℕ := .CNOT x.control1 x.target with hk
  have hout : k.outcomes = [x.cnot] := rfl
  have hseg : run GateCall.outcomes (k :: (gates B ++ [k])) = run GateCall.outcomes (gates B) := by
    rw [run_cons, run_append_singleton_of_commute hout hcomm, run_cons, ← andThen_assoc, hout,
      andThen_singleton, List.map_singleton, hself, one_andThen]
  have hrun := run_congr_segment hseg (gates A) (gates C)
  have hleft : gates (A ++ x :: (B ++ f :: C)) = gates A ++ k :: (gates B ++ [k]) ++ gates C := by
    rw [gates_append, gates_cons_CNOT hx, gates_append, gates_cons_CNOT hf, ht, hc, ← hk]
    simp
  have hright : gates (A ++ erased :: (B ++ erased :: C)) = gates A ++ gates B ++ gates C := by
    simp
  rw [hleft, hright]
  exact hrun

end Circuit

/-! ## What a step keeps -/

/-- The circuit of `G`, run up to the permutation of the wires recorded in `M`. -/
def Implements (G : List OpGate) (s : OptState) : Prop :=
  ∃ σ : Equiv.Perm ℕ, (∀ i, σ i = s.M.getD i i) ∧
    circuit (gates G) = (circuit (gates s.G)).map (rename ℂ σ * ·)

namespace OptState

/-- The step from the state merges no CNOTs, does not read before the front of the list, and is not
one of a restart that comes back. -/
def Safe (s : OptState) : Prop := ¬ s.Merges ∧ ¬ s.OffFront ∧ ¬ s.Trapped

/-- The slots are well formed, `M` is the identity, and the circuit is that of `G`. -/
structure Sound (b : ℕ) (G : List OpGate) (s : OptState) : Prop where
  slot : ∀ g ∈ s.G, g.Slot b
  map : s.M = List.range (b + 1)
  circuit : circuit (gates s.G) = circuit (gates G)

variable {b : ℕ} {G : List OpGate} {s t : OptState}

theorem Sound.implements (h : s.Sound b G) : Implements G s := by
  refine ⟨1, fun i ↦ ?_, ?_⟩
  · rw [h.map, Equiv.Perm.one_apply]
    rcases Nat.lt_or_ge i (b + 1) with hi | hi
    · rw [List.getD_eq_getElem _ _ (by simpa using hi), List.getElem_range]
    · rw [List.getD_eq_default _ _ (by simpa using hi)]
  · simp [h.circuit]

theorem remap_eq {g : OpGate} (h : g.Slot b) (hg : g.gateTy ≠ .erased) :
    g.remap (List.range (b + 1)) = g := by
  have hwf := h.wellFormed hg
  have hid : ∀ q ≤ b, (List.range (b + 1)).getD q 0 = q := fun q hq ↦ by
    rw [List.getD_eq_getElem _ _ (by simpa using Nat.lt_succ_of_le hq), List.getElem_range]
  have hop : ∀ q ∈ g.operands, q ≤ b := fun q hq ↦ (hwf.range q hq).2.le
  have htarget : g.target ≤ b := by
    refine hop _ ?_
    rw [OpGate.operands]
    split <;> simp_all
  have hcontrol : g.control1 ≤ b := by
    by_cases hone : g.gateTy.oneQubit
    · rw [hwf.control1 hone]
      exact Nat.zero_le b
    · refine hop _ ?_
      rw [OpGate.operands]
      cases hty : g.gateTy <;> rw [hty] at hone <;> first | exact absurd rfl hone | simp
  rw [OpGate.remap, hid _ htarget, hid _ hcontrol]

theorem finish_G (h : ∀ g ∈ s.G, g.Slot b) (hM : s.M = List.range (b + 1))
    (hlt : s.gInd < s.G.length) : s.finish.G = s.G := by
  rw [finish]
  simp only
  split_ifs with hg
  · rw [hM, remap_eq (h _ (gateAt_mem hlt)) hg, gateAt_eq hlt, List.set_getElem_self]
  · rfl

theorem set_append_cons {A C : List OpGate} {x y : OpGate} {i : ℕ} (h : A.length = i) :
    (A ++ x :: C).set i y = A ++ y :: C := by
  rw [List.set_append_right _ _ h.le, h, Nat.sub_self, List.set_cons_zero]

theorem exists_cancel {o : ℕ} (h : s.action? = some (.cancel o)) :
    ∃ A B C x f, s.G = A ++ x :: (B ++ f :: C) ∧
      (s.cancel o).G = A ++ erased :: (B ++ erased :: C) ∧
      x.gateTy = .CNOT ∧ samePair x f ∧ ∀ y ∈ B, ifCommute x y ∨ ifCommute f y := by
  obtain ⟨-, hty, ha⟩ := action?_eq_some h
  obtain ⟨ho, hpair, p, hp⟩ := action_eq_cancel ha
  have hlt : s.gInd < s.gInd + o := by omega
  obtain ⟨A, B, C, hG, hA, hB⟩ := exists_split hlt ho.2
  obtain ⟨-, hup, hdown, -⟩ := canSwap_eq_pos hlt hp
  refine ⟨A, B, C, _, _, hG, ?_, hty, hpair, fun y hy ↦ ?_⟩
  · rw [cancel]
    simp only
    conv_lhs => rw [hG]
    rw [set_append_cons hA, ← List.cons_append, ← List.append_assoc, set_append_cons,
      List.append_assoc, List.cons_append]
    rw [List.length_append, List.length_cons]
    omega
  · obtain ⟨j, hj, rfl⟩ := exists_gateAt (A := A ++ [gateAt s.G s.gInd])
      (R := gateAt s.G (s.gInd + o) :: C) hy
    rw [List.append_assoc, List.append_assoc, List.singleton_append, ← hG]
    rw [List.length_append, List.length_singleton] at hj
    rcases Nat.lt_or_ge p j with hpj | hjp
    · exact .inr (hdown j hpj (by omega))
    · exact .inl (hup j (by omega) hjp)

theorem exists_restart {p : ℕ} (h : s.action? = some (.move p)) :
    ∃ A B C x, s.G = A ++ x :: (B ++ C) ∧ moveTo s.G s.gInd p = A ++ (B ++ x :: C) ∧
      x.gateTy = .CNOT ∧ ∀ y ∈ B, ifCommute x y := by
  obtain ⟨hb, hbl⟩ := move_bounds h
  obtain ⟨hty, hpass, -⟩ := move_spec h
  obtain ⟨A, B, C, hG, hmove, hA, hB⟩ := exists_moveTo hb hbl
  refine ⟨A, B, C, _, hG, hmove, hty, ?_⟩
  have hdrop : s.G.drop s.gInd = gateAt s.G s.gInd :: (B ++ C) := by
    conv_lhs => rw [hG]
    rw [← hA, List.drop_left]
  rw [hdrop, List.tail_cons, ← hB, List.take_left] at hpass
  exact hpass

theorem slot_cancel (hs : s.Sound b G) (o : ℕ) : ∀ g ∈ (s.cancel o).G, g.Slot b := by
  intro g hg
  rcases List.mem_or_eq_of_mem_set hg with hg | rfl
  · rcases List.mem_or_eq_of_mem_set hg with hg | rfl
    · exact hs.slot g hg
    · exact .inl rfl
  · exact .inl rfl

/-- **The step lemma.** Every step but a merge keeps the circuit. -/
theorem Sound.step (hs : s.Sound b G) (hm : ¬ s.Merges) (h : s.step = some t) : t.Sound b G := by
  obtain ⟨hlt, ⟨p, hp, rfl⟩ | ⟨o, ho, rfl⟩ | ⟨o, ho, -⟩ | rfl⟩ := step_eq_some h
  · obtain ⟨hb, hbl⟩ := move_bounds hp
    obtain ⟨A, B, C, x, hG, hmove, hx, hpass⟩ := exists_restart hp
    refine ⟨fun g hg ↦ hs.slot g ((perm_moveTo hb hbl).mem_iff.mp hg), hs.map, ?_⟩
    rw [← hs.circuit, hmove, hG]
    exact (circuit_move hx hpass).symm
  · obtain ⟨A, B, C, x, f, hG, hcancel, hx, hpair, hmeet⟩ := exists_cancel ho
    rw [samePair, decide_eq_true_iff] at hpair
    have hslot := slot_cancel hs o
    have hxslot : x.Slot b := hs.slot x (by rw [hG]; simp)
    have hne := (hxslot.wellFormed (by rw [hx]; decide)).control1_ne_target hx
    have hfin : (s.cancel o).finish.G = (s.cancel o).G :=
      finish_G hslot hs.map ((length_cancel o).symm ▸ hlt)
    refine ⟨hfin.symm ▸ hslot, hs.map, ?_⟩
    rw [hfin, hcancel, ← hs.circuit, hG]
    exact (circuit_cancel hx hpair.1 hne hpair.2.1 hpair.2.2 hmeet).symm
  · exact absurd ⟨o, ho⟩ hm
  · have hG := finish_G hs.slot hs.map hlt
    exact ⟨hG.symm ▸ hs.slot, hs.map, hG.symm ▸ hs.circuit⟩

/-! ## The number of gates -/

theorem countGate_step (hs : s.Sound b G) (hm : ¬ s.Merges) (h : s.step = some t) :
    countGate t.G ≤ countGate s.G := by
  obtain ⟨hlt, ⟨p, hp, rfl⟩ | ⟨o, ho, rfl⟩ | ⟨o, ho, -⟩ | rfl⟩ := step_eq_some h
  · exact ((perm_moveTo (move_bounds hp).1 (move_bounds hp).2).countP_eq _).le
  · obtain ⟨A, B, C, x, f, hG, hcancel, -⟩ := exists_cancel ho
    have hslot : ∀ g ∈ (s.cancel o).G, g.Slot b := slot_cancel hs o
    rw [finish_G hslot hs.map ((length_cancel o).symm ▸ hlt), hcancel, hG]
    simp only [countGate, List.countP_append, List.countP_cons]
    simp only [erased, ne_eq, not_true, decide_false, Bool.false_eq_true, if_false]
    omega
  · exact absurd ⟨o, ho⟩ hm
  · rw [finish_G hs.slot hs.map hlt]

end OptState

/-! ## The loop -/

namespace LoopState

variable {b : ℕ} {G : List OpGate} {s t : LoopState}

theorem step_of_opt {o : OptState} (h : s.opt.step = some o) :
    s.step = some ⟨o, s.gNumBefore⟩ := by
  rw [step, h]

theorem reaches_of_opt {o : OptState} (h : Reaches OptState.step s.opt o) :
    Reaches step s ⟨o, s.gNumBefore⟩ := by
  refine Reaches.invariant (P := fun o ↦ Reaches step s ⟨o, s.gNumBefore⟩) h .refl ?_
  intro u v _ hu huv
  exact hu.tail (step_of_opt (s := ⟨u, s.gNumBefore⟩) huv)

/-- A step of the loop is one of the call, or starts the next call on the same list. -/
theorem step_eq_some (h : s.step = some t) :
    s.opt.step = some t.opt ∨ (t.opt.G = s.opt.G ∧ t.opt.M = s.opt.M) := by
  rw [step] at h
  cases ho : s.opt.step with
  | some o =>
    simp only [ho, Option.some.injEq] at h
    exact .inl (h ▸ rfl)
  | none =>
    simp only [ho] at h
    split_ifs at h
    rw [Option.some.injEq] at h
    exact .inr (h ▸ ⟨rfl, rfl⟩)

theorem sound_step (hs : s.opt.Sound b G) (hm : ¬ s.opt.Merges) (h : s.step = some t) :
    t.opt.Sound b G := by
  rcases step_eq_some h with hopt | ⟨hG, hM⟩
  · exact hs.step hm hopt
  · exact ⟨hG ▸ hs.slot, hM ▸ hs.map, hG ▸ hs.circuit⟩

theorem sound_start (hG : ∀ g ∈ G, g.WellFormed b) :
    (start G (List.range (b + 1))).opt.Sound b G :=
  ⟨fun g hg ↦ .inr (hG g hg), rfl, rfl⟩

/-- As long as no two CNOTs were merged, the circuit is that of the input. -/
theorem sound_of_reaches (hG : ∀ g ∈ G, g.WellFormed b)
    (h : Reaches step (start G (List.range (b + 1))) s)
    (hm : ∀ u, Reaches step (start G (List.range (b + 1))) u → Reaches₁ step u s →
      ¬ u.opt.Merges) : s.opt.Sound b G := by
  induction h with
  | refl => exact sound_start hG
  | tail hu hus ih =>
    exact sound_step (ih fun w hw hwu ↦ hm w hw (hwu.tail hus)) (hm _ hu (.single hus)) hus

/-- A call of the loop that is safe ends, with no more gates than before it. -/
theorem exists_end_opt {s : OptState} (hs : s.Sound b G) (hlen : s.G.length < 2 ^ 32)
    (hsafe : ∀ t, Reaches OptState.step s t → t.Safe) :
    ∃ e ∈ eval OptState.step s, e.G.length ≤ e.gInd ∧ e.Sound b G ∧
      countGate e.G ≤ countGate s.G := by
  obtain ⟨e, he, hend⟩ := OptState.exists_end hlen
    (fun g hg ↦ hs.slot g (List.mem_of_mem_drop hg)) fun t ht ↦ (hsafe t ht).2
  refine ⟨e, he, hend, ?_⟩
  exact Reaches.invariant (P := fun t ↦ t.Sound b G ∧ countGate t.G ≤ countGate s.G)
    (mem_eval.mp he).1 ⟨hs, le_rfl⟩ fun u v hu ih huv ↦
      ⟨ih.1.step (hsafe u hu).1 huv, (OptState.countGate_step ih.1 (hsafe u hu).1 huv).trans ih.2⟩

/-- The loop ends: every call but the last one has fewer gates to start from. -/
theorem exists_end (hlen : G.length < 2 ^ 32) : ∀ n (s : LoopState), s.gNumBefore = n →
    s.opt.Sound b G → s.opt.G.length = G.length → countGate s.opt.G ≤ n →
    (∀ t, Reaches step s t → t.opt.Safe) →
    ∃ e ∈ eval step s, e.opt.G.length ≤ e.opt.gInd ∧ e.opt.Sound b G := by
  intro n
  induction n using Nat.strong_induction_on with
  | _ n ih =>
    intro s hn hs hl hcount hsafe
    obtain ⟨e, he, hend, hsound, hle⟩ := exists_end_opt hs (hl ▸ hlen) fun t ht ↦
      hsafe _ (reaches_of_opt ht)
    obtain ⟨hreach, hstop⟩ := mem_eval.mp he
    have hrun := reaches_of_opt hreach
    by_cases heq : s.gNumBefore = countGate e.G
    · refine ⟨⟨e, s.gNumBefore⟩, mem_eval.mpr ⟨hrun, ?_⟩, hend, hsound⟩
      rw [step]
      simp [hstop, not_lt.mpr hend, heq]
    · have hnext : step ⟨e, s.gNumBefore⟩ = some ⟨{ e with gInd := 0 }, countGate e.G⟩ := by
        rw [step]
        simp [hstop, not_lt.mpr hend, heq]
      obtain ⟨e', he', hdone⟩ := ih (countGate e.G) (by omega)
        ⟨{ e with gInd := 0 }, countGate e.G⟩ rfl ⟨hsound.slot, hsound.map, hsound.circuit⟩
        ((OptState.length_of_reaches hreach).trans hl) le_rfl
        fun t ht ↦ hsafe t ((hrun.tail hnext).trans ht)
      exact ⟨e', reaches_eval (hrun.tail hnext) ▸ he', hdone⟩

end LoopState

/-- **The loop keeps the operation where it does not merge.** Until a run merges two CNOTs, every
state it reaches implements the input. A run that never merges, never comes to a trapped state and
never reads before the front of the list ends, and what it ends with implements the input. -/
theorem implements_of_not_merges {b : ℕ} {G : List OpGate} (hG : ∀ g ∈ G, g.WellFormed b)
    (hlen : G.length < 2 ^ 32) :
    (∀ s, Reaches LoopState.step (.start G (List.range (b + 1))) s →
      (∀ u, Reaches LoopState.step (.start G (List.range (b + 1))) u →
        Reaches₁ LoopState.step u s → ¬ u.opt.Merges) → Implements G s.opt) ∧
    ((∀ s, Reaches LoopState.step (.start G (List.range (b + 1))) s → s.opt.Safe) →
      ∃ e ∈ eval LoopState.step (.start G (List.range (b + 1))),
        e.opt.G.length ≤ e.opt.gInd ∧ Implements G e.opt) := by
  refine ⟨fun s hs hm ↦ (LoopState.sound_of_reaches hG hs hm).implements, fun hsafe ↦ ?_⟩
  obtain ⟨e, he, hend, hsound⟩ := LoopState.exists_end hlen G.length
    (.start G (List.range (b + 1))) rfl (LoopState.sound_start hG) rfl List.countP_le_length hsafe
  exact ⟨e, he, hend, hsound.implements⟩

theorem implements_of_not_merges_cancel :
    (∀ s, Reaches LoopState.step (.start [cnotGate 1 2, cnotGate 1 3] (List.range 5)) s →
      (∀ u, Reaches LoopState.step (.start [cnotGate 1 2, cnotGate 1 3] (List.range 5)) u →
        Reaches₁ LoopState.step u s → ¬ u.opt.Merges) →
        Implements [cnotGate 1 2, cnotGate 1 3] s.opt) ∧
    ((∀ s, Reaches LoopState.step (.start [cnotGate 1 2, cnotGate 1 3] (List.range 5)) s →
        s.opt.Safe) →
      ∃ e ∈ eval LoopState.step (.start [cnotGate 1 2, cnotGate 1 3] (List.range 5)),
        e.opt.G.length ≤ e.opt.gInd ∧ Implements [cnotGate 1 2, cnotGate 1 3] e.opt) :=
  implements_of_not_merges (b := 4) (by decide) (by decide)

theorem circuit_reversedPair : circuit (gates [cnotGate 1 2, cnotGate 2 1]) =
    [reindex ℂ (flipWhen 2 (fun x ↦ x 1) ∘ flipWhen 1 fun x ↦ x 2)] := by
  rw [gates_cons_CNOT rfl, gates_cons_CNOT rfl, GateCall.circuit_of_isUnitary]
  · rfl
  · intro g hg
    rcases List.mem_pair.mp hg with rfl | rfl <;> trivial

theorem circuit_merged : circuit (gates [erased, cnotGate 1 2]) =
    [reindex ℂ (flipWhen 2 fun x ↦ x 1)] := by
  rw [gates_cons_erased, gates_cons_CNOT rfl, GateCall.circuit_of_isUnitary]
  · rfl
  · intro g hg
    rw [List.mem_singleton.mp hg]
    trivial

/-- The two CNOTs become one whatever permutation of the wires follows. -/
theorem not_implements_merge :
    ∃ e ∈ eval LoopState.step (.start [cnotGate 1 2, cnotGate 2 1] (List.range 4)),
      e.opt.G.length ≤ e.opt.gInd ∧ ∀ σ : Equiv.Perm ℕ,
        circuit (gates [cnotGate 1 2, cnotGate 2 1]) ≠
          (circuit (gates e.opt.G)).map (rename ℂ σ * ·) := by
  let G : List OpGate := [erased, cnotGate 1 2]
  refine ⟨⟨⟨G, List.range 4, 2⟩, 1⟩, mem_eval.mpr ⟨?_, by decide⟩, by decide, fun σ h ↦ ?_⟩
  · have hmerge : LoopState.step (.start [cnotGate 1 2, cnotGate 2 1] (List.range 4)) =
        some ⟨⟨G, List.range 4, 1⟩, 2⟩ := by decide
    have hlast : LoopState.step ⟨⟨G, List.range 4, 1⟩, 2⟩ = some ⟨⟨G, List.range 4, 2⟩, 2⟩ := by
      decide
    have hnext : LoopState.step ⟨⟨G, List.range 4, 2⟩, 2⟩ = some ⟨⟨G, List.range 4, 0⟩, 1⟩ := by
      decide
    have hskip : LoopState.step ⟨⟨G, List.range 4, 0⟩, 1⟩ = some ⟨⟨G, List.range 4, 1⟩, 1⟩ := by
      decide
    have hkeep : LoopState.step ⟨⟨G, List.range 4, 1⟩, 1⟩ = some ⟨⟨G, List.range 4, 2⟩, 1⟩ := by
      decide
    exact .head hmerge (.head hlast (.head hnext (.head hskip (.single hkeep))))
  · rw [circuit_reversedPair, circuit_merged, List.map_singleton, List.singleton_inj, rename,
      reindex_mul] at h
    -- the second CNOT alone would have to be the permutation
    have hperm : ∀ x, flipWhen 1 (fun x ↦ x 2) x = x ∘ σ := by
      intro x
      have hx := congrArg (flipWhen 2 fun x ↦ x 1) (congrFun (reindex_injective h) x)
      simpa [flipWhen_flipWhen (t := 2) (p := fun x ↦ x 1)
        (fun y b ↦ Function.update_of_ne (by decide) b y)] using hx
    have h1 := congrFun (hperm fun i ↦ decide (i = 2)) 1
    have h2 := congrFun (hperm fun i ↦ decide (i = 2)) 2
    simp only [flipWhen, Function.comp_apply, Function.update_self,
      Function.update_of_ne (show (2 : ℕ) ≠ 1 by decide)] at h1 h2
    have hσ : σ 1 = σ 2 := by
      rw [of_decide_eq_true h1.symm, of_decide_eq_true h2.symm]
    exact absurd (σ.injective hσ) (by decide)

end ScaffCC.Optimize
