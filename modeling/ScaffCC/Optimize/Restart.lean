import Mathlib.Data.Set.Finite.List
import ScaffCC.Optimize.Optimal
import ScaffCC.Transition.HeadMove

/-!
# When `optimal` returns

After a move the scan starts again from `temp_begin` at the same position, with another gate there.
Nothing gets smaller at such a restart: the gates at the position and behind it are only permuted.
The restarts never end exactly when one of them brings back an order of the gates seen before.

What the gates then look like is known. A block of two or more CNOTs stands at the position. They
commute with each other, so each in turn gets to the front, and each has a reversed CNOT behind the
block that commutes with everything up to the block but not with all of the block. So each in turn
is moved towards its partner, as far as that other CNOT of the block, and is never next to it.

Such a block need not come back: the scan gives up after some gates that share an operand, and
whether it gets to the partner may depend on the order in which the block stands. If it does in
every order, the restarts have no end.

The other way not to return is the unsigned counter of the second loop of `canSwap`. -/

open StateTransition

namespace ScaffCC.Optimize

namespace OptState

variable {s t : OptState}

/-! ## Restarts and other steps -/

theorem restart_or_next (hlen : s.G.length < 2 ^ 32) (h : s.step = some t) :
    (∃ p, s.action? = some (.move p) ∧ t = { s with G := moveTo s.G s.gInd p }) ∨
      t.gInd = s.gInd + 1 := by
  obtain ⟨hlt, hmove | ⟨o, -, rfl⟩ | ⟨o, -, rfl⟩ | rfl⟩ := step_eq_some h
  · exact .inl hmove
  all_goals
    right
    rw [finish_gInd]
    exact Nat.mod_eq_of_lt (by change s.gInd + 1 < 2 ^ 32; omega)

theorem length_of_reaches (h : Reaches step s t) : t.G.length = s.G.length :=
  Reaches.invariant (P := fun u ↦ u.G.length = s.G.length) h rfl fun _ _ _ hu huv ↦
    (length_step huv).trans hu

theorem next_or_perm (hlen : s.G.length < 2 ^ 32) (h : Reaches step s t) :
    (s.gInd < s.G.length ∧ s.gInd < t.gInd) ∨
      (t.G.Perm s.G ∧ t.M = s.M ∧ t.gInd = s.gInd) := by
  refine Reaches.invariant (P := fun t ↦ (s.gInd < s.G.length ∧ s.gInd < t.gInd) ∨
    (t.G.Perm s.G ∧ t.M = s.M ∧ t.gInd = s.gInd)) h (.inr ⟨.refl _, rfl, rfl⟩) ?_
  intro u v hu ih huv
  have hulen := length_of_reaches hu
  have hult := (step_eq_some huv).1
  rcases restart_or_next (hulen ▸ hlen) huv with ⟨p, hp, rfl⟩ | hnext
  · rcases ih with ih | ⟨hperm, hM, hInd⟩
    · exact .inl ih
    · exact .inr ⟨(perm_moveTo (move_bounds hp).1 (move_bounds hp).2).trans hperm, hM, hInd⟩
  · rcases ih with ih | ⟨-, -, hInd⟩
    · exact .inl ⟨ih.1, by omega⟩
    · exact .inl ⟨by omega, by omega⟩

/-- The number of positions left. -/
def rank (s : OptState) : ℕ := s.G.length - s.gInd

theorem rank_le_of_reaches (hlen : s.G.length < 2 ^ 32) (h : Reaches step s t) :
    rank t ≤ rank s := by
  have hl := length_of_reaches h
  rw [rank, rank]
  rcases next_or_perm hlen h with hnext | ⟨-, -, hInd⟩ <;> omega

/-- Until it goes on to the next position, a run has finitely many states. -/
theorem finite_rank_eq (hlen : s.G.length < 2 ^ 32) :
    {t | Reaches step s t ∧ rank t = rank s}.Finite := by
  have hfin : {G | G ∈ s.G.permutations}.Finite := List.finite_toSet _
  refine (hfin.image fun G ↦ (⟨G, s.M, s.gInd⟩ : OptState)).subset ?_
  rintro t ⟨ht, hrank⟩
  have hl := length_of_reaches ht
  rw [rank, rank] at hrank
  rcases next_or_perm hlen ht with hnext | ⟨hperm, hM, hInd⟩
  · omega
  · refine ⟨t.G, List.mem_permutations.mpr hperm, ?_⟩
    rw [← hM, ← hInd]

/-- The machine stops unless a restart comes back to an order of the gates it has left. -/
theorem eval_dom_iff {a : OptState} (hlen : a.G.length < 2 ^ 32) :
    (eval step a).Dom ↔ ∀ s, Reaches step a s → ¬ Recurs step s :=
  eval_dom_iff_not_recurs rank
    (fun _ _ hs hst ↦ rank_le_of_reaches (length_of_reaches hs ▸ hlen)
      (Relation.ReflTransGen.single hst))
    fun _ hs ↦ finite_rank_eq (length_of_reaches hs ▸ hlen)

/-! ## The gates ahead -/

/-- Every slot from the counter on is erased or holds a well-formed gate. -/
def Ahead (b : ℕ) (s : OptState) : Prop := ∀ g ∈ s.G.drop s.gInd, g.Slot b

variable {b : ℕ}

theorem Ahead.slot_gateAt (h : s.Ahead b) {j : ℕ} (hle : s.gInd ≤ j) :
    (gateAt s.G j).Slot b := by
  rcases Nat.lt_or_ge j s.G.length with hlt | hge
  · refine h _ ?_
    rw [gateAt_eq hlt, List.mem_drop_iff_getElem]
    exact ⟨j - s.gInd, by omega, by congr 1; omega⟩
  · exact .inl (List.getD_eq_default _ _ hge)

theorem slot_exchanged {g : OpGate} (h : g.Slot b) (hty : g.gateTy = .CNOT) :
    g.exchanged.Slot b := by
  have hwf := h.wellFormed (by rw [hty]; decide)
  have hnodup := hwf.nodup
  have hrange := hwf.range
  rw [OpGate.operands, hty] at hnodup hrange
  refine .inr ⟨hwf.not_erased, ?_, ?_, fun hone ↦ ?_, hwf.control2⟩
  · rw [OpGate.operands, show g.exchanged.gateTy = .CNOT from hty]
    exact (List.Perm.swap _ _ _).nodup hnodup
  · rw [OpGate.operands, show g.exchanged.gateTy = .CNOT from hty]
    exact fun q hq ↦ hrange q ((List.Perm.swap _ _ _).mem_iff.mp hq)
  · rw [show g.exchanged.gateTy = .CNOT from hty] at hone
    exact absurd hone (by decide)

theorem drop_finish : s.finish.G.drop (s.gInd + 1) = s.G.drop (s.gInd + 1) := by
  rw [finish]
  simp only
  split_ifs
  · rw [List.drop_set_of_lt (Nat.lt_succ_self _)]
  · rfl

theorem headMove_moveTo {G : List OpGate} {i p : ℕ} (hip : i < p) (hp : p < G.length) :
    HeadMove (p - i) (G.drop i) ((moveTo G i p).drop i) := by
  obtain ⟨A, B, C, hG, hmove, hA, hB⟩ := exists_moveTo hip hp
  rw [hmove]
  conv_lhs => rw [hG]
  rw [← hA, List.drop_left, List.drop_left]
  exact ⟨_, B, C, hA.symm ▸ hB⟩

private theorem mem_drop_set {l : List OpGate} {i j : ℕ} {x g : OpGate}
    (h : g ∈ (l.set i x).drop j) : g ∈ l.drop j ∨ g = x := by
  rw [List.drop_set] at h
  split_ifs at h
  · exact .inl h
  · exact List.mem_or_eq_of_mem_set h

theorem ahead_step (hlen : s.G.length < 2 ^ 32) (hs : s.Ahead b) (h : s.step = some t) :
    t.Ahead b := by
  have hsucc : ∀ g ∈ s.G.drop (s.gInd + 1), g.Slot b := fun g hg ↦
    hs g (List.drop_subset_drop_left _ (Nat.le_succ _) hg)
  have hfinish : ∀ u : OptState, u.gInd = s.gInd → s.gInd < s.G.length →
      (∀ g ∈ u.G.drop (s.gInd + 1), g.Slot b) → u.finish.Ahead b := by
    intro u hu hlt hslot g hg
    rw [finish_gInd, Nat.mod_eq_of_lt (by omega), drop_finish, hu] at hg
    exact hslot g hg
  obtain ⟨hlt, ⟨p, hp, rfl⟩ | ⟨o, -, rfl⟩ | ⟨o, ho, rfl⟩ | rfl⟩ := step_eq_some h
  · have hmove := headMove_moveTo (move_bounds hp).1 (move_bounds hp).2
    exact fun g hg ↦ hs g (hmove.perm.mem_iff.mp hg)
  · refine hfinish _ rfl hlt fun g hg ↦ ?_
    rcases mem_drop_set hg with hg | rfl
    · rcases mem_drop_set hg with hg | rfl
      · exact hsucc g hg
      · exact .inl rfl
    · exact .inl rfl
  · refine hfinish _ rfl hlt fun g hg ↦ ?_
    obtain ⟨hob, hpair⟩ := action_eq_merge (action?_eq_some ho).2.2
    rw [swapPair, decide_eq_true_iff] at hpair
    rcases mem_drop_set hg with hg | rfl
    · rcases mem_drop_set hg with hg | rfl
      · exact hsucc g hg
      · exact .inl rfl
    · rw [gateAt_set_of_ne (by omega)]
      exact slot_exchanged (hs.slot_gateAt (Nat.le_add_right _ _)) hpair.1
  · exact hfinish s rfl hlt hsucc

theorem ahead_of_reaches (hlen : s.G.length < 2 ^ 32) (hs : s.Ahead b) (h : Reaches step s t) :
    t.Ahead b :=
  Reaches.invariant (P := fun u ↦ u.Ahead b) h hs fun _ _ hu ihu huv ↦
    ahead_step (length_of_reaches hu ▸ hlen) ihu huv

/-! ## States that come back -/

theorem rank_eq_of_recurs (hlen : s.G.length < 2 ^ 32) (h : Recurs step s)
    (ht : Reaches step s t) : rank t = rank s :=
  le_antisymm (rank_le_of_reaches hlen ht)
    (rank_le_of_reaches (length_of_reaches ht ▸ hlen) (h.reaches ht))

theorem move_of_recurs (hlen : s.G.length < 2 ^ 32) (h : Recurs step s) :
    ∃ p, s.action? = some (.move p) := by
  cases hst : s.step with
  | none => exact absurd hst h.not_halted
  | some t =>
    rcases restart_or_next hlen hst with ⟨p, hp, -⟩ | hnext
    · exact ⟨p, hp⟩
    · have hrank := rank_eq_of_recurs hlen h (Relation.ReflTransGen.single hst)
      have := length_step hst
      have := (step_eq_some hst).1
      rw [rank, rank] at hrank
      omega

/-- How far the CNOT at the counter is moved. -/
def moveLen (s : OptState) : ℕ :=
  match s.action? with
  | some (.move p) => p - s.gInd
  | _ => 0

theorem moveLen_eq {p : ℕ} (h : s.action? = some (.move p)) : s.moveLen = p - s.gInd := by
  rw [moveLen, h]

theorem headMove_of_recurs (hlen : s.G.length < 2 ^ 32) (h : Recurs step s)
    (hst : s.step = some t) :
    HeadMove s.moveLen (s.G.drop s.gInd) (t.G.drop t.gInd) := by
  obtain ⟨p, hp⟩ := move_of_recurs hlen h
  rw [moveLen_eq hp]
  rcases restart_or_next hlen hst with ⟨p', hp', rfl⟩ | hnext
  · rw [hp, Option.some.injEq, Action.move.injEq] at hp'
    rw [hp']
    rw [hp'] at hp
    exact headMove_moveTo (move_bounds hp).1 (move_bounds hp).2
  · have hrank := rank_eq_of_recurs hlen h (Relation.ReflTransGen.single hst)
    have := length_step hst
    have := (step_eq_some hst).1
    rw [rank, rank] at hrank
    omega

theorem exists_furthest (hlen : s.G.length < 2 ^ 32) (h : Recurs step s) :
    ∃ t, Reaches step s t ∧ ∀ u, Reaches step t u → u.moveLen ≤ t.moveLen := by
  have hfin : {t | Reaches step s t}.Finite :=
    (finite_rank_eq hlen).subset fun t ht ↦ ⟨ht, rank_eq_of_recurs hlen h ht⟩
  obtain ⟨t, ht, hmax⟩ := Set.exists_max_image _ moveLen hfin ⟨s, .refl⟩
  exact ⟨t, ht, fun u hu ↦ hmax u (ht.trans hu)⟩

end OptState

/-! ## Tangled blocks -/

/-- The gate at position `i` and the `n` gates after it. -/
def block (G : List OpGate) (i n : ℕ) : List OpGate := (G.drop i).take (n + 1)

/-- The gate at position `i` and the `n` gates after it are CNOTs that commute with each other, and
each has a reversed CNOT behind them that commutes with all gates before it as far as the block, and
not with all of the block. The scan moves the first behind the others. -/
structure Tangled (G : List OpGate) (i n : ℕ) : Prop where
  two : 1 ≤ n
  length : i + n < G.length
  moves : action G i = .move (i + n)
  isCNOT : ∀ x ∈ block G i n, x.gateTy = .CNOT
  commute : ∀ x ∈ block G i n, ∀ y ∈ block G i n, ifCommute x y
  partner : ∀ x ∈ block G i n, ∃ o, (n < o ∧ i + o < G.length) ∧
    swapPair x (gateAt G (i + o)) ∧
    (∀ j, n < j → j < o → ifCommute (gateAt G (i + o)) (gateAt G (i + j))) ∧
    ∃ y ∈ block G i n, ¬ ifCommute (gateAt G (i + o)) y

/-- In every order of the CNOTs at position `i` and the `n` positions after it, the scan moves the
first inside of them. -/
structure Knotted (G : List OpGate) (i n : ℕ) : Prop where
  length : i + n < G.length
  isCNOT : ∀ x ∈ block G i n, x.gateTy = .CNOT
  moves : ∀ B, B.Perm (block G i n) →
    ∃ p ≤ i + n, action (G.take i ++ (B ++ G.drop (i + n + 1))) i = .move p

/-- A tangled block stands at the counter, and the restarts bring it back to this order. -/
def OptState.Trapped (s : OptState) : Prop :=
  (∃ n, Tangled s.G s.gInd n) ∧ Recurs OptState.step s

theorem gateAt_drop (G : List OpGate) (i j : ℕ) : gateAt (G.drop i) j = gateAt G (i + j) := by
  rw [gateAt, gateAt, List.getD_eq_getElem?_getD, List.getElem?_drop, List.getD_eq_getElem?_getD]

theorem mem_block {G : List OpGate} {i j n : ℕ} (hj : j ≤ n) (h : i + j < G.length) :
    gateAt G (i + j) ∈ block G i n := by
  rw [gateAt_eq h, block, List.mem_take_iff_getElem]
  exact ⟨j, by rw [List.length_drop]; omega, by rw [List.getElem_drop]⟩

theorem not_ifCommute_of_swapPair {x f : OpGate} (hx : x.gateTy = .CNOT) (h : swapPair x f) :
    ¬ ifCommute x f := by
  rw [swapPair, decide_eq_true_iff] at h
  obtain ⟨hf, -, hc⟩ := h
  simp [ifCommute, hx, hf, hc, GateTy.oneQubit]

theorem ifCommute_self {b : ℕ} {x : OpGate} (hx : x.gateTy = .CNOT) (h : x.WellFormed b) :
    ifCommute x x := by
  have hrange := h.range x.target (by rw [OpGate.operands, hx]; simp)
  have hne := h.control1_ne_target hx
  have hc := h.control2 (by rw [hx]; decide)
  simp only [ifCommute, hx, GateTy.oneQubit]
  simp [hne.symm]
  omega

namespace OptState

variable {b : ℕ} {s t : OptState}

theorem move_spec {p : ℕ} (h : s.action? = some (.move p)) :
    (gateAt s.G s.gInd).gateTy = .CNOT ∧
      (∀ y ∈ (s.G.drop s.gInd).tail.take (p - s.gInd), ifCommute (gateAt s.G s.gInd) y) ∧
      ∃ o, (p < s.gInd + o ∧ s.gInd + o < s.G.length) ∧
        swapPair (gateAt s.G s.gInd) (gateAt s.G (s.gInd + o)) ∧
        (∀ j, p < j → j < s.gInd + o → ifCommute (gateAt s.G (s.gInd + o)) (gateAt s.G j)) ∧
        ¬ ifCommute (gateAt s.G (s.gInd + o)) (gateAt s.G p) := by
  obtain ⟨hlt, hty, ha⟩ := action?_eq_some h
  obtain ⟨hne, o, ho, hpair, hswap⟩ := action_eq_move ha
  obtain ⟨hp, hup, hdown, hheld⟩ := canSwap_eq_pos (by omega) hswap
  refine ⟨hty, fun y hy ↦ ?_, o, ⟨hp.2, ho.2⟩, hpair, hdown, hheld (by omega)⟩
  rw [List.tail_drop, List.mem_take_iff_getElem] at hy
  obtain ⟨k, hk, rfl⟩ := hy
  rw [List.length_drop] at hk
  rw [List.getElem_drop, ← gateAt_eq]
  exact hup _ (by omega) (by omega)

/-- The counter stays where it is, and so does all that a later step can see but the block. -/
theorem view_of_recurs (hlen : s.G.length < 2 ^ 32) (h : Recurs step s)
    (hmax : ∀ t, Reaches step s t → t.moveLen ≤ s.moveLen) (ht : Reaches step s t) :
    t.gInd = s.gInd ∧ (∀ x, x ∈ block t.G s.gInd s.moveLen ↔ x ∈ block s.G s.gInd s.moveLen) ∧
      ∀ j, s.moveLen < j → gateAt t.G (s.gInd + j) = gateAt s.G (s.gInd + j) := by
  have hInd : t.gInd = s.gInd := by
    have hrank := rank_eq_of_recurs hlen h ht
    rw [rank, rank] at hrank
    have := length_of_reaches ht
    rcases next_or_perm hlen ht with hnext | ⟨-, -, hInd⟩ <;> omega
  have hblock := block_of_reaches (v := fun u : OptState ↦ u.G.drop u.gInd) (l := moveLen)
    (fun u v hu huv ↦ headMove_of_recurs (length_of_reaches hu ▸ hlen) (h.of_reaches hu) huv)
    hmax ht
  simp only [hInd] at hblock
  refine ⟨hInd, fun x ↦ hblock.1.mem_iff, fun j hj ↦ ?_⟩
  obtain ⟨k, rfl⟩ := Nat.exists_eq_add_of_le (Nat.succ_le_of_lt hj)
  rw [← gateAt_drop, ← gateAt_drop, ← gateAt_drop, ← gateAt_drop, hblock.2]

/-- **A restart that comes back is a tangled block.** -/
theorem tangled_of_recurs (hlen : s.G.length < 2 ^ 32) (hs : s.Ahead b) (h : Recurs step s)
    (hmax : ∀ t, Reaches step s t → t.moveLen ≤ s.moveLen) :
    Tangled s.G s.gInd s.moveLen := by
  have hmove : ∀ t u, Reaches step s t → t.step = some u →
      HeadMove t.moveLen (t.G.drop t.gInd) (u.G.drop u.gInd) := fun t u ht htu ↦
    headMove_of_recurs (length_of_reaches ht ▸ hlen) (h.of_reaches ht) htu
  have hspec := fun t ht ↦ move_of_recurs (s := t)
    (length_of_reaches (s := s) ht ▸ hlen) (h.of_reaches ht)
  have hhead : ∀ t x, Reaches step s t → (t.G.drop t.gInd).head? = some x →
      x = gateAt t.G t.gInd := by
    intro t x ht hx
    obtain ⟨p, hp⟩ := hspec t ht
    rw [List.head?_drop, List.getElem?_eq_getElem (action?_eq_some hp).1, Option.some.injEq] at hx
    exact hx.symm.trans (gateAt_eq _).symm
  -- every CNOT of the block is at the front at some time
  have hfront : ∀ x ∈ block s.G s.gInd s.moveLen, ∃ t, Reaches step s t ∧
      gateAt t.G t.gInd = x := by
    intro x hx
    obtain ⟨t, ht, htx⟩ := exists_head_of_mem_block
      (v := fun u : OptState ↦ u.G.drop u.gInd) (l := moveLen) hmove h hx
    exact ⟨t, ht, (hhead t x ht htx).symm⟩
  -- and what is moved from the front is a CNOT
  have hCNOT : ∀ x ∈ block s.G s.gInd s.moveLen, x.gateTy = .CNOT := by
    intro x hx
    obtain ⟨t, ht, rfl⟩ := hfront x hx
    obtain ⟨p, hp⟩ := hspec t ht
    exact (move_spec hp).1
  -- two gates of the block pass each other, so they commute
  have hcomm : ∀ x ∈ block s.G s.gInd s.moveLen, ∀ y ∈ block s.G s.gInd s.moveLen,
      ifCommute x y := by
    intro x hx y hy
    by_cases hxy : x = y
    · subst hxy
      have hslot := hs x (List.mem_of_mem_take hx)
      have hne : x.gateTy ≠ .erased := by rw [hCNOT x hx]; decide
      exact ifCommute_self (hCNOT x hx) (hslot.wellFormed hne)
    · refine rel_of_mem_block (v := fun u : OptState ↦ u.G.drop u.gInd) (l := moveLen)
        (R := fun x y ↦ ifCommute x y = true) hmove h (fun t z ht hz w hw ↦ ?_) hxy hx hy
      obtain ⟨p, hp⟩ := hspec t ht
      rw [moveLen_eq hp] at hw
      rw [hhead t z ht hz]
      exact (move_spec hp).2.1 w hw
  obtain ⟨p, hp⟩ := hspec s .refl
  have hbounds := move_bounds hp
  have hn := moveLen_eq hp
  have haction : action s.G s.gInd = .move (s.gInd + s.moveLen) := by
    rw [(action?_eq_some hp).2.2, hn, Nat.add_sub_cancel' hbounds.1.le]
  refine ⟨by omega, by omega, haction, hCNOT, hcomm, fun x hx ↦ ?_⟩
  -- at the front, a CNOT is moved up to one of the block that holds its partner
  obtain ⟨t, ht, rfl⟩ := hfront x hx
  obtain ⟨q, hq⟩ := hspec t ht
  obtain ⟨hInd, hmem, hbehind⟩ := view_of_recurs hlen h hmax ht
  obtain ⟨-, -, o, ho, hpair, hfree, hheld⟩ := move_spec hq
  have hqn := moveLen_eq hq
  have hqmax := hmax t ht
  have hqb := move_bounds hq
  have htlen := length_of_reaches ht
  rw [hInd] at hpair hfree hheld hqn hqb ho
  -- a partner within the block would commute with it, by `hcomm`
  have hno : s.moveLen < o := by
    by_contra hle
    have hin := (hmem _).mp (mem_block (not_lt.mp hle) ho.2)
    exact not_ifCommute_of_swapPair (hCNOT _ hx) (hInd ▸ hpair) (hcomm _ hx _ hin)
  refine ⟨o, ⟨hno, by omega⟩, ?_, fun j hj hjo ↦ ?_, gateAt t.G q, ?_, ?_⟩
  · rw [hInd, ← hbehind o hno]
    exact hpair
  · rw [← hbehind o hno, ← hbehind j hj]
    exact hfree _ (by omega) (by omega)
  · obtain ⟨k, rfl⟩ := Nat.exists_eq_add_of_le hqb.1.le
    exact (hmem _).mp (mem_block (by omega) hqb.2)
  · rw [← hbehind o hno]
    exact hheld

theorem block_append_drop (G : List OpGate) (i n : ℕ) :
    G = G.take i ++ (block G i n ++ G.drop (i + n + 1)) := by
  rw [block, Nat.add_assoc, ← List.drop_drop, List.take_append_drop, List.take_append_drop]

theorem step_of_knotted {n : ℕ} {G B : List OpGate} {i : ℕ} (h : Knotted G i n)
    (hB : B.Perm (block G i n)) (M : List ℕ) :
    ∃ B' : List OpGate, B'.Perm (block G i n) ∧
      step ⟨G.take i ++ (B ++ G.drop (i + n + 1)), M, i⟩
        = some ⟨G.take i ++ (B' ++ G.drop (i + n + 1)), M, i⟩ := by
  have hlen := h.length
  have hA : (G.take i).length = i := List.length_take_of_le (by omega)
  have hBlen : B.length = n + 1 := by
    rw [hB.length_eq, block, List.length_take, List.length_drop]
    omega
  obtain ⟨p, hp, ha⟩ := h.moves B hB
  obtain ⟨x, B, rfl⟩ := List.exists_cons_of_length_eq_add_one hBlen
  have hx : gateAt (G.take i ++ (x :: B ++ G.drop (i + n + 1))) i = x := gateAt_append_cons hA
  have haction : (OptState.mk (G.take i ++ (x :: B ++ G.drop (i + n + 1))) M i).action?
      = some (.move p) := by
    rw [action?, if_pos, ha]
    refine ⟨by simp [hA], ?_⟩
    rw [hx]
    exact h.isCNOT x (hB.subset List.mem_cons_self)
  have hip : i < p := (move_bounds haction).1
  rw [List.length_cons] at hBlen
  refine ⟨B.take (p - i) ++ x :: B.drop (p - i), ?_, ?_⟩
  · refine List.perm_middle.trans ?_
    rw [List.take_append_drop]
    exact hB
  · have hmove := moveTo_append (C := B.drop (p - i) ++ G.drop (i + n + 1)) (x := x) hA
      (p := p) (B := B.take (p - i)) (by rw [List.length_take]; omega)
    rw [← List.append_assoc (B.take _), List.take_append_drop] at hmove
    rw [step, if_pos (action?_eq_some haction).1, haction]
    simp only [List.cons_append, hmove, List.append_assoc]

/-- **From a knotted block the restarts have no end.** -/
theorem not_dom_of_knotted {n : ℕ} (h : Knotted s.G s.gInd n) : ¬ (eval step s).Dom := by
  refine not_dom_of_closed (P := fun t ↦ ∃ B : List OpGate, B.Perm (block s.G s.gInd n) ∧
    t = ⟨s.G.take s.gInd ++ (B ++ s.G.drop (s.gInd + n + 1)), s.M, s.gInd⟩) ?_ ?_
  · exact ⟨_, .refl _, congrArg (OptState.mk · s.M s.gInd) (block_append_drop s.G s.gInd n)⟩
  · rintro t ⟨B, hB, rfl⟩
    obtain ⟨B', hB', hstep⟩ := step_of_knotted h hB s.M
    exact ⟨_, hstep, B', hB', rfl⟩

theorem exists_trapped (hlen : s.G.length < 2 ^ 32) (hs : s.Ahead b) (h : Recurs step s) :
    ∃ t, Reaches step s t ∧ t.Trapped := by
  obtain ⟨t, ht, hmax⟩ := exists_furthest hlen h
  have htlen : t.G.length < 2 ^ 32 := length_of_reaches ht ▸ hlen
  exact ⟨t, ht, ⟨t.moveLen, tangled_of_recurs htlen (ahead_of_reaches hlen hs ht)
    (h.of_reaches ht) hmax⟩, h.of_reaches ht⟩

end OptState

/-! ## Returning -/

theorem OptState.gInd_lt_of_reaches {s t : OptState} (hs : s.gInd < 2 ^ 32)
    (h : Reaches OptState.step s t) : t.gInd < 2 ^ 32 := by
  refine Reaches.invariant (P := fun u : OptState ↦ u.gInd < 2 ^ 32) h hs ?_
  intro u v _ hu huv
  obtain ⟨-, ⟨p, -, rfl⟩ | ⟨o, -, rfl⟩ | ⟨o, -, rfl⟩ | rfl⟩ := OptState.step_eq_some huv
  · exact hu
  all_goals exact Nat.mod_lt _ (by norm_num)

theorem OptState.exists_end {b : ℕ} {s : OptState} (hlen : s.G.length < 2 ^ 32) (hs : s.Ahead b)
    (hsafe : ∀ t, Reaches OptState.step s t → ¬ t.OffFront ∧ ¬ t.Trapped) :
    ∃ e ∈ eval OptState.step s, e.G.length ≤ e.gInd := by
  have hdom : (eval OptState.step s).Dom := by
    refine (eval_dom_iff hlen).mpr fun t ht hrec ↦ ?_
    obtain ⟨u, hu, htrap⟩ := exists_trapped (length_of_reaches ht ▸ hlen)
      (ahead_of_reaches hlen hs ht) hrec
    exact (hsafe u (ht.trans hu)).2 htrap
  obtain ⟨e, he⟩ := Part.dom_iff_mem.mp hdom
  obtain ⟨hreach, hstop⟩ := mem_eval.mp he
  exact ⟨e, he, (step_eq_none.mp hstop).resolve_right (hsafe e hreach).1⟩

/-- **When `optimal` returns.** It returns if the list is shorter than `2 ^ 32` and the run comes to
no tangled block and no scan that reads before the front. If it returns, the list is shorter, and
the run came to no knotted block and no such scan. -/
theorem returns_of_not_tangled {b : ℕ} {G : List OpGate} {M : List ℕ}
    (hG : ∀ g ∈ G, g.WellFormed b) :
    (G.length < 2 ^ 32 → (∀ s, Reaches OptState.step ⟨G, M, 0⟩ s →
        ¬ s.OffFront ∧ ∀ n, ¬ Tangled s.G s.gInd n) → Returns G M) ∧
      (Returns G M → G.length < 2 ^ 32 ∧ ∀ s, Reaches OptState.step ⟨G, M, 0⟩ s →
        ¬ s.OffFront ∧ ∀ n, ¬ Knotted s.G s.gInd n) := by
  constructor
  · intro hlen hsafe
    exact OptState.exists_end hlen (fun g hg ↦ .inr (hG g (List.mem_of_mem_drop hg)))
      fun s hs ↦ ⟨(hsafe s hs).1, fun ⟨⟨n, hn⟩, _⟩ ↦ (hsafe s hs).2 n hn⟩
  · rintro ⟨e, he, hle⟩
    have hreach := (mem_eval.mp he).1
    refine ⟨?_, fun s hs ↦ ⟨fun hoff ↦ ?_, fun n hknot ↦ ?_⟩⟩
    · have hlt : e.gInd < 2 ^ 32 := OptState.gInd_lt_of_reaches (by norm_num) hreach
      have hlen : e.G.length = G.length := OptState.length_of_reaches hreach
      omega
    · have hend : s ∈ eval OptState.step ⟨G, M, 0⟩ :=
        mem_eval.mpr ⟨hs, OptState.step_eq_none.mpr (.inr hoff)⟩
      rw [Part.mem_unique he hend] at hle
      exact absurd (OptState.action?_eq_some hoff).1 (not_lt.mpr hle)
    · exact OptState.not_dom_of_knotted hknot (reaches_eval hs ▸ Part.dom_iff_mem.mpr ⟨e, he⟩)

theorem returns_of_not_tangled_cancel : Returns [cnotGate 1 2, cnotGate 2 1] (List.range 4) := by
  refine (returns_of_not_tangled (b := 3) (by decide)).1 (by decide) fun s hs ↦ ?_
  -- the first CNOT is merged into the second, which finds none behind it
  let run : List OptState := [⟨[cnotGate 1 2, cnotGate 2 1], List.range 4, 0⟩,
    ⟨[erased, cnotGate 1 2], List.range 4, 1⟩, ⟨[erased, cnotGate 1 2], List.range 4, 2⟩]
  have hclosed : ∀ t ∈ run, ∀ u ∈ t.step, u ∈ run := by decide
  have hrun : s ∈ run := Reaches.invariant (P := (· ∈ run)) hs List.mem_cons_self
    fun t u _ ht htu ↦ hclosed t ht u htu
  have hfree : ∀ t ∈ run, t.action? ≠ some .offFront ∧ t.G.length = 2 ∧
      action t.G 0 ≠ .move 1 := by decide
  obtain ⟨hfront, hlen, haction⟩ := hfree s hrun
  refine ⟨hfront, fun n hn ↦ ?_⟩
  have htwo := hn.two
  have hlength := hn.length
  have hmoves := hn.moves
  obtain ⟨hn1, hInd⟩ : n = 1 ∧ s.gInd = 0 := by omega
  rw [hn1, hInd] at hmoves
  exact haction hmoves

/-- Two CNOTs with a common control, then the two reversed ones: each is moved before the other. -/
theorem not_returns_tangled :
    ¬ Returns [cnotGate 1 2, cnotGate 1 3, cnotGate 2 1, cnotGate 3 1] (List.range 5) := by
  rintro ⟨e, he, -⟩
  refine not_recurs_of_mem_eval he (Relation.TransGen.head (b :=
    ⟨[cnotGate 1 3, cnotGate 1 2, cnotGate 2 1, cnotGate 3 1], List.range 5, 0⟩) ?_
    (Relation.TransGen.single ?_))
  · rw [Option.mem_def]
    decide
  · rw [Option.mem_def]
    decide

end ScaffCC.Optimize
