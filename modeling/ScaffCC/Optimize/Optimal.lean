import Mathlib.Data.List.GetD
import ScaffCC.Optimize.OpGate
import ScaffCC.Transition.Recurrence

/-!
# The function `optimal` and the loop around it

`optimal` goes once through the gate list `G`. At a CNOT it scans the following gates for one on the
same operands, which cancels it, or on the same operands the other way round. In the second case the
CNOT is first moved towards its partner, after which the position is looked at again from the label
`temp_begin`; only when the CNOT need not move are the two replaced by one. Every other gate, and a
CNOT for which nothing was found, has its operands renamed along the vector `M`.

`runOnModule` repeats `optimal` until the number of gates no longer changes.

Both are machines here, with one state for each time control is at `temp_begin`. Sums of positions
are natural numbers; only the counter of the outer loop wraps, as `unsigned` does, since that is
where a list of `2 ^ 32` gates and more makes a difference.
-/

open StateTransition

namespace ScaffCC.Optimize

/-- The slot at a position. -/
def gateAt (G : List OpGate) (i : ℕ) : OpGate := G.getD i erased

/-! ## canSwap -/

/-- The value of `iPos` after `n` more rounds of the first loop of `canSwap`. -/
def swapUp (G : List OpGate) (iInd : ℕ) : ℕ → ℕ → ℕ
  | 0, iPos => iPos
  | n + 1, iPos =>
    if ifCommute (gateAt G iInd) (gateAt G (iPos + 1)) then swapUp G iInd n (iPos + 1) else iPos

/-- The value of `fPos` after `n` more rounds of the second loop of `canSwap`. -/
def swapDown (G : List OpGate) (fInd : ℕ) : ℕ → ℕ → ℕ
  | 0, fPos => fPos
  | n + 1, fPos =>
    if ifCommute (gateAt G fInd) (gateAt G (fPos - 1)) then swapDown G fInd n (fPos - 1) else fPos

/-- What `canSwap` does: it returns a position, it returns `UINT_MAX`, or it reads before the front
of the list. -/
inductive Swap
  | pos (n : ℕ)
  | uintMax
  | offFront
  deriving DecidableEq, Repr

/-- The position where the gate at `iInd` meets the one at `fInd`, if the gates between let it.

The second loop runs while `i >= iInd` for an unsigned `i`, so with `iInd = 0` nothing but a gate
that does not commute stops it: when all do, the next one it reads is before the front. -/
def canSwap (G : List OpGate) (iInd fInd : ℕ) : Swap :=
  if iInd > fInd then .pos (2 ^ 32 - 2)
  else
    let iPos := swapUp G iInd (fInd - iInd) iInd
    let fPos := swapDown G fInd (fInd - iInd) fInd
    if fPos = 0 then .offFront
    else if iPos ≥ fPos - 1 then .pos (max (fPos - 1) iInd)
    else .uintMax

/-! ## The scan -/

/-- Two CNOTs on the same operands. -/
def samePair (g f : OpGate) : Bool :=
  f.gateTy = .CNOT ∧ f.target = g.target ∧ f.control1 = g.control1

/-- Two CNOTs on the same operands, control and target exchanged. -/
def swapPair (g f : OpGate) : Bool :=
  f.gateTy = .CNOT ∧ f.target = g.control1 ∧ f.control1 = g.target

/-- How the scan from a CNOT ends: nothing to do, an equal CNOT at the offset to cancel it with, a
position to move it to, a reversed CNOT at the offset to merge it with, or a read before the front
of the list. -/
inductive Action
  | keep
  | cancel (gOff : ℕ)
  | move (newPos : ℕ)
  | merge (gOff : ℕ)
  | offFront
  deriving DecidableEq, Repr

/-- The first `if` of the scan. -/
def tryCancel (G : List OpGate) (gInd gOff : ℕ) : Option Action :=
  if samePair (gateAt G gInd) (gateAt G (gInd + gOff)) then
    match canSwap G gInd (gInd + gOff) with
    | .pos _ => some (.cancel gOff)
    | .uintMax => none
    | .offFront => some .offFront
  else none

/-- The second `if` of the scan. -/
def tryMerge (G : List OpGate) (gInd gOff : ℕ) : Option Action :=
  if swapPair (gateAt G gInd) (gateAt G (gInd + gOff)) then
    match canSwap G gInd (gInd + gOff) with
    | .pos newPos => if newPos = gInd then some (.merge gOff) else some (.move newPos)
    | .uintMax => some .keep
    | .offFront => some .offFront
  else none

/-- What one round of the scan finds. -/
def look (G : List OpGate) (gInd gOff : ℕ) : Option Action :=
  (tryCancel G gInd gOff).or (tryMerge G gInd gOff)

/-- The number of gates sharing an operand after which the scan gives up. -/
def OPT_THRESHOLD : ℕ := 10

/-- The scan from offset `gOff` on, with `n` more gates in the list. The gate counted in a round is
the one of the next offset; past the end it is read but no longer used. -/
def scan (G : List OpGate) (gInd : ℕ) : ℕ → ℕ → ℕ → Action
  | 0, _, _ => .keep
  | n + 1, gOff, gCount =>
    if gCount < OPT_THRESHOLD then
      match look G gInd gOff with
      | some a => a
      | none =>
        scan G gInd n (gOff + 1)
          (if shareBit (gateAt G gInd) (gateAt G (gInd + (gOff + 1))) then gCount + 1 else gCount)
    else .keep

/-- What the scan from the CNOT at `gInd` finds. -/
def action (G : List OpGate) (gInd : ℕ) : Action := scan G gInd (G.length - gInd - 1) 1 0

/-! ## The machine -/

/-- The list `G`, the vector `M` and the counter `gInd` when control is at `temp_begin`. -/
structure OptState where
  G : List OpGate
  M : List ℕ
  gInd : ℕ
  deriving DecidableEq, Repr

/-- The gate at `i` put in position `newPos`, those between one place ahead. -/
def moveTo (G : List OpGate) (i newPos : ℕ) : List OpGate :=
  (G.eraseIdx i).insertIdx newPos (gateAt G i)

def OpGate.exchanged (g : OpGate) : OpGate := { g with target := g.control1, control1 := g.target }

/-- `M` with the entries for the target and the control of `g` exchanged. -/
def swapMap (M : List ℕ) (g : OpGate) : List ℕ :=
  (M.set g.target (M.getD g.control1 0)).set g.control1 (M.getD g.target 0)

/-- A gate with its control and target renamed along `M`. -/
def OpGate.remap (M : List ℕ) (g : OpGate) : OpGate :=
  { g with control1 := M.getD g.control1 0, target := M.getD g.target 0 }

namespace OptState

/-- The end of the loop body: a gate that is not erased is renamed, and the counter goes up. -/
def finish (s : OptState) : OptState :=
  { s with
    G := if (gateAt s.G s.gInd).gateTy ≠ .erased then
        s.G.set s.gInd ((gateAt s.G s.gInd).remap s.M) else s.G
    gInd := (s.gInd + 1) % 2 ^ 32 }

/-- The two CNOTs of a cancellation erased. -/
def cancel (s : OptState) (gOff : ℕ) : OptState :=
  { s with G := (s.G.set s.gInd erased).set (s.gInd + gOff) erased }

/-- The CNOT at the counter erased, the one at the offset reversed, and the entries of `M` for the
operands of the slot at the counter exchanged. The slot is read after it was erased. -/
def merge (s : OptState) (gOff : ℕ) : OptState :=
  let G := s.G.set s.gInd erased
  { s with
    G := G.set (s.gInd + gOff) (gateAt G (s.gInd + gOff)).exchanged
    M := swapMap s.M (gateAt G s.gInd) }

/-- What the scan from the counter finds, when a CNOT stands there. -/
def action? (s : OptState) : Option Action :=
  if s.gInd < s.G.length ∧ (gateAt s.G s.gInd).gateTy = .CNOT then some (action s.G s.gInd)
  else none

/-- From `temp_begin` to the next time control is there. -/
def step (s : OptState) : Option OptState :=
  if s.gInd < s.G.length then
    match s.action? with
    | some .offFront => none
    | some (.move newPos) => some { s with G := moveTo s.G s.gInd newPos }
    | some (.cancel gOff) => some (s.cancel gOff).finish
    | some (.merge gOff) => some (s.merge gOff).finish
    | some .keep | none => some s.finish
  else none

end OptState

/-- The call `optimal(G, M)` returns. -/
def Returns (G : List OpGate) (M : List ℕ) : Prop :=
  ∃ s ∈ eval OptState.step ⟨G, M, 0⟩, s.G.length ≤ s.gInd

/-- The number of gates that are not erased. -/
def countGate (G : List OpGate) : ℕ := G.countP (·.gateTy ≠ .erased)

/-- The loop of `runOnModule`: a call of `optimal` and the number of gates before it. -/
structure LoopState where
  opt : OptState
  gNumBefore : ℕ
  deriving DecidableEq, Repr

namespace LoopState

/-- A step of the call, or the next call when it has returned and the number of gates has
changed. -/
def step (s : LoopState) : Option LoopState :=
  match s.opt.step with
  | some opt => some { s with opt }
  | none =>
    if s.opt.gInd < s.opt.G.length then none
    else if s.gNumBefore = countGate s.opt.G then none
    else some ⟨{ s.opt with gInd := 0 }, countGate s.opt.G⟩

/-- The first call. Before it `gNumAfter` is the length of the list. -/
def start (G : List OpGate) (M : List ℕ) : LoopState := ⟨⟨G, M, 0⟩, G.length⟩

end LoopState

/-! ## What canSwap returns -/

theorem swapUp_le (G : List OpGate) (iInd n iPos : ℕ) :
    iPos ≤ swapUp G iInd n iPos ∧ swapUp G iInd n iPos ≤ iPos + n := by
  induction n generalizing iPos with
  | zero => simp [swapUp]
  | succ n ih =>
    rw [swapUp]
    have := ih (iPos + 1)
    split <;> omega

theorem ifCommute_of_le_swapUp {G : List OpGate} {iInd n iPos j : ℕ} (hj : iPos < j)
    (hle : j ≤ swapUp G iInd n iPos) : ifCommute (gateAt G iInd) (gateAt G j) := by
  induction n generalizing iPos with
  | zero =>
    rw [swapUp] at hle
    omega
  | succ n ih =>
    rw [swapUp] at hle
    split at hle
    next hc =>
      rcases Nat.lt_or_eq_of_le (Nat.succ_le_of_lt hj) with hlt | rfl
      · exact ih hlt hle
      · exact hc
    next => omega

theorem swapDown_le (G : List OpGate) (fInd n fPos : ℕ) :
    fPos - n ≤ swapDown G fInd n fPos ∧ swapDown G fInd n fPos ≤ fPos := by
  induction n generalizing fPos with
  | zero => simp [swapDown]
  | succ n ih =>
    rw [swapDown]
    have := ih (fPos - 1)
    split <;> omega

theorem ifCommute_of_swapDown_le {G : List OpGate} {fInd n fPos j : ℕ} (hj : j < fPos)
    (hle : swapDown G fInd n fPos ≤ j) : ifCommute (gateAt G fInd) (gateAt G j) := by
  induction n generalizing fPos with
  | zero =>
    rw [swapDown] at hle
    omega
  | succ n ih =>
    rw [swapDown] at hle
    split at hle
    next hc =>
      rcases Nat.lt_or_eq_of_le (Nat.le_sub_one_of_lt hj) with hlt | rfl
      · exact ih hlt hle
      · exact hc
    next => omega

/-- Where the second loop stops early, the gate before does not commute. -/
theorem not_ifCommute_swapDown {G : List OpGate} {fInd n fPos : ℕ}
    (h : fPos - n < swapDown G fInd n fPos) :
    ¬ ifCommute (gateAt G fInd) (gateAt G (swapDown G fInd n fPos - 1)) := by
  induction n generalizing fPos with
  | zero =>
    rw [swapDown] at h
    omega
  | succ n ih =>
    rw [swapDown] at h ⊢
    split at h
    next hc =>
      rw [if_pos hc]
      exact ih (by omega)
    next hc =>
      rw [if_neg hc]
      exact hc

/-- **What a position of canSwap says.** The first gate commutes with all up to the position, the
second with all after it, and the position is the first gate's own or the second is held there. -/
theorem canSwap_eq_pos {G : List OpGate} {iInd fInd p : ℕ} (hlt : iInd < fInd)
    (h : canSwap G iInd fInd = .pos p) :
    (iInd ≤ p ∧ p < fInd) ∧
      (∀ j, iInd < j → j ≤ p → ifCommute (gateAt G iInd) (gateAt G j)) ∧
      (∀ j, p < j → j < fInd → ifCommute (gateAt G fInd) (gateAt G j)) ∧
      (iInd < p → ¬ ifCommute (gateAt G fInd) (gateAt G p)) := by
  have hdown := swapDown_le G fInd (fInd - iInd) fInd
  have hheld := @not_ifCommute_swapDown G fInd (fInd - iInd) fInd
  have hback := fun j ↦ @ifCommute_of_swapDown_le G fInd (fInd - iInd) fInd j
  rw [canSwap, if_neg (by omega)] at h
  simp only at h
  split at h
  next => exact absurd h nofun
  next hfront =>
    split at h
    next hmeet =>
      rw [Swap.pos.injEq] at h
      have hup := swapUp_le G iInd (fInd - iInd) iInd
      have hahead := fun j ↦ @ifCommute_of_le_swapUp G iInd (fInd - iInd) iInd j
      refine ⟨by omega, fun j hj hjp ↦ hahead j hj (by omega),
        fun j hj hjf ↦ hback j hjf (by omega), fun hp ↦ ?_⟩
      rw [show p = swapDown G fInd (fInd - iInd) fInd - 1 by omega]
      exact hheld (by omega)
    next => exact absurd h nofun

/-! ## What the scan finds -/

theorem tryCancel_eq_some {G : List OpGate} {gInd gOff : ℕ} {a : Action}
    (h : tryCancel G gInd gOff = some a) :
    samePair (gateAt G gInd) (gateAt G (gInd + gOff)) ∧
      ((∃ p, canSwap G gInd (gInd + gOff) = .pos p ∧ a = .cancel gOff) ∨
        (canSwap G gInd (gInd + gOff) = .offFront ∧ a = .offFront)) := by
  rw [tryCancel] at h
  split at h
  next hpair =>
    refine ⟨hpair, ?_⟩
    cases hs : canSwap G gInd (gInd + gOff) with
    | pos p => exact .inl ⟨p, rfl, by simpa [hs] using h.symm⟩
    | uintMax => simp [hs] at h
    | offFront => exact .inr ⟨rfl, by simpa [hs] using h.symm⟩
  next => exact absurd h nofun

theorem tryMerge_eq_some {G : List OpGate} {gInd gOff : ℕ} {a : Action}
    (h : tryMerge G gInd gOff = some a) :
    swapPair (gateAt G gInd) (gateAt G (gInd + gOff)) ∧
      ((∃ p, canSwap G gInd (gInd + gOff) = .pos p ∧
          a = if p = gInd then .merge gOff else .move p) ∨
        (canSwap G gInd (gInd + gOff) = .uintMax ∧ a = .keep) ∨
        (canSwap G gInd (gInd + gOff) = .offFront ∧ a = .offFront)) := by
  rw [tryMerge] at h
  split at h
  next hpair =>
    refine ⟨hpair, ?_⟩
    cases hs : canSwap G gInd (gInd + gOff) with
    | pos p =>
      refine .inl ⟨p, rfl, ?_⟩
      simp only [hs] at h
      split_ifs at h ⊢ <;> exact (Option.some.inj h).symm
    | uintMax => exact .inr (.inl ⟨rfl, by simpa [hs] using h.symm⟩)
    | offFront => exact .inr (.inr ⟨rfl, by simpa [hs] using h.symm⟩)
  next => exact absurd h nofun

theorem look_eq_cancel {G : List OpGate} {gInd gOff o : ℕ}
    (h : look G gInd gOff = some (.cancel o)) :
    o = gOff ∧ samePair (gateAt G gInd) (gateAt G (gInd + gOff)) ∧
      ∃ p, canSwap G gInd (gInd + gOff) = .pos p := by
  rcases Option.or_eq_some_iff.mp h with h | ⟨-, h⟩
  · obtain ⟨hpair, ⟨p, hp, ha⟩ | ⟨-, ha⟩⟩ := tryCancel_eq_some h
    · exact ⟨Action.cancel.inj ha, hpair, p, hp⟩
    · exact absurd ha nofun
  · obtain ⟨-, ⟨p, -, ha⟩ | ⟨-, ha⟩ | ⟨-, ha⟩⟩ := tryMerge_eq_some h
    · split_ifs at ha
    · exact absurd ha nofun
    · exact absurd ha nofun

theorem look_eq_move {G : List OpGate} {gInd gOff p : ℕ} (h : look G gInd gOff = some (.move p)) :
    p ≠ gInd ∧ swapPair (gateAt G gInd) (gateAt G (gInd + gOff)) ∧
      canSwap G gInd (gInd + gOff) = .pos p := by
  rcases Option.or_eq_some_iff.mp h with h | ⟨-, h⟩
  · obtain ⟨-, ⟨p, -, ha⟩ | ⟨-, ha⟩⟩ := tryCancel_eq_some h <;> exact absurd ha nofun
  · obtain ⟨hpair, ⟨q, hq, ha⟩ | ⟨-, ha⟩ | ⟨-, ha⟩⟩ := tryMerge_eq_some h
    · split_ifs at ha with hne
      rw [Action.move.injEq] at ha
      subst ha
      exact ⟨hne, hpair, hq⟩
    · exact absurd ha nofun
    · exact absurd ha nofun

theorem look_eq_merge {G : List OpGate} {gInd gOff o : ℕ}
    (h : look G gInd gOff = some (.merge o)) :
    o = gOff ∧ swapPair (gateAt G gInd) (gateAt G (gInd + gOff)) := by
  rcases Option.or_eq_some_iff.mp h with h | ⟨-, h⟩
  · obtain ⟨-, ⟨p, -, ha⟩ | ⟨-, ha⟩⟩ := tryCancel_eq_some h <;> exact absurd ha nofun
  · obtain ⟨hpair, ⟨q, -, ha⟩ | ⟨-, ha⟩ | ⟨-, ha⟩⟩ := tryMerge_eq_some h
    · split_ifs at ha
      exact ⟨Action.merge.inj ha, hpair⟩
    · exact absurd ha nofun
    · exact absurd ha nofun

theorem scan_spec (G : List OpGate) (gInd n gOff gCount : ℕ) :
    scan G gInd n gOff gCount = .keep ∨
      ∃ o, (gOff ≤ o ∧ o < gOff + n) ∧ look G gInd o = some (scan G gInd n gOff gCount) := by
  induction n generalizing gOff gCount with
  | zero => exact .inl rfl
  | succ n ih =>
    rw [scan]
    split
    next =>
      cases hlook : look G gInd gOff with
      | some a => exact .inr ⟨gOff, by omega, hlook⟩
      | none =>
        exact (ih (gOff + 1) _).imp id fun ⟨o, ho, hfound⟩ ↦ ⟨o, by omega, hfound⟩
    next => exact .inl rfl

/-- What the scan finds it finds at some offset inside the list. -/
theorem exists_look_of_action {G : List OpGate} {gInd : ℕ} (h : action G gInd ≠ .keep) :
    ∃ o, (1 ≤ o ∧ gInd + o < G.length) ∧ look G gInd o = some (action G gInd) := by
  rcases scan_spec G gInd (G.length - gInd - 1) 1 0 with hkeep | ⟨o, ho, hfound⟩
  · exact absurd hkeep h
  · exact ⟨o, by omega, hfound⟩

/-- An equal CNOT found by the scan meets the one at `gInd`. -/
theorem action_eq_cancel {G : List OpGate} {gInd o : ℕ} (h : action G gInd = .cancel o) :
    (1 ≤ o ∧ gInd + o < G.length) ∧ samePair (gateAt G gInd) (gateAt G (gInd + o)) ∧
      ∃ p, canSwap G gInd (gInd + o) = .pos p := by
  obtain ⟨o', ho, hlook⟩ := exists_look_of_action (h.trans_ne nofun)
  rw [h] at hlook
  obtain ⟨rfl, hpair, hswap⟩ := look_eq_cancel hlook
  exact ⟨ho, hpair, hswap⟩

theorem action_eq_move {G : List OpGate} {gInd p : ℕ} (h : action G gInd = .move p) :
    p ≠ gInd ∧ ∃ o, (1 ≤ o ∧ gInd + o < G.length) ∧
      swapPair (gateAt G gInd) (gateAt G (gInd + o)) ∧ canSwap G gInd (gInd + o) = .pos p := by
  obtain ⟨o, ho, hlook⟩ := exists_look_of_action (h.trans_ne nofun)
  rw [h] at hlook
  obtain ⟨hne, hpair, hswap⟩ := look_eq_move hlook
  exact ⟨hne, o, ho, hpair, hswap⟩

theorem action_eq_merge {G : List OpGate} {gInd o : ℕ} (h : action G gInd = .merge o) :
    (1 ≤ o ∧ gInd + o < G.length) ∧ swapPair (gateAt G gInd) (gateAt G (gInd + o)) := by
  obtain ⟨o', ho, hlook⟩ := exists_look_of_action (h.trans_ne nofun)
  rw [h] at hlook
  obtain ⟨rfl, hpair⟩ := look_eq_merge hlook
  exact ⟨ho, hpair⟩

/-! ## Positions and splits -/

@[simp] theorem gateAt_append_cons {A R : List OpGate} {x : OpGate} {i : ℕ} (h : A.length = i) :
    gateAt (A ++ x :: R) i = x := by
  rw [gateAt, List.getD_append_right _ _ _ _ h.le, h, Nat.sub_self, List.getD_cons_zero]

theorem gateAt_eq {G : List OpGate} {i : ℕ} (h : i < G.length) : gateAt G i = G[i] :=
  List.getD_eq_getElem _ _ h

theorem gateAt_set_of_ne {G : List OpGate} {i j : ℕ} {x : OpGate} (h : i ≠ j) :
    gateAt (G.set i x) j = gateAt G j := by
  rw [gateAt, gateAt, List.getD_eq_getElem?_getD, List.getElem?_set_ne h,
    List.getD_eq_getElem?_getD]

theorem gateAt_mem {G : List OpGate} {i : ℕ} (h : i < G.length) : gateAt G i ∈ G :=
  gateAt_eq h ▸ List.getElem_mem h

theorem exists_gateAt {A B R : List OpGate} {y : OpGate} (h : y ∈ B) :
    ∃ j, (A.length ≤ j ∧ j < A.length + B.length) ∧ gateAt (A ++ B ++ R) j = y := by
  obtain ⟨j, hj, rfl⟩ := List.getElem_of_mem h
  refine ⟨A.length + j, by omega, ?_⟩
  rw [gateAt, List.append_assoc, List.getD_append_right _ _ _ _ (by omega),
    Nat.add_sub_cancel_left, List.getD_append _ _ _ _ hj, List.getD_eq_getElem _ _ hj]

theorem exists_split {G : List OpGate} {i j : ℕ} (hij : i < j) (hj : j < G.length) :
    ∃ A B C, G = A ++ gateAt G i :: (B ++ gateAt G j :: C) ∧ A.length = i ∧
      B.length = j - i - 1 := by
  refine ⟨G.take i, (G.drop (i + 1)).take (j - i - 1), G.drop (j + 1), ?_, ?_, ?_⟩
  · rw [gateAt_eq (hij.trans hj), gateAt_eq hj, ← List.drop_eq_getElem_cons hj,
      show G.drop j = (G.drop (i + 1)).drop (j - i - 1) by rw [List.drop_drop]; congr 1; omega,
      List.take_append_drop, ← List.drop_eq_getElem_cons (hij.trans hj), List.take_append_drop]
  · rw [List.length_take]
    omega
  · rw [List.length_take, List.length_drop]
    omega

theorem insertIdx_length_append {α : Type*} (A R : List α) (x : α) :
    (A ++ R).insertIdx A.length x = A ++ x :: R := by
  induction A with
  | nil => rfl
  | cons a A ih => rw [List.cons_append, List.length_cons, List.insertIdx_succ_cons, ih]; rfl

theorem moveTo_append {A B C : List OpGate} {x : OpGate} {i p : ℕ} (hi : A.length = i)
    (hp : i + B.length = p) : moveTo (A ++ x :: (B ++ C)) i p = A ++ (B ++ x :: C) := by
  subst hi hp
  rw [moveTo, gateAt_append_cons rfl, List.eraseIdx_append_of_length_le le_rfl, Nat.sub_self,
    List.eraseIdx_cons_zero, ← List.append_assoc, ← List.length_append, insertIdx_length_append,
    List.append_assoc]

/-- A move takes the gate behind those up to the position. -/
theorem exists_moveTo {G : List OpGate} {i p : ℕ} (hip : i < p) (hp : p < G.length) :
    ∃ A B C, G = A ++ gateAt G i :: (B ++ C) ∧ moveTo G i p = A ++ (B ++ gateAt G i :: C) ∧
      A.length = i ∧ B.length = p - i := by
  obtain ⟨A, B, C, hG, hA, hB⟩ := exists_split hip hp
  refine ⟨A, B ++ [gateAt G p], C, by simpa using hG, ?_, hA, ?_⟩
  · have hmove := @moveTo_append A (B ++ [gateAt G p]) C (gateAt G i) i p hA
      (by rw [List.length_append, List.length_singleton]; omega)
    rwa [List.append_assoc, List.singleton_append, ← hG] at hmove
  · rw [List.length_append, List.length_singleton]
    omega

/-! ## What a step does -/

namespace OptState

variable {s t : OptState}

/-- The scan at the counter ends with a merge. -/
def Merges (s : OptState) : Prop := ∃ gOff, s.action? = some (.merge gOff)

/-- The scan at the counter reads before the front of the list. -/
def OffFront (s : OptState) : Prop := s.action? = some .offFront

theorem action?_eq_some {a : Action} (h : s.action? = some a) :
    s.gInd < s.G.length ∧ (gateAt s.G s.gInd).gateTy = .CNOT ∧ action s.G s.gInd = a := by
  rw [action?] at h
  split_ifs at h with hcond
  exact ⟨hcond.1, hcond.2, Option.some.inj h⟩

/-- **The steps.** A move, a cancellation, a merge, or on to the next gate. -/
theorem step_eq_some (h : s.step = some t) : s.gInd < s.G.length ∧
    ((∃ p, s.action? = some (.move p) ∧ t = { s with G := moveTo s.G s.gInd p }) ∨
      (∃ o, s.action? = some (.cancel o) ∧ t = (s.cancel o).finish) ∨
      (∃ o, s.action? = some (.merge o) ∧ t = (s.merge o).finish) ∨
      t = s.finish) := by
  rw [step] at h
  split_ifs at h with hlt
  refine ⟨hlt, ?_⟩
  cases ha : s.action? with
  | none => exact .inr (.inr (.inr (by simpa [ha] using h.symm)))
  | some a =>
    cases a with
    | keep => exact .inr (.inr (.inr (by simpa [ha] using h.symm)))
    | cancel o => exact .inr (.inl ⟨o, rfl, by simpa [ha] using h.symm⟩)
    | move p => exact .inl ⟨p, rfl, by simpa [ha] using h.symm⟩
    | merge o => exact .inr (.inr (.inl ⟨o, rfl, by simpa [ha] using h.symm⟩))
    | offFront => simp [ha] at h

/-- The call stops where it returns and where the scan reads before the front. -/
theorem step_eq_none : s.step = none ↔ s.G.length ≤ s.gInd ∨ s.OffFront := by
  rw [step, OffFront]
  split_ifs with hlt
  · cases ha : s.action? with
    | none => simp [hlt]
    | some a => cases a <;> simp [hlt]
  · simp [not_lt.mp hlt]

@[simp] theorem finish_gInd : s.finish.gInd = (s.gInd + 1) % 2 ^ 32 := rfl

@[simp] theorem length_finish : s.finish.G.length = s.G.length := by
  rw [finish]
  simp only
  split_ifs <;> simp

@[simp] theorem length_cancel (o : ℕ) : (s.cancel o).G.length = s.G.length := by
  simp [cancel]

@[simp] theorem length_merge (o : ℕ) : (s.merge o).G.length = s.G.length := by
  simp [merge]

theorem move_bounds {p : ℕ} (h : s.action? = some (.move p)) : s.gInd < p ∧ p < s.G.length := by
  obtain ⟨-, -, ha⟩ := action?_eq_some h
  obtain ⟨hne, o, ho, -, hswap⟩ := action_eq_move ha
  obtain ⟨hp, -⟩ := canSwap_eq_pos (by omega) hswap
  omega

theorem perm_moveTo {G : List OpGate} {i p : ℕ} (hip : i < p) (hp : p < G.length) :
    (moveTo G i p).Perm G := by
  obtain ⟨A, B, C, hG, hmove, -, -⟩ := exists_moveTo hip hp
  rw [hmove]
  conv_rhs => rw [hG]
  exact List.perm_middle.append_left A

theorem length_step (h : s.step = some t) : t.G.length = s.G.length := by
  obtain ⟨-, ⟨p, hp, rfl⟩ | ⟨o, -, rfl⟩ | ⟨o, -, rfl⟩ | rfl⟩ := step_eq_some h
  · exact (perm_moveTo (move_bounds hp).1 (move_bounds hp).2).length_eq
  · rw [length_finish, length_cancel]
  · rw [length_finish, length_merge]
  · exact length_finish

end OptState

end ScaffCC.Optimize
