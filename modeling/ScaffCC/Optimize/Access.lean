import ScaffCC.Optimize.Optimal

/-!
# The positions `optimal` reads and writes

The functions below follow `optimal` and list the positions of the gate vector that it reads or
writes. All of them are in the list, but for two. A round of the scan that finds nothing looks at
the gate of the next offset, which is past the end when the round was at the last gate. And the
second loop of `canSwap` goes below the front of the list when the first gate is at its front and
all gates before the second one commute with that.
-/

open StateTransition

namespace ScaffCC.Optimize

/-! ## canSwap -/

/-- The positions the first loop of `canSwap` reads in `n` more rounds. -/
def swapUpAccess (G : List OpGate) (iInd : ℕ) : ℕ → ℕ → List ℕ
  | 0, _ => []
  | n + 1, iPos =>
    iInd :: (iPos + 1) ::
      if ifCommute (gateAt G iInd) (gateAt G (iPos + 1)) then swapUpAccess G iInd n (iPos + 1)
      else []

/-- The positions the second loop of `canSwap` reads in `n` more rounds. -/
def swapDownAccess (G : List OpGate) (fInd : ℕ) : ℕ → ℕ → List ℕ
  | 0, _ => []
  | n + 1, fPos =>
    fInd :: (fPos - 1) ::
      if ifCommute (gateAt G fInd) (gateAt G (fPos - 1)) then swapDownAccess G fInd n (fPos - 1)
      else []

/-- The positions `canSwap` reads. Below the front an unsigned counter is at its largest value. -/
def canSwapAccess (G : List OpGate) (iInd fInd : ℕ) : List ℕ :=
  if iInd > fInd then []
  else
    swapUpAccess G iInd (fInd - iInd) iInd ++ swapDownAccess G fInd (fInd - iInd) fInd ++
      if canSwap G iInd fInd = .offFront then [fInd, 2 ^ 32 - 1] else []

/-! ## The scan -/

/-- The positions a round of the scan reads to find out what to do. -/
def lookAccess (G : List OpGate) (gInd gOff : ℕ) : List ℕ :=
  gInd :: (gInd + gOff) ::
    (if samePair (gateAt G gInd) (gateAt G (gInd + gOff)) then canSwapAccess G gInd (gInd + gOff)
    else []) ++
    if tryCancel G gInd gOff = none ∧ swapPair (gateAt G gInd) (gateAt G (gInd + gOff)) then
      canSwapAccess G gInd (gInd + gOff)
    else []

/-- The positions that are read and written to do what a round has found. -/
def actionAccess (gInd : ℕ) : Action → List ℕ
  | .cancel gOff | .merge gOff => [gInd, gInd + gOff]
  | .move newPos => List.range' gInd (newPos + 1 - gInd)
  | .keep | .offFront => []

/-- The positions of a round. One that finds nothing looks at the gate of the next offset. -/
def roundAccess (G : List OpGate) (gInd gOff : ℕ) : List ℕ :=
  lookAccess G gInd gOff ++
    match look G gInd gOff with
    | some a => actionAccess gInd a
    | none => [gInd, gInd + (gOff + 1)]

/-- The positions of the scan from offset `gOff` on, with `n` more gates in the list. -/
def scanAccess (G : List OpGate) (gInd : ℕ) : ℕ → ℕ → ℕ → List ℕ
  | 0, _, _ => []
  | n + 1, gOff, gCount =>
    if gCount < OPT_THRESHOLD then
      roundAccess G gInd gOff ++
        match look G gInd gOff with
        | some _ => []
        | none =>
          scanAccess G gInd n (gOff + 1)
            (if shareBit (gateAt G gInd) (gateAt G (gInd + (gOff + 1))) then gCount + 1 else gCount)
    else []

/-- The positions that are read and written from `temp_begin` to the next time control is there. -/
def OptState.access (s : OptState) : List ℕ :=
  if s.gInd < s.G.length then
    s.gInd ::
      if (gateAt s.G s.gInd).gateTy = .CNOT then scanAccess s.G s.gInd (s.G.length - s.gInd - 1) 1 0
      else []
  else []

/-! ## What canSwap reads -/

variable {G : List OpGate} {iInd fInd gInd gOff i : ℕ}

theorem le_of_mem_swapUpAccess {n iPos : ℕ} (hi : iInd ≤ iPos)
    (h : i ∈ swapUpAccess G iInd n iPos) :
    i ≤ iPos + n := by
  induction n generalizing iPos with
  | zero => exact absurd h List.not_mem_nil
  | succ n ih =>
    rw [swapUpAccess, List.mem_cons, List.mem_cons] at h
    rcases h with rfl | rfl | h
    · omega
    · omega
    · split_ifs at h
      · exact (ih (by omega) h).trans (by omega)
      · exact absurd h List.not_mem_nil

theorem le_of_mem_swapDownAccess {n fPos : ℕ} (hf : fPos ≤ fInd)
    (h : i ∈ swapDownAccess G fInd n fPos) : i ≤ fInd := by
  induction n generalizing fPos with
  | zero => exact absurd h List.not_mem_nil
  | succ n ih =>
    rw [swapDownAccess, List.mem_cons, List.mem_cons] at h
    rcases h with rfl | rfl | h
    · exact le_rfl
    · omega
    · split_ifs at h
      · exact ih (by omega) h
      · exact absurd h List.not_mem_nil

/-- **Below the front**: the first gate is at the front of the list, and all gates before the second
one commute with that. -/
theorem canSwap_eq_offFront_iff (h : iInd < fInd) : canSwap G iInd fInd = .offFront ↔
    iInd = 0 ∧ ∀ j < fInd, ifCommute (gateAt G fInd) (gateAt G j) := by
  have hdown := swapDown_le G fInd (fInd - iInd) fInd
  have hoff : canSwap G iInd fInd = .offFront ↔ swapDown G fInd (fInd - iInd) fInd = 0 := by
    rw [canSwap, if_neg (by omega)]
    simp only
    split_ifs with hzero <;> simp [hzero]
  rw [hoff]
  constructor
  · intro hzero
    exact ⟨by omega, fun j hj ↦ ifCommute_of_swapDown_le hj (hzero.trans_le (Nat.zero_le j))⟩
  · rintro ⟨rfl, hall⟩
    by_contra hpos
    have hheld : fInd - (fInd - 0) < swapDown G fInd (fInd - 0) fInd := by omega
    exact not_ifCommute_swapDown hheld (hall _ (by omega))

/-- Two CNOTs on the same operands the other way round do not commute. -/
theorem canSwap_ne_offFront_of_swapPair (ho : 1 ≤ gOff) (hg : (gateAt G gInd).gateTy = .CNOT)
    (hpair : swapPair (gateAt G gInd) (gateAt G (gInd + gOff))) :
    canSwap G gInd (gInd + gOff) ≠ .offFront := by
  intro hoff
  obtain ⟨-, hall⟩ := (canSwap_eq_offFront_iff (by omega)).mp hoff
  have hcomm := hall gInd (by omega)
  rw [swapPair, decide_eq_true_iff] at hpair
  simp [ifCommute, hg, hpair.1, hpair.2.1, GateTy.oneQubit] at hcomm

/-- What `canSwap` reads is in the list, unless it goes below the front. -/
theorem canSwapAccess_lt_iff (h : iInd < fInd) (hf : fInd < G.length) :
    (∀ i ∈ canSwapAccess G iInd fInd, i < G.length) ↔
      (canSwap G iInd fInd = .offFront → 2 ^ 32 - 1 < G.length) := by
  have hloops : ∀ i ∈ swapUpAccess G iInd (fInd - iInd) iInd ++
      swapDownAccess G fInd (fInd - iInd) fInd, i < G.length := by
    intro i hi
    rcases List.mem_append.mp hi with hi | hi
    · have hle := le_of_mem_swapUpAccess le_rfl hi
      omega
    · have hle := le_of_mem_swapDownAccess le_rfl hi
      omega
  rw [canSwapAccess, if_neg (by omega), List.forall_mem_append, and_iff_right hloops]
  split_ifs with hoff <;> simp [hoff, hf]

/-! ## What a round reads -/

/-- The scan goes below the front only for an equal CNOT. -/
theorem look_eq_offFront_iff (ho : 1 ≤ gOff) (hg : (gateAt G gInd).gateTy = .CNOT) :
    look G gInd gOff = some .offFront ↔ samePair (gateAt G gInd) (gateAt G (gInd + gOff)) ∧
      canSwap G gInd (gInd + gOff) = .offFront := by
  constructor
  · intro h
    rcases Option.or_eq_some_iff.mp h with h | ⟨-, h⟩
    · obtain ⟨hpair, ⟨p, -, ha⟩ | ⟨hoff, -⟩⟩ := tryCancel_eq_some h
      · exact absurd ha nofun
      · exact ⟨hpair, hoff⟩
    · obtain ⟨hpair, ⟨p, -, ha⟩ | ⟨-, ha⟩ | ⟨hoff, -⟩⟩ := tryMerge_eq_some h
      · split_ifs at ha
      · exact absurd ha nofun
      · exact absurd hoff (canSwap_ne_offFront_of_swapPair ho hg hpair)
  · rintro ⟨hpair, hoff⟩
    have hcancel : tryCancel G gInd gOff = some .offFront := by
      rw [tryCancel, if_pos hpair, hoff]
    rw [look, hcancel, Option.some_or]

theorem canSwapAccess_lt_of_tryCancel (ho : 1 ≤ gOff) (hlt : gInd + gOff < G.length)
    (hg : (gateAt G gInd).gateTy = .CNOT)
    (hpair : swapPair (gateAt G gInd) (gateAt G (gInd + gOff))) :
    ∀ i ∈ canSwapAccess G gInd (gInd + gOff), i < G.length :=
  (canSwapAccess_lt_iff (by omega) hlt).mpr fun hoff ↦
    absurd hoff (canSwap_ne_offFront_of_swapPair ho hg hpair)

/-- What a round reads and writes is in the list, unless it goes below the front or finds nothing at
the last gate. -/
theorem roundAccess_lt_iff (ho : 1 ≤ gOff) (hlt : gInd + gOff < G.length)
    (hg : (gateAt G gInd).gateTy = .CNOT) :
    (∀ i ∈ roundAccess G gInd gOff, i < G.length) ↔
      (look G gInd gOff = some .offFront → 2 ^ 32 - 1 < G.length) ∧
        (look G gInd gOff = none → gInd + (gOff + 1) < G.length) := by
  have hgInd : gInd < G.length := by omega
  have hlook : (∀ i ∈ lookAccess G gInd gOff, i < G.length) ↔
      (look G gInd gOff = some .offFront → 2 ^ 32 - 1 < G.length) := by
    rw [look_eq_offFront_iff ho hg, lookAccess, List.forall_mem_append]
    -- the test before a merge looks between two gates of the list
    have hmerge : ∀ i ∈ if tryCancel G gInd gOff = none ∧
        swapPair (gateAt G gInd) (gateAt G (gInd + gOff)) then
          canSwapAccess G gInd (gInd + gOff) else [], i < G.length := by
      split_ifs with hpair
      · exact canSwapAccess_lt_of_tryCancel ho hlt hg hpair.2
      · exact fun i hi ↦ absurd hi List.not_mem_nil
    rw [and_iff_left hmerge, List.forall_mem_cons, List.forall_mem_cons, and_iff_right hgInd,
      and_iff_right hlt]
    split_ifs with hpair
    · rw [canSwapAccess_lt_iff (by omega) hlt, and_iff_right hpair]
    · simp [hpair]
  rw [roundAccess, List.forall_mem_append, hlook]
  refine and_congr_right fun _ ↦ ?_
  cases ha : look G gInd gOff with
  | none => simp [hgInd]
  | some a =>
    refine iff_of_true ?_ nofun
    cases a with
    | keep | offFront => exact fun i hi ↦ absurd hi List.not_mem_nil
    | cancel o =>
      obtain ⟨rfl, -⟩ := look_eq_cancel ha
      simp [actionAccess, hgInd, hlt]
    | merge o =>
      obtain ⟨rfl, -⟩ := look_eq_merge ha
      simp [actionAccess, hgInd, hlt]
    | move p =>
      obtain ⟨-, -, hswap⟩ := look_eq_move ha
      obtain ⟨hp, -⟩ := canSwap_eq_pos (by omega) hswap
      intro i hi
      have hi' := List.mem_range'_1.mp hi
      omega

/-! ## The rounds of a scan -/

/-- The number of gates the scan has counted when it is at an offset. -/
def sharing (G : List OpGate) (gInd gOff : ℕ) : ℕ :=
  (List.range' 2 (gOff - 1)).countP fun j ↦ shareBit (gateAt G gInd) (gateAt G (gInd + j))

/-- The scan comes to an offset: no round before has found anything, and it has not given up. -/
structure RoundMade (G : List OpGate) (gInd gOff : ℕ) : Prop where
  nothing : ∀ o, 1 ≤ o → o < gOff → look G gInd o = none
  sharing : sharing G gInd gOff < OPT_THRESHOLD

theorem sharing_succ (ho : 1 ≤ gOff) : sharing G gInd (gOff + 1) =
    if shareBit (gateAt G gInd) (gateAt G (gInd + (gOff + 1))) then sharing G gInd gOff + 1
    else sharing G gInd gOff := by
  obtain ⟨k, rfl⟩ := Nat.exists_eq_add_of_le' ho
  have hrange : List.range' 2 (k + 1 + 1 - 1) = List.range' 2 (k + 1 - 1) ++ [k + 1 + 1] := by
    rw [Nat.add_sub_cancel, Nat.add_sub_cancel, List.range'_concat]
    congr 2
    omega
  rw [sharing, hrange, List.countP_append, List.countP_singleton, ← sharing]
  split_ifs <;> rfl

theorem sharing_mono {o : ℕ} (ho : 1 ≤ gOff) (h : gOff ≤ o) :
    sharing G gInd gOff ≤ sharing G gInd o := by
  induction o, h using Nat.le_induction with
  | base => exact le_rfl
  | succ o hle ih =>
    rw [sharing_succ (ho.trans hle)]
    split_ifs
    · exact ih.trans (Nat.le_succ _)
    · exact ih

theorem scanAccess_lt_iff {n gCount : ℕ} (hn : gInd + gOff + n = G.length) (ho : 1 ≤ gOff)
    (hcount : gCount = sharing G gInd gOff)
    (hnothing : ∀ o, 1 ≤ o → o < gOff → look G gInd o = none) :
    (∀ i ∈ scanAccess G gInd n gOff gCount, i < G.length) ↔
      ∀ o, gOff ≤ o → gInd + o < G.length → RoundMade G gInd o →
        ∀ i ∈ roundAccess G gInd o, i < G.length := by
  induction n generalizing gOff gCount with
  | zero => exact iff_of_true (fun i hi ↦ absurd hi List.not_mem_nil) fun o hle hlt ↦ by omega
  | succ n ih =>
    rw [scanAccess]
    by_cases hthreshold : gCount < OPT_THRESHOLD
    · have hmade : RoundMade G gInd gOff := ⟨hnothing, hcount ▸ hthreshold⟩
      rw [if_pos hthreshold, List.forall_mem_append]
      cases hlook : look G gInd gOff with
      | some a =>
        simp only [List.not_mem_nil, IsEmpty.forall_iff, implies_true, and_true]
        refine ⟨fun h o hle hlt hmade' ↦ ?_, fun h ↦ h gOff le_rfl (by omega) hmade⟩
        rcases hle.eq_or_lt with rfl | hlt'
        · exact h
        · -- a round that finds something is the last one
          exact absurd (hmade'.nothing gOff ho hlt') (hlook ▸ Option.some_ne_none a)
      | none =>
        simp only
        rw [ih (by omega) (by omega) (by rw [sharing_succ ho, hcount]) fun o h₁ h₂ ↦ ?_]
        · constructor
          · rintro ⟨hround, hrest⟩ o hle hlt hmade'
            rcases hle.eq_or_lt with rfl | hlt'
            · exact hround
            · exact hrest o hlt' hlt hmade'
          · exact fun h ↦ ⟨h gOff le_rfl (by omega) hmade, fun o hle ↦ h o (by omega)⟩
        · rcases Nat.lt_succ_iff_lt_or_eq.mp h₂ with hlt | rfl
          · exact hnothing o h₁ hlt
          · exact hlook
    · rw [if_neg hthreshold]
      refine iff_of_true (fun i hi ↦ absurd hi List.not_mem_nil) fun o hle _ hmade' ↦ ?_
      have hmono : sharing G gInd gOff ≤ sharing G gInd o := sharing_mono ho hle
      have hlast := hmade'.sharing
      omega

/-! ## A step -/

namespace OptState

variable {s : OptState}

/-- The scan from a CNOT at the counter finds something or gives up before it has looked at the last
gate in vain, and an equal CNOT is only compared with one at the front of the list when some gate
before it does not commute with it. -/
structure StaysInside (s : OptState) : Prop where
  ends : s.gInd + 1 < s.G.length → (gateAt s.G s.gInd).gateTy = .CNOT →
    (∃ o, 1 ≤ o ∧ s.gInd + o < s.G.length ∧ look s.G s.gInd o ≠ none) ∨
      OPT_THRESHOLD ≤ sharing s.G s.gInd (s.G.length - 1 - s.gInd)
  front : s.gInd = 0 → (gateAt s.G 0).gateTy = .CNOT → ∀ o, 1 ≤ o → o < s.G.length →
    RoundMade s.G 0 o → samePair (gateAt s.G 0) (gateAt s.G o) →
      ∃ j < o, ¬ ifCommute (gateAt s.G o) (gateAt s.G j)

/-- The scan of a step reads before the front exactly where an equal CNOT commutes with all gates
before it. -/
theorem front_iff {o : ℕ} (ho : 1 ≤ o) (hg : (gateAt s.G s.gInd).gateTy = .CNOT) :
    look s.G s.gInd o = some .offFront ↔ s.gInd = 0 ∧ samePair (gateAt s.G 0) (gateAt s.G o) ∧
      ∀ j < o, ifCommute (gateAt s.G o) (gateAt s.G j) := by
  rw [look_eq_offFront_iff ho hg, canSwap_eq_offFront_iff (by omega)]
  constructor
  · rintro ⟨hpair, hzero, hall⟩
    rw [hzero, Nat.zero_add] at hpair hall
    exact ⟨hzero, hpair, hall⟩
  · rintro ⟨hzero, hpair, hall⟩
    rw [hzero, Nat.zero_add]
    exact ⟨hpair, rfl, hall⟩

/-- What a step reads and writes, by the rounds of its scan. -/
theorem access_lt_iff (hlt : s.gInd < s.G.length) (hg : (gateAt s.G s.gInd).gateTy = .CNOT) :
    (∀ i ∈ s.access, i < s.G.length) ↔
      ∀ o, 1 ≤ o → s.gInd + o < s.G.length → RoundMade s.G s.gInd o →
        (look s.G s.gInd o = some .offFront → 2 ^ 32 - 1 < s.G.length) ∧
          (look s.G s.gInd o = none → s.gInd + (o + 1) < s.G.length) := by
  have hlen : s.gInd + 1 + (s.G.length - s.gInd - 1) = s.G.length := by omega
  have hscan := scanAccess_lt_iff hlen le_rfl (rfl : 0 = sharing s.G s.gInd 1)
    fun o h₁ h₂ ↦ absurd h₁ (by omega)
  rw [access, if_pos hlt, if_pos hg, List.forall_mem_cons, and_iff_right hlt, hscan]
  refine forall_congr' fun o ↦ forall_congr' fun ho ↦ forall₂_congr fun hlt' _ ↦ ?_
  exact roundAccess_lt_iff ho hlt' hg

theorem access_lt_of_not_CNOT (hg : (gateAt s.G s.gInd).gateTy ≠ .CNOT) :
    ∀ i ∈ s.access, i < s.G.length := by
  rw [access]
  split_ifs with hlt
  · simp [hlt]
  · exact fun i hi ↦ absurd hi List.not_mem_nil

theorem StaysInside.access_lt (h : s.StaysInside) : ∀ i ∈ s.access, i < s.G.length := by
  by_cases hlt : s.gInd < s.G.length
  · by_cases hg : (gateAt s.G s.gInd).gateTy = .CNOT
    · refine (access_lt_iff hlt hg).mpr fun o ho hlt' hmade ↦ ⟨fun hoff ↦ ?_, fun hnone ↦ ?_⟩
      · obtain ⟨hzero, hpair, hall⟩ := (front_iff ho hg).mp hoff
        rw [hzero] at hg hmade hlt'
        obtain ⟨j, hj, hnot⟩ := h.front hzero hg o ho (by omega) hmade hpair
        exact absurd (hall j hj) hnot
      · by_contra hend
        have hlast : o = s.G.length - 1 - s.gInd := by omega
        rcases h.ends (by omega) hg with ⟨o', ho', hlt'', hfound⟩ | hmany
        · rcases (show o' ≤ o by omega).eq_or_lt with rfl | hbefore
          · exact hfound hnone
          · exact hfound (hmade.nothing o' ho' hbefore)
        · exact absurd hmade.sharing (not_lt.mpr (hlast ▸ hmany))
    · exact access_lt_of_not_CNOT hg
  · rw [access, if_neg hlt]
    exact fun i hi ↦ absurd hi List.not_mem_nil

theorem staysInside_of_access_lt (hlen : s.G.length < 2 ^ 32)
    (h : ∀ i ∈ s.access, i < s.G.length) : s.StaysInside := by
  constructor
  · intro hlt hg
    by_contra hnot
    obtain ⟨hnothing, hfew⟩ := not_or.mp hnot
    have hnone : ∀ o, 1 ≤ o → s.gInd + o < s.G.length → look s.G s.gInd o = none :=
      fun o ho hlt' ↦ not_not.mp fun hfound ↦ hnothing ⟨o, ho, hlt', hfound⟩
    have hmade : RoundMade s.G s.gInd (s.G.length - 1 - s.gInd) :=
      ⟨fun o ho hlt' ↦ hnone o ho (by omega), not_le.mp hfew⟩
    have hend := ((access_lt_iff (by omega) hg).mp h _ (by omega) (by omega) hmade).2
      (hnone _ (by omega) (by omega))
    omega
  · intro hzero hg o ho hlt hmade hpair
    by_contra hnot
    have hall : ∀ j < o, ifCommute (gateAt s.G o) (gateAt s.G j) := fun j hj ↦ by
      by_contra hj'
      exact hnot ⟨j, hj, hj'⟩
    rw [← hzero] at hg hmade
    have hoff := (front_iff ho hg).mpr ⟨hzero, hpair, hall⟩
    have hfar := ((access_lt_iff (by omega) hg).mp h o ho (by omega) hmade).1 hoff
    omega

end OptState

/-- **The accesses of a call of `optimal`.** They are all in the list when every step stays inside,
and for lists that an unsigned counter can count only then. -/
theorem access_lt_length_iff (G : List OpGate) (M : List ℕ) :
    ((∀ s, Reaches OptState.step ⟨G, M, 0⟩ s → s.StaysInside) →
        ∀ s, Reaches OptState.step ⟨G, M, 0⟩ s → ∀ i ∈ s.access, i < s.G.length) ∧
      (G.length < 2 ^ 32 →
        (∀ s, Reaches OptState.step ⟨G, M, 0⟩ s → ∀ i ∈ s.access, i < s.G.length) →
        ∀ s, Reaches OptState.step ⟨G, M, 0⟩ s → s.StaysInside) := by
  refine ⟨fun h s hs ↦ (h s hs).access_lt, fun hlen h s hs ↦ ?_⟩
  refine OptState.staysInside_of_access_lt ?_ (h s hs)
  have hkeep : s.G.length = G.length :=
    Reaches.invariant (P := fun s ↦ s.G.length = G.length) hs rfl fun u v _ hu huv ↦
      (OptState.length_step huv).trans hu
  rw [hkeep]
  exact hlen

/-- The gate after the last one is read for a CNOT and a gate on another qubit. -/
theorem not_access_lt_length :
    ¬ ∀ s, Reaches OptState.step ⟨[cnotGate 1 2, ⟨.H, 3, 0, 0, false, 0⟩], List.range 5, 0⟩ s →
      ∀ i ∈ s.access, i < s.G.length := by
  intro h
  have haccess : 2 ∈ (⟨[cnotGate 1 2, ⟨.H, 3, 0, 0, false, 0⟩], List.range 5, 0⟩ :
      OptState).access := by decide
  exact absurd (h _ .refl 2 haccess) (by decide)

end ScaffCC.Optimize
