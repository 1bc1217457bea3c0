import ScaffCC.Lpfs.LongestPath
import ScaffCC.Scheduling.Credit

/-!
# Is the path a longest one?

`find_lp` gives each call the length of a longest chain of calls that ends with it, goes to the call
with the greatest length, and follows the chain upwards. Two calls are not treated like the others:
the loop over the calls leaves out the last one, so that no chain ends there, and the loop that sets
the distances back leaves out the call with the greatest address, which keeps the distance it had.

So the path that is found has the greatest credit among the chains without the last call, where a
chain that starts with the call with the greatest address is credited with the distance of that call
in place of one. It is a longest chain if there are longest chains that this does not change.
-/

open Scheduling

namespace ScaffCC.Lpfs

/-- The call is in the list and not on a path yet. -/
def Unfollowed (body : List Call) (followed : ℕ → Bool) (i : ℕ) : Prop :=
  i < body.length ∧ followed i = false

/-- A chain of unfollowed calls, each of which depends on the one before it. -/
def UnfollowedChain (body : List Call) (followed : ℕ → Bool) (c : List ℕ) : Prop :=
  PathOf (LastUse body) (Unfollowed body followed) c

/-- A chain of unfollowed calls than which none is longer. -/
def LongestChain (body : List Call) (followed : ℕ → Bool) (c : List ℕ) : Prop :=
  UnfollowedChain body followed c ∧ ∀ d, UnfollowedChain body followed d → d.length ≤ c.length

/-- A longest chain without the last call. -/
def EarlyLongest (body : List Call) (followed : ℕ → Bool) (c : List ℕ) : Prop :=
  LongestChain body followed c ∧ c ≠ [] ∧ ∀ i ∈ c, i + 1 < body.length

variable {body : List Call} {s : PathState} {lastPtr : ℕ}

theorem LastUse.lt {a b : ℕ} (h : LastUse body a b) : a < b := h.1.1

theorem mem_outEdges_iff_lastUse {a b : ℕ} : b ∈ outEdges body a ↔ LastUse body a b := by
  simp only [mem_outEdges, nextUse_eq_some, LastUse]
  constructor
  · rintro ⟨q, hqa, hab, hqb, hbetween⟩
    exact ⟨hab, q, hqa, hqb, hbetween⟩
  · rintro ⟨hab, q, hqa, hqb, hbetween⟩
    exact ⟨q, hqa, hab, hqb, hbetween⟩

namespace PathState

def startDist (lastPtr : ℕ) (s : PathState) (i : ℕ) : ℤ := if i = lastPtr then s.dist i else 1

/-- The greatest credit of a chain that ends with the call and whose other calls come before `k`. -/
def BestTo (body : List Call) (lastPtr : ℕ) (s : PathState) (k i : ℕ) (w : ℤ) : Prop :=
  Best (LastUse body) (Unfollowed body s.followed) (s.startDist lastPtr) k i w

/-! ## The distances -/

theorem foldl_update {es : List ℕ} {dist : ℕ → ℤ} {v : ℤ} {j : ℕ} :
    es.foldl (fun dist c ↦ Function.update dist c (max (dist c) v)) dist j =
      if j ∈ es then max (dist j) v else dist j := by
  induction es generalizing dist with
  | nil => rfl
  | cons c es ih =>
    rw [List.foldl_cons, ih]
    by_cases hj : j = c
    · subst hj
      simp
    · simp [hj]

/-- What the second loop has found after the calls before `k`. -/
structure Scanned (body : List Call) (lastPtr : ℕ) (s : PathState) (k : ℕ) (s' : PathState)
    (top : ℕ) : Prop where
  followed : s'.followed = s.followed
  dist : ∀ i, Unfollowed body s.followed i → BestTo body lastPtr s k i (s'.dist i)
  done : ∀ i < k, s.followed i = true → s'.dist i = 0
  top : k = 0 ∧ top = 0 ∨
    (top < k ∧ Unfollowed body s.followed top ∧
      (∀ i < k, Unfollowed body s.followed i → s'.dist i ≤ s'.dist top) ∧
        (s.followed 0 = true → 0 ≤ s'.dist top)) ∨
    (0 < k ∧ top = 0 ∧ s.followed 0 = true ∧
      ∀ i < k, Unfollowed body s.followed i → s'.dist i < 0)

variable {k top : ℕ} {s' : PathState}

theorem scanned_zero : Scanned body lastPtr s 0 (s.setDist lastPtr) 0 := by
  refine ⟨rfl, fun i hi ↦ ?_, fun i hi ↦ absurd hi (Nat.not_lt_zero i), .inl ⟨rfl, rfl⟩⟩
  have hdist : (s.setDist lastPtr).dist i = s.startDist lastPtr i := by
    by_cases hl : i = lastPtr
    · simp [setDist, startDist, hl]
    · simp [setDist, startDist, hl, hi.2]
  rw [hdist]
  exact best_zero hi

theorem Scanned.top_le (h : Scanned body lastPtr s k s' top) : top ≤ k := by
  rcases h.top with ⟨-, htop⟩ | ⟨htk, -⟩ | ⟨-, htop, -⟩
  · exact htop.le.trans (Nat.zero_le k)
  · exact htk.le
  · exact htop.le.trans (Nat.zero_le k)

/-- A followed call gets the distance zero, and no chain goes through it. -/
theorem Scanned.pass (h : Scanned body lastPtr s k s' top) (hfk : s.followed k = true) :
    Scanned body lastPtr s (k + 1) ⟨Function.update s'.dist k 0, s'.followed⟩ top := by
  have hnot : ¬ Unfollowed body s.followed k := fun hu ↦
    Bool.false_ne_true (hu.2.symm.trans hfk)
  have hne : ∀ {i}, Unfollowed body s.followed i → i ≠ k := fun hi hik ↦ hnot (hik ▸ hi)
  have hold : ∀ i < k + 1, Unfollowed body s.followed i → i < k := fun i hi hu ↦
    lt_of_le_of_ne (Nat.le_of_lt_succ hi) (hne hu)
  refine ⟨h.followed, fun i hi ↦ ?_, fun i hi hf ↦ ?_, .inr ?_⟩
  · dsimp only
    rw [Function.update_of_ne (hne hi)]
    exact (h.dist i hi).skip (fun _ _ ↦ LastUse.lt) fun hok ↦ hnot hok.1
  · dsimp only
    by_cases hik : i = k
    · rw [hik, Function.update_self]
    · rw [Function.update_of_ne hik]
      exact h.done i (by omega) hf
  · dsimp only
    rcases h.top with ⟨hk, htop⟩ | ⟨htk, htu, hmax, hzero⟩ | ⟨-, htop, hf0, hneg⟩
    · subst hk
      exact .inr ⟨Nat.succ_pos _, htop, hfk, fun i hi hu ↦
        absurd (hold i hi hu) (Nat.not_lt_zero i)⟩
    · refine .inl ⟨htk.trans (Nat.lt_succ_self k), htu, fun i hi hu ↦ ?_, fun hf ↦ ?_⟩
      · rw [Function.update_of_ne (hne hu), Function.update_of_ne (hne htu)]
        exact hmax i (hold i hi hu) hu
      · rw [Function.update_of_ne (hne htu)]
        exact hzero hf
    · refine .inr ⟨Nat.succ_pos k, htop, hf0, fun i hi hu ↦ ?_⟩
      rw [Function.update_of_ne (hne hu)]
      exact hneg i (hold i hi hu) hu

/-- The calls that depend on a call that is not followed get greater distances. The call becomes the
end of the path if no call so far has a greater distance. -/
theorem Scanned.relax {dist : ℕ → ℤ} (h : Scanned body lastPtr s k s' top)
    (hu : Unfollowed body s.followed k)
    (hdist : ∀ i, dist i = if i ∈ outEdges body k then max (s'.dist i) (s'.dist k + 1)
      else s'.dist i) :
    Scanned body lastPtr s (k + 1) ⟨dist, s'.followed⟩
      (if s'.dist k ≥ dist top then k else top) := by
  -- relaxing the edges out of `k` changes nothing at or before it
  have hsame : ∀ i ≤ k, dist i = s'.dist i := fun i hi ↦ by
    rw [hdist, if_neg fun hl ↦ absurd (mem_outEdges_iff_lastUse.mp hl).lt (Nat.not_lt.mpr hi)]
  have hold : ∀ i < k + 1, i ≠ k → i < k := fun i hi hne ↦
    lt_of_le_of_ne (Nat.le_of_lt_succ hi) hne
  refine ⟨h.followed, fun i hi ↦ ?_, fun i hi hf ↦ ?_, .inr ?_⟩
  · dsimp only
    rw [hdist]
    split_ifs with hl
    · exact (h.dist k hu).relax (fun _ _ ↦ LastUse.lt) (h.dist i hi)
        (mem_outEdges_iff_lastUse.mp hl)
    · exact (h.dist i hi).skip (fun _ _ ↦ LastUse.lt) fun hok ↦
        hl (mem_outEdges_iff_lastUse.mpr hok.2)
  · have hik : i ≠ k := fun hik ↦ Bool.false_ne_true (hu.2.symm.trans (hik ▸ hf))
    dsimp only
    rw [hsame i (hold i hi hik).le]
    exact h.done i (hold i hi hik) hf
  · dsimp only
    rw [hsame top h.top_le]
    split_ifs with hge
    · -- `k` is the new top
      refine .inl ⟨Nat.lt_succ_self k, hu, fun i hi hui ↦ ?_, fun hf ↦ ?_⟩
      · rw [hsame i (Nat.le_of_lt_succ hi), hsame k le_rfl]
        by_cases hik : i = k
        · rw [hik]
        · have hik := hold i hi hik
          rcases h.top with ⟨hk, -⟩ | ⟨-, -, hmax, -⟩ | ⟨hk0, htop0, hf0, hneg⟩
          · omega
          · exact (hmax i hik hui).trans hge
          · rw [htop0, h.done 0 hk0 hf0] at hge
            exact (hneg i hik hui).le.trans hge
      · rw [hsame k le_rfl]
        rcases h.top with ⟨hk, -⟩ | ⟨-, -, -, hzero⟩ | ⟨hk0, htop0, hf0, -⟩
        · exact absurd (hu.2.symm.trans (hk ▸ hf)) Bool.false_ne_true
        · exact (hzero hf).trans hge
        · rwa [htop0, h.done 0 hk0 hf0] at hge
    · rw [ge_iff_le, not_le] at hge
      rcases h.top with ⟨hk, htop0⟩ | ⟨htk, htu, hmax, hzero⟩ | ⟨hk0, htop0, hf0, hneg⟩
      · rw [hk, htop0] at hge
        exact absurd hge (lt_irrefl _)
      · refine .inl ⟨htk.trans (Nat.lt_succ_self k), htu, fun i hi hui ↦ ?_, fun hf ↦ ?_⟩
        · rw [hsame i (Nat.le_of_lt_succ hi), hsame top h.top_le]
          by_cases hik : i = k
          · rw [hik]
            exact hge.le
          · exact hmax i (hold i hi hik) hui
        · rw [hsame top h.top_le]
          exact hzero hf
      · refine .inr ⟨Nat.succ_pos k, htop0, hf0, fun i hi hui ↦ ?_⟩
        rw [hsame i (Nat.le_of_lt_succ hi)]
        by_cases hik : i = k
        · rw [hik]
          rwa [htop0, h.done 0 hk0 hf0] at hge
        · exact hneg i (hold i hi hik) hui

theorem Scanned.visit (h : Scanned body lastPtr s k s' top) (hk : k < body.length) :
    Scanned body lastPtr s (k + 1) (PathState.visit body k s' top).1
      (PathState.visit body k s' top).2 := by
  rw [PathState.visit, h.followed]
  cases hfk : s.followed k with
  | true =>
    rw [if_pos rfl, ← h.followed]
    exact h.pass hfk
  | false =>
    rw [if_neg Bool.false_ne_true, ← h.followed]
    exact h.relax ⟨hk, hfk⟩ fun i ↦ foldl_update

/-- **The distances** are the greatest credits of chains. -/
theorem scanned_visitAll (body : List Call) (lastPtr : ℕ) (s : PathState) :
    Scanned body lastPtr s (body.length - 1) (visitAll body (s.setDist lastPtr)).1
      (visitAll body (s.setDist lastPtr)).2 := by
  have hrun : ∀ k ≤ body.length - 1, Scanned body lastPtr s k
      ((List.range k).foldl (fun acc i ↦ PathState.visit body i acc.1 acc.2)
        (s.setDist lastPtr, 0)).1
      ((List.range k).foldl (fun acc i ↦ PathState.visit body i acc.1 acc.2)
        (s.setDist lastPtr, 0)).2 := by
    intro k
    induction k with
    | zero => exact fun _ ↦ scanned_zero
    | succ k ih =>
      intro hk
      rw [List.range_succ, List.foldl_append, List.foldl_cons, List.foldl_nil]
      exact (ih (by omega)).visit (by omega)
  exact hrun _ le_rfl

/-! ## The path -/

theorem startDist_of_ne {i : ℕ} (h : i ≠ lastPtr) : s.startDist lastPtr i = 1 := if_neg h

theorem startDist_le {i : ℕ} {w : ℤ} (hi : Unfollowed body s.followed i)
    (h : BestTo body lastPtr s i i w) : s.startDist lastPtr i ≤ w := by
  have hle := h.credit_le (c := []) (fun _ _ ↦ LastUse.lt) (pathOf_singleton.mpr hi)
  simpa [credit] using hle

theorem eq_startDist_of_le_one {i : ℕ} {w : ℤ} (hi : Unfollowed body s.followed i)
    (h : BestTo body lastPtr s i i w) (hw : w ≤ 1) : w = s.startDist lastPtr i := by
  rcases h.source fun _ _ ↦ LastUse.lt with hstart | ⟨y, hy, hyu, hbest⟩
  · exact hstart
  · have hyw := startDist_le hyu hbest
    have hiw := startDist_le hi h
    by_cases hl : i = lastPtr
    · rw [startDist_of_ne (show y ≠ lastPtr from fun hyl ↦ absurd hy.lt (by omega))] at hyw
      omega
    · rw [startDist_of_ne hl] at hiw ⊢
      omega

/-- What the last loop relies on: the calls up to the end of the path are as they were found. -/
structure Climbable (body : List Call) (lastPtr : ℕ) (s : PathState) (i : ℕ) (s' : PathState) :
    Prop where
  dist : ∀ j ≤ i, Unfollowed body s.followed j → BestTo body lastPtr s j j (s'.dist j)
  followed : ∀ j ≤ i, s'.followed j = s.followed j

/-- **Following the path upwards** finds a chain with the greatest credit. -/
theorem climb_spec {n i : ℕ} (h : Climbable body lastPtr s i s')
    (hi : Unfollowed body s.followed i) (hn : (s'.dist i).toNat ≤ n) :
    ∃ c, (climb body n s' i).1.reverse = c ++ [i] ∧ UnfollowedChain body s.followed (c ++ [i]) ∧
      credit (s.startDist lastPtr) (c ++ [i]) = s'.dist i := by
  have hbest := h.dist i le_rfl hi
  -- where nothing is followed upwards, the chain is the call itself
  have halone : s'.dist i = s.startDist lastPtr i →
      ∃ c, [i].reverse = c ++ [i] ∧ UnfollowedChain body s.followed (c ++ [i]) ∧
        credit (s.startDist lastPtr) (c ++ [i]) = s'.dist i := fun hstart ↦
    ⟨[], rfl, pathOf_singleton.mpr hi, by simp [credit, hstart]⟩
  induction n generalizing s' i with
  | zero => exact halone (eq_startDist_of_le_one hi hbest (by omega))
  | succ n ih =>
    rw [climb]
    split_ifs with hd
    swap
    · exact halone (eq_startDist_of_le_one hi hbest (by omega))
    cases hup : nextUp body i (s'.dist i - 1) (s'.takePath i) with
    | none =>
      refine halone ?_
      rcases hbest.source fun _ _ ↦ LastUse.lt with hstart | ⟨y, hy, hyu, hby⟩
      · exact hstart
      · -- the call before would have been found
        have hnone := List.find?_eq_none.mp hup y (mem_inEdges.mpr hy)
        have hyi : y ≠ i := fun hyi ↦ absurd hy.lt (by omega)
        have hdist : s'.dist y = s'.dist i - 1 :=
          (h.dist y hy.lt.le hyu).unique hby
        refine absurd ?_ hnone
        rw [decide_eq_true_iff]
        simp only [takePath, Function.update_of_ne hyi]
        exact ⟨hdist, by rw [h.followed y hy.lt.le, hyu.2]; exact Bool.false_ne_true⟩
    | some a =>
      have hedge := mem_inEdges.mp (List.mem_of_find?_eq_some hup)
      have hai : a ≠ i := fun hai ↦ absurd hedge.lt (by omega)
      have ha := List.find?_some hup
      rw [decide_eq_true_iff] at ha
      simp only [takePath, Function.update_of_ne hai] at ha
      have hau : Unfollowed body s.followed a := by
        refine ⟨hedge.lt.trans hi.1, ?_⟩
        rw [← h.followed a hedge.lt.le]
        simpa using ha.2
      have hdist : (s'.takePath i).dist a = s'.dist i - 1 := by
        simp only [takePath, Function.update_of_ne hai]
        exact ha.1
      have hclimb : Climbable body lastPtr s a (s'.takePath i) := by
        have hji : ∀ j ≤ a, j ≠ i := fun j hj hji ↦ absurd hedge.lt (by omega)
        refine ⟨fun j hj hju ↦ ?_, fun j hj ↦ ?_⟩
        · simp only [takePath, Function.update_of_ne (hji j hj)]
          exact h.dist j (hj.trans hedge.lt.le) hju
        · simp only [takePath, Function.update_of_ne (hji j hj)]
          exact h.followed j (hj.trans hedge.lt.le)
      have hbest' := hclimb.dist a le_rfl hau
      have hfuel : ((s'.takePath i).dist a).toNat ≤ n := by
        clear halone
        rw [hdist]
        omega
      obtain ⟨c, hc, hchain, hcredit⟩ := ih hclimb hau hfuel hbest'
        fun hstart ↦ ⟨[], rfl, pathOf_singleton.mpr hau, by simp [credit, hstart]⟩
      refine ⟨c ++ [a], ?_, pathOf_concat.mpr ⟨hchain, hedge, hi⟩, ?_⟩
      · show (i :: (climb body n (s'.takePath i) a).1).reverse = _
        rw [List.reverse_cons, hc]
      · rw [credit_concat_concat, hcredit, hdist, Int.sub_add_cancel]

theorem climb_zero {n : ℕ} : (climb body n s' 0).1 = [0] := by
  have hup : ∀ d s', nextUp body 0 d s' = none := fun d s' ↦
    List.find?_eq_none.mpr fun a ha ↦
      absurd (mem_inEdges.mp ha).lt (Nat.not_lt_zero a)
  cases n with
  | zero => rfl
  | succ n =>
    rw [climb]
    split_ifs with hd
    · rw [hup]
    · rfl

/-- A chain without the last call. -/
def Early (body : List Call) (c : List ℕ) : Prop := c ≠ [] ∧ ∀ i ∈ c, i + 1 < body.length

theorem early_concat {followed : ℕ → Bool} {c : List ℕ} {i : ℕ}
    (hc : UnfollowedChain body followed (c ++ [i])) :
    Early body (c ++ [i]) ↔ i + 1 < body.length := by
  constructor
  · exact fun h ↦ h.2 i (by simp)
  · refine fun hi ↦ ⟨by simp, List.forall_mem_append.mpr ⟨fun j hj ↦ ?_,
      List.forall_mem_singleton.mpr hi⟩⟩
    have := hc.lt (fun _ _ ↦ LastUse.lt) j hj
    omega

/-- **What is found**: a chain with the greatest credit among those without the last call, or the
first call alone if it is the only one or if it is followed and no chain has any credit. -/
theorem findLp_spec (body : List Call) (lastPtr : ℕ) (s : PathState) :
    (UnfollowedChain body s.followed (findLp body lastPtr s).1.reverse ∧
      Early body (findLp body lastPtr s).1.reverse ∧
      (∀ c, UnfollowedChain body s.followed c → Early body c →
        credit (s.startDist lastPtr) c ≤
          credit (s.startDist lastPtr) (findLp body lastPtr s).1.reverse) ∧
      (s.followed 0 = true →
        0 ≤ credit (s.startDist lastPtr) (findLp body lastPtr s).1.reverse)) ∨
    ((findLp body lastPtr s).1 = [0] ∧ (body.length ≤ 1 ∨ s.followed 0 = true ∧
      ∀ c, UnfollowedChain body s.followed c → Early body c →
        credit (s.startDist lastPtr) c < 0)) := by
  have hscan := scanned_visitAll body lastPtr s
  rw [findLp]
  generalize visitAll body (s.setDist lastPtr) = found at hscan ⊢
  obtain ⟨s', top⟩ := found
  dsimp only at hscan ⊢
  have hmono : ∀ j, j + 1 ≤ body.length → Unfollowed body s.followed j →
      BestTo body lastPtr s j j (s'.dist j) := fun j hj hju ↦
    (hscan.dist j hju).mono (fun _ _ ↦ LastUse.lt) (by omega)
  -- a chain ends before the last call and gives at most what is found there
  have hle : ∀ c, UnfollowedChain body s.followed c → Early body c →
      ∃ j, j < body.length - 1 ∧ Unfollowed body s.followed j ∧
        credit (s.startDist lastPtr) c ≤ s'.dist j := by
    rintro c hc hearly
    obtain ⟨d, j, rfl⟩ := List.eq_nil_or_concat c |>.resolve_left hearly.1
    rw [List.concat_eq_append] at hc hearly ⊢
    have hj := hearly.2 j (by simp)
    have hju : Unfollowed body s.followed j := hc.ok j (by simp)
    exact ⟨j, by omega, hju, (hmono j (by omega) hju).credit_le (fun _ _ ↦ LastUse.lt) hc⟩
  -- the scan meets no call, finds a top, or leaves call 0, followed already
  rcases hscan.top with ⟨hlen, htop⟩ | ⟨htop, htu, hmax, hzero⟩ | ⟨hpos, htop, hf0, hneg⟩
  · subst htop
    exact .inr ⟨climb_zero, .inl (by omega)⟩
  · left
    have hclimb : Climbable body lastPtr s top s' :=
      ⟨fun j hj hju ↦ hmono j (by omega) hju, fun j _ ↦ congrFun hscan.followed j⟩
    obtain ⟨c, hc, hchain, hcredit⟩ := climb_spec hclimb htu le_rfl
    rw [hc, hcredit]
    refine ⟨hchain, (early_concat hchain).mpr (by omega), fun d hd hearly ↦ ?_, hzero⟩
    obtain ⟨j, hj, hju, hdj⟩ := hle d hd hearly
    exact hdj.trans (hmax j hj hju)
  · right
    subst htop
    refine ⟨climb_zero, .inr ⟨hf0, fun c hc hearly ↦ ?_⟩⟩
    obtain ⟨j, hj, hju, hcj⟩ := hle c hc hearly
    exact hcj.trans_lt (hneg j hj hju)

end PathState

/-! ## When the path is a longest one -/

open PathState

theorem credit_of_head_ne {start : ℕ → ℤ} {c : List ℕ} {l : ℕ} (hstart : ∀ i, i ≠ l → start i = 1)
    (hc : c.head? ≠ some l) : credit start c = c.length := by
  cases c with
  | nil => rfl
  | cons i c =>
    rw [credit, hstart i fun hi ↦ hc (by rw [hi]; rfl), List.length_cons]
    push_cast
    omega

theorem credit_of_head_eq {start : ℕ → ℤ} {c : List ℕ} {l : ℕ} (hc : c.head? = some l) :
    credit start c = c.length - 1 + start l := by
  cases c with
  | nil => cases hc
  | cons i c =>
    obtain rfl := Option.some.inj hc
    rw [credit, List.length_cons]
    push_cast
    omega

theorem startDist_self {lastPtr : ℕ} {s : PathState} :
    s.startDist lastPtr lastPtr = s.dist lastPtr := if_pos rfl

/-- A longest chain ends before the last call and does not start with the call with the greatest
address; or no chain has two calls, the first call is unfollowed, and it is the only one or has the
greatest address. -/
def Found (body : List Call) (followed : ℕ → Bool) (lastPtr : ℕ) : Prop :=
  (∃ c, EarlyLongest body followed c ∧ c.head? ≠ some lastPtr) ∨
    LongestChain body followed [0] ∧ (body.length = 1 ∨ lastPtr = 0)

variable {followed : ℕ → Bool} {dist : ℕ → ℤ}

/-- When the distance that is left over is that of the constructor, the path is a longest chain only
in these cases. -/
theorem found_of_longest
    (h : LongestChain body followed (findLp body lastPtr ⟨fun _ ↦ -1, followed⟩).1.reverse) :
    Found body followed lastPtr := by
  rcases findLp_spec body lastPtr ⟨fun _ ↦ -1, followed⟩ with
    ⟨hchain, hearly, hmax, hzero⟩ | ⟨hpath, hcase⟩
  · generalize (findLp body lastPtr ⟨fun _ ↦ -1, followed⟩).1.reverse = r at *
    by_cases hhead : r.head? = some lastPtr
    swap
    · exact .inl ⟨r, ⟨h, hearly.1, hearly.2⟩, hhead⟩
    cases r with
    | nil => exact absurd rfl hearly.1
    | cons i t =>
      obtain rfl := Option.some.inj hhead
      rw [credit_of_head_eq rfl, startDist_self] at hmax hzero
      dsimp only at hmax hzero hchain
      -- without its first call the chain would have more credit
      have ht : t = [] := by
        by_contra ht
        have htc : UnfollowedChain body followed t :=
          ⟨fun j hj ↦ hchain.ok j (List.mem_cons_of_mem i hj), hchain.chain.tail⟩
        have hte : Early body t := ⟨ht, fun j hj ↦ hearly.2 j (List.mem_cons_of_mem i hj)⟩
        have hthead : t.head? ≠ some i := by
          intro hti
          obtain ⟨j, t', rfl⟩ := List.exists_cons_of_ne_nil ht
          obtain rfl := Option.some.inj hti
          exact absurd (List.isChain_cons_cons.mp hchain.chain).1.lt (lt_irrefl _)
        have hle := hmax t htc hte
        rw [credit_of_head_ne (fun j hj ↦ startDist_of_ne hj) hthead, List.length_cons] at hle
        push_cast at hle
        omega
      subst ht
      -- and the first call of the body would have more
      have hi : i = 0 := by
        by_contra hi
        have h0 : followed 0 ≠ true := fun h0 ↦ by
          have := hzero h0
          simp at this
        have hz : UnfollowedChain body followed [0] :=
          pathOf_singleton.mpr ⟨by have := hearly.2 i (by simp); omega, by simpa using h0⟩
        have hle := hmax [0] hz ⟨by simp, by have := hearly.2 i (by simp); simp; omega⟩
        rw [credit_of_head_ne (fun j hj ↦ startDist_of_ne hj) (by simpa using Ne.symm hi)] at hle
        simp at hle
      subst hi
      exact .inr ⟨h, .inr rfl⟩
  · rw [hpath] at h
    have h0 : Unfollowed body followed 0 := h.1.ok 0 (by simp)
    rcases hcase with hlen | ⟨hf, -⟩
    · exact .inr ⟨h, .inl (by have := h0.1; omega)⟩
    · exact absurd (h0.2.symm.trans hf) Bool.false_ne_true

/-- In these cases the path is a longest chain whenever it starts elsewhere, or when a longest chain
without the last call starts with the call with the greatest address. -/
theorem longest_of_found (h : Found body followed lastPtr)
    (hstale : dist lastPtr = -1 ∨ (followed lastPtr = false → lastPtr + 1 < body.length →
      ∃ c, EarlyLongest body followed c ∧ c.head? = some lastPtr)) :
    LongestChain body followed (findLp body lastPtr ⟨dist, followed⟩).1.reverse := by
  have hstart : ∀ j, j ≠ lastPtr → (⟨dist, followed⟩ : PathState).startDist lastPtr j = 1 :=
    fun j hj ↦ startDist_of_ne hj
  rcases findLp_spec body lastPtr ⟨dist, followed⟩ with
    ⟨hchain, hearly, hmax, -⟩ | ⟨hpath, hcase⟩
  · generalize (findLp body lastPtr ⟨dist, followed⟩).1.reverse = r at *
    rcases h with ⟨c, hc, hhead⟩ | ⟨hzero, -⟩
    · have hle := hmax c hc.1.1 hc.2
      rw [credit_of_head_ne hstart hhead] at hle
      suffices hlen : c.length ≤ r.length from ⟨hchain, fun d hd ↦ (hc.1.2 d hd).trans hlen⟩
      by_cases hr : r.head? = some lastPtr
      · rw [credit_of_head_eq hr, startDist_self] at hle
        rcases hstale with hstale | hstale
        · dsimp only at hle
          omega
        · have hmem := List.mem_of_mem_head? hr
          obtain ⟨d, hd, hdhead⟩ :=
            hstale (hchain.ok lastPtr hmem).2 (hearly.2 lastPtr hmem)
          have hdle := hmax d hd.1.1 hd.2
          rw [credit_of_head_eq hr, credit_of_head_eq hdhead] at hdle
          have hcd := hd.1.2 c hc.1.1
          omega
      · rw [credit_of_head_ne hstart hr] at hle
        omega
    · refine ⟨hchain, fun d hd ↦ (hzero.2 d hd).trans ?_⟩
      exact List.length_pos_iff.mpr hearly.1
  · rw [hpath]
    rcases h with ⟨c, hc, hhead⟩ | ⟨hzero, -⟩
    · obtain ⟨i, hi⟩ := List.exists_mem_of_ne_nil c hc.2.1
      rcases hcase with hlen | ⟨-, hneg⟩
      · have := hc.2.2 i hi
        omega
      · have hlt := hneg c hc.1.1 hc.2
        rw [credit_of_head_ne hstart hhead] at hlt
        omega
    · exact hzero

/-- **When the path is a longest chain.** With the distance of the constructor for the call with the
greatest address, exactly in the cases of `Found`. Whatever distance is left over there, exactly if
moreover that call is followed, is the last one, or starts a longest chain that ends before the last
call. -/
theorem findLp_longest_iff (body : List Call) (followed : ℕ → Bool) (lastPtr : ℕ) :
    (LongestChain body followed (findLp body lastPtr ⟨fun _ ↦ -1, followed⟩).1.reverse ↔
      Found body followed lastPtr) ∧
    ((∀ dist, LongestChain body followed (findLp body lastPtr ⟨dist, followed⟩).1.reverse) ↔
      Found body followed lastPtr ∧ (followed lastPtr = false → lastPtr + 1 < body.length →
        ∃ c, EarlyLongest body followed c ∧ c.head? = some lastPtr)) := by
  refine ⟨⟨found_of_longest, fun h ↦ longest_of_found h (.inl rfl)⟩, fun h ↦ ?_,
    fun h dist ↦ longest_of_found h.1 (.inr h.2)⟩
  refine ⟨found_of_longest (h _), fun hf hlast ↦ ?_⟩
  -- a distance greater than the length of any chain
  have hfresh := h fun _ ↦ -1
  have hlong := h fun _ ↦
    ((findLp body lastPtr ⟨fun _ ↦ -1, followed⟩).1.reverse.length : ℤ) + 1
  generalize (findLp body lastPtr ⟨fun _ ↦ -1, followed⟩).1.reverse = d at hfresh hlong
  have halone : UnfollowedChain body followed [lastPtr] :=
    pathOf_singleton.mpr ⟨by omega, hf⟩
  have hearly : Early body [lastPtr] := ⟨by simp, by simpa using hlast⟩
  rcases findLp_spec body lastPtr ⟨fun _ ↦ (d.length : ℤ) + 1, followed⟩ with
    ⟨hchain, hearly', hmax, -⟩ | ⟨-, hlen | ⟨-, hneg⟩⟩
  · generalize (findLp body lastPtr ⟨fun _ ↦ (d.length : ℤ) + 1, followed⟩).1.reverse = r at *
    refine ⟨r, ⟨hlong, hearly'⟩, ?_⟩
    by_contra hr
    have hle := hmax [lastPtr] halone hearly
    rw [credit_of_head_ne (fun j hj ↦ startDist_of_ne hj) hr, credit_of_head_eq rfl,
      startDist_self] at hle
    have hrd := hfresh.2 r hchain
    simp only [List.length_singleton] at hle
    omega
  · omega
  · have hlt := hneg [lastPtr] halone hearly
    rw [credit_of_head_eq rfl, startDist_self] at hlt
    simp only [List.length_singleton] at hlt
    omega

/-- The chain of two gates on a qubit ends with the last call. -/
theorem not_longest_twoGates :
    ¬ ∀ (body : List Call) (followed : ℕ → Bool) (lastPtr : ℕ), lastPtr < body.length →
      LongestChain body followed (findLp body lastPtr ⟨fun _ ↦ -1, followed⟩).1.reverse := by
  intro h
  have hpath : (findLp [gateOn "llvm.H.i16" [0], gateOn "llvm.T.i16" [0]] 1
      ⟨fun _ ↦ -1, fun _ ↦ false⟩).1 = [0] := by
    decide +kernel
  have hlongest := h [gateOn "llvm.H.i16" [0], gateOn "llvm.T.i16" [0]] (fun _ ↦ false) 1 (by simp)
  rw [hpath] at hlongest
  have hedge : LastUse [gateOn "llvm.H.i16" [0], gateOn "llvm.T.i16" [0]] 0 1 :=
    mem_inEdges.mp (by decide +kernel)
  have hle := hlongest.2 [0, 1] ⟨by simp [Unfollowed], by simpa using hedge⟩
  simp at hle

end ScaffCC.Lpfs
