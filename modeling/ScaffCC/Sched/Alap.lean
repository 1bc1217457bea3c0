import Mathlib.Data.Finset.Card
import ScaffCC.Sched.Asap

/-!
# Times at which operations must start

`alap` starts with the operations that nothing depends on, which end with the schedule. When all
children of an operation have their times, its own one follows, and it is put into a queue for the
next round of `alap_recurse`. Each round takes the least time that the children leave.

The least of two numbers is found by `min`, a subroutine of the package that the script does not
define: `List::Util` is imported into another package. A call is the end of the script. Here it is a
parameter whether there is such a subroutine.
-/

open Scheduling

namespace ScaffCC.Sched

/-! ## The source -/

/-- The fields that the pass sets. -/
structure AlapState where
  ts : ℕ → ℤ
  sched : ℕ → Bool
  slack : ℕ → ℤ
  row : ℤ → List ℕ
  threads : ℕ
  op_cnt : ℕ

/-- The fields at the start. -/
def AlapState.init : AlapState := ⟨fun _ ↦ -1, fun _ ↦ false, fun _ ↦ 0, fun _ ↦ [], 0, 0⟩

variable (ops : List Op) (given : ℕ → ℕ) (A : AsapState)

/-- An operation gets its time. -/
def AlapState.place (s : AlapState) (op : ℕ) (t : ℤ) : AlapState where
  ts := Function.update s.ts op t
  sched := Function.update s.sched op true
  slack := Function.update s.slack op (t - A.ts op)
  row := Function.update s.row t (s.row t ++ [op])
  threads := max s.threads (s.row t ++ [op]).length
  op_cnt := s.op_cnt + 1

/-- A parent is put into the queue if all its children have their times. -/
def queueParent (r : AlapState × List ℕ) (pre : ℕ) : AlapState × List ℕ :=
  if (out_edges ops pre).all r.1.sched then
    ({ r.1 with ts := Function.update r.1.ts pre A.length },
      if pre ∈ r.2 then r.2 else r.2 ++ [pre])
  else r

/-- The round of `alap` for an operation at the bottom. -/
def placeBottom (r : AlapState × List ℕ) (op : ℕ) : AlapState × List ℕ :=
  (in_edges ops op).foldl (queueParent ops A) (r.1.place A op (A.length - opLength given op), r.2)

/-- The times when the one of an operation is lowered to what its children leave. -/
def lowered (min : Option (ℤ → ℤ → ℤ)) (op : ℕ) (ts : ℕ → ℤ) : Option (ℕ → ℤ) :=
  (out_edges ops op).foldlM (fun ts dep ↦ min.map fun min ↦
    Function.update ts op (min (ts op) (ts dep - opLength given op))) ts

/-- The round of `alap_recurse` for an operation of the queue. -/
def placeQueued (min : Option (ℤ → ℤ → ℤ)) (r : AlapState × List ℕ) (op : ℕ) :
    Option (AlapState × List ℕ) :=
  (lowered ops given min op r.1.ts).map fun ts ↦
    (in_edges ops op).foldl (queueParent ops A) (r.1.place A op (ts op), r.2)

/-- `alap_recurse`, for at most a number of rounds. -/
def alap_recurse (min : Option (ℤ → ℤ → ℤ)) : ℕ → AlapState → List ℕ → Option AlapState
  | _, s, [] => some s
  | 0, _, _ :: _ => none
  | n + 1, s, op :: queue =>
    ((op :: queue).foldlM (placeQueued ops given A min) (s, [])).bind fun r ↦
      alap_recurse min n r.1 r.2

/-- `alap` with the operations at the bottom in the order of `keys`. -/
def alap (min : Option (ℤ → ℤ → ℤ)) (keys : List ℕ) : Option AlapState :=
  let A := addOps ops given ops.length
  let r := keys.foldl (placeBottom ops given A) (.init, [])
  alap_recurse ops given A min ops.length r.1 r.2

/-! ## What should be found -/

/-- The longest chain of an operation and later ones leaves it this much time. -/
def AlapRight (i : ℕ) (t : ℤ) : Prop :=
  IsGreatest {x : ℤ | ∃ c, (i :: c).IsChain (Shares ops) ∧ x = chainLength given (i :: c)}
    ((addOps ops given ops.length).length - t)

/-- Both passes give all operations the times that the chains of operations on the same qubits
determine. -/
structure LevelsRight (min : Option (ℤ → ℤ → ℤ)) (keys : List ℕ) : Prop where
  asap : ∀ i < ops.length, AsapRight ops given i ((addOps ops given ops.length).ts i)
  length : LengthRight ops given (addOps ops given ops.length).length
  alap : ∃ s, alap ops given min keys = some s ∧ ∀ i < ops.length, AlapRight ops given i (s.ts i)

variable {ops given A} {i j n : ℕ} {s : AlapState} {queue next keys : List ℕ}

@[simp] theorem alap_recurse_nil (min : Option (ℤ → ℤ → ℤ)) (n : ℕ) (s : AlapState) :
    alap_recurse ops given A min n s [] = some s := by
  cases n <;> rfl

/-! ## The queue -/

/-- All children have their times. -/
def AlapState.Full (ops : List Op) (s : AlapState) (i : ℕ) : Prop :=
  ∀ j ∈ out_edges ops i, s.sched j

instance (s : AlapState) (i : ℕ) : Decidable (s.Full ops i) :=
  inferInstanceAs (Decidable (∀ j ∈ out_edges ops i, s.sched j))

theorem foldl_queueParent (ops : List Op) (A : AsapState) (l : List ℕ) (s : AlapState)
    (next : List ℕ) :
    ∃ next', l.foldl (queueParent ops A) (s, next)
        = ({ s with ts := fun p ↦ if p ∈ l ∧ s.Full ops p then A.length else s.ts p }, next') ∧
      (next.Nodup → next'.Nodup) ∧ ∀ p, p ∈ next' ↔ p ∈ next ∨ (p ∈ l ∧ s.Full ops p) := by
  induction l generalizing s next with
  | nil => exact ⟨next, by simp, id, fun p ↦ by simp⟩
  | cons pre l ih =>
    rw [List.foldl_cons]
    by_cases hfull : s.Full ops pre
    · -- all children are placed: the parent is queued, once
      have hall : (out_edges ops pre).all s.sched := List.all_eq_true.mpr hfull
      obtain ⟨next', heq, hnodup, hmem⟩ := ih { s with ts := Function.update s.ts pre A.length }
        (if pre ∈ next then next else next ++ [pre])
      have hsame : ∀ p, AlapState.Full ops
          { s with ts := Function.update s.ts pre A.length } p ↔ s.Full ops p := fun p ↦ Iff.rfl
      refine ⟨next', ?_, fun h ↦ hnodup ?_, fun p ↦ ?_⟩
      · rw [queueParent, if_pos hall, heq]
        congr 2
        funext p
        by_cases hp : p = pre
        · subst hp
          simp [hfull]
        · simp [hp, hsame]
      · split_ifs with hpre
        · exact h
        · exact List.nodup_append.mpr ⟨h, List.nodup_singleton pre, fun i hi j hj ↦ by
            rintro rfl
            exact hpre (List.mem_singleton.mp hj ▸ hi)⟩
      · rw [hmem, hsame]
        by_cases hp : p = pre
        · subst hp
          by_cases hin : p ∈ next <;> simp [hin, hfull]
        · by_cases hin : pre ∈ next <;> simp [hin, hp]
    · have hall : ¬ (out_edges ops pre).all s.sched := fun h ↦ hfull (List.all_eq_true.mp h)
      obtain ⟨next', heq, hnodup, hmem⟩ := ih s next
      refine ⟨next', ?_, hnodup, fun p ↦ ?_⟩
      · rw [queueParent, if_neg hall, heq]
        congr 2
        funext p
        by_cases hp : p = pre
        · subst hp
          simp [hfull]
        · simp [hp]
      · rw [hmem]
        by_cases hp : p = pre
        · subst hp
          simp [hfull]
        · simp [hp]

/-! ## Operations are placed -/

/-- What is known while the operations of a queue are placed and others come into the next one. -/
structure Placing (ops : List Op) (given : ℕ → ℕ) (A : AsapState) (queue next : List ℕ)
    (s : AlapState) : Prop where
  nodup : (queue ++ next).Nodup
  lt : ∀ i, s.sched i ∨ i ∈ queue ++ next → i < ops.length
  waiting : ∀ i ∈ queue ++ next, ¬ s.sched i
  full : ∀ i, s.sched i ∨ i ∈ queue ++ next → s.Full ops i
  complete : ∀ i < ops.length, s.Full ops i → s.sched i ∨ i ∈ queue ++ next
  latest : ∀ i, s.sched i → IsLeast (insert (A.length - opLength given i)
    {x | ∃ j ∈ out_edges ops i, x = s.ts j - opLength given i}) (s.ts i)
  start : ∀ i ∈ next, s.ts i = A.length ∧ out_edges ops i ≠ []
  unset : ∀ i, ¬ s.sched i → i ∉ queue ++ next → s.ts i = -1
  op_cnt : s.op_cnt = ((Finset.range ops.length).filter fun i ↦ s.sched i).card

/-- A child of an operation in the queue has its time. -/
theorem Placing.not_mem_out_edges (h : Placing ops given A queue next s)
    (hi : i ∈ queue ++ next) : i ∉ out_edges ops i :=
  fun hself ↦ h.waiting i hi (h.full i (.inr hi) i hself)

/-- **The step.** An operation of the queue is placed, and those of its parents whose children all
have their times now come into the next queue. -/
theorem Placing.place {t : ℤ} (h : Placing ops given A (i :: queue) next s)
    (ht : IsLeast (insert (A.length - opLength given i)
      {x | ∃ j ∈ out_edges ops i, x = s.ts j - opLength given i}) t) :
    ∃ s' next', (in_edges ops i).foldl (queueParent ops A) (s.place A i t, next) = (s', next') ∧
      Placing ops given A queue next' s' ∧ (∀ j ∈ queue, s'.ts j = s.ts j) ∧
      (∀ j, s'.sched j ↔ j = i ∨ s.sched j) ∧ s'.op_cnt = s.op_cnt + 1 := by
  obtain ⟨next', heq, hnodup, hmem⟩ := foldl_queueParent ops A (in_edges ops i) (s.place A i t) next
  refine ⟨_, next', heq, ?_⟩
  set s' : AlapState := { s.place A i t with
    ts := fun p ↦ if p ∈ in_edges ops i ∧ (s.place A i t).Full ops p then A.length
      else (s.place A i t).ts p } with hs'
  have hi : i ∈ (i :: queue) ++ next := List.mem_cons_self
  have hnotsched : ¬ s.sched i := h.waiting i hi
  have hsub : ∀ j ∈ queue ++ next, j ∈ (i :: queue) ++ next := fun j hj ↦ List.mem_cons_of_mem _ hj
  obtain ⟨hinot, hnodup_rest⟩ := List.nodup_cons.mp (List.cons_append ▸ h.nodup)
  have hsched : ∀ j, s'.sched j ↔ j = i ∨ s.sched j := by
    intro j
    change Function.update s.sched i true j ↔ _
    by_cases hj : j = i
    · simp [hj]
    · simp [hj]
  have hmono : ∀ j, s.Full ops j → s'.Full ops j :=
    fun j hj k hk ↦ (hsched k).mpr (.inr (hj k hk))
  -- a parent that comes into the queue was neither placed nor in a queue before
  have hnew : ∀ p ∈ in_edges ops i, ¬ s.Full ops p := fun p hp hfull ↦
    hnotsched (hfull i (mem_out_edges.mpr ⟨h.lt i (.inr hi), hp⟩))
  -- so no time that was already known is set again
  have hts : ∀ j, s.Full ops j → j ≠ i → s'.ts j = s.ts j := by
    intro j hfull hj
    change (if _ then _ else Function.update s.ts i t j) = _
    rw [if_neg fun hp ↦ hnew j hp.1 hfull, Function.update_of_ne hj]
  have htsi : s'.ts i = t := by
    change (if _ then _ else Function.update s.ts i t i) = _
    rw [if_neg fun hp ↦ hnew i hp.1 (h.full i (.inr hi)), Function.update_self]
  have hkeep : ∀ j, s.sched j → s'.ts j = s.ts j := fun j hj ↦
    hts j (h.full j (.inl hj)) fun hji ↦ hnotsched (hji ▸ hj)
  -- the children of a node whose children are all placed keep their times
  have hset : ∀ j, s.Full ops j → {x | ∃ k ∈ out_edges ops j, x = s'.ts k - opLength given j}
      = {x | ∃ k ∈ out_edges ops j, x = s.ts k - opLength given j} := by
    intro j hj
    ext x
    refine exists_congr fun k ↦ and_congr_right fun hk ↦ ?_
    rw [hkeep k (hj k hk)]
  refine ⟨⟨?_, ?_, ?_, ?_, ?_, ?_, ?_, ?_, ?_⟩, fun j hj ↦ ?_, hsched, rfl⟩
  · obtain ⟨hqueue, hnext, hdisj⟩ := List.nodup_append.mp hnodup_rest
    refine List.nodup_append.mpr ⟨hqueue, hnodup hnext, fun j hj k hk ↦ ?_⟩
    rcases (hmem k).mp hk with hk | ⟨hk, -⟩
    · exact hdisj j hj k hk
    · rintro rfl
      exact hnew j hk (h.full j (.inr (hsub j (List.mem_append_left _ hj))))
  · -- a node that is placed or queued has an index of the list
    rintro j (hj | hj)
    · rcases (hsched j).mp hj with rfl | hj
      · exact h.lt j (.inr hi)
      · exact h.lt j (.inl hj)
    · rcases List.mem_append.mp hj with hj | hj
      · exact h.lt j (.inr (hsub j (List.mem_append_left _ hj)))
      · rcases (hmem j).mp hj with hj | ⟨hj, -⟩
        · exact h.lt j (.inr (hsub j (List.mem_append_right _ hj)))
        · exact (le_of_mem_add_qubits hj).trans_lt (h.lt i (.inr hi))
  · -- a node that waits is not placed: else its child would be full before its turn
    intro j hj hsj
    have hold : j ∈ queue ++ next → False := fun hj ↦ by
      rcases (hsched j).mp hsj with rfl | hsj
      · exact hinot hj
      · exact h.waiting j (hsub j hj) hsj
    rcases List.mem_append.mp hj with hj | hj
    · exact hold (List.mem_append_left _ hj)
    · rcases (hmem j).mp hj with hj | ⟨hj, -⟩
      · exact hold (List.mem_append_right _ hj)
      · rcases (hsched j).mp hsj with rfl | hsj
        · exact hnew j hj (h.full j (.inr hi))
        · exact hnew j hj (h.full j (.inl hsj))
  · rintro j (hj | hj)
    · rcases (hsched j).mp hj with rfl | hj
      · exact hmono j (h.full j (.inr hi))
      · exact hmono j (h.full j (.inl hj))
    · rcases List.mem_append.mp hj with hj | hj
      · exact hmono j (h.full j (.inr (hsub j (List.mem_append_left _ hj))))
      · rcases (hmem j).mp hj with hj | ⟨-, hfull⟩
        · exact hmono j (h.full j (.inr (hsub j (List.mem_append_right _ hj))))
        · exact hfull
  · intro j hj hfull
    by_cases hold : s.Full ops j
    · rcases h.complete j hj hold with hsj | hj
      · exact .inl ((hsched j).mpr (.inr hsj))
      · rcases List.mem_cons.mp (List.cons_append ▸ hj) with rfl | hj
        · exact .inl ((hsched j).mpr (.inl rfl))
        · rcases List.mem_append.mp hj with hj | hj
          · exact .inr (List.mem_append_left _ hj)
          · exact .inr (List.mem_append_right _ ((hmem j).mpr (.inl hj)))
    · -- the child that had no time is the one that is placed
      rw [AlapState.Full] at hold
      push Not at hold
      obtain ⟨k, hk, hnot⟩ := hold
      obtain rfl : k = i := ((hsched k).mp (hfull k hk)).resolve_right hnot
      exact .inr (List.mem_append_right _
        ((hmem j).mpr (.inr ⟨(mem_out_edges.mp hk).2, hfull⟩)))
  · intro j hj
    rcases (hsched j).mp hj with rfl | hj
    · rw [hset j (h.full j (.inr hi)), htsi]
      exact ht
    · rw [hset j (h.full j (.inl hj)), hkeep j hj]
      exact h.latest j hj
  · intro j hj
    rcases (hmem j).mp hj with hj | hj
    · have hin : j ∈ queue ++ next := List.mem_append_right _ hj
      rw [hts j (h.full j (.inr (hsub j hin))) fun heq ↦ hinot (heq ▸ hin)]
      exact h.start j hj
    · exact ⟨if_pos hj, List.ne_nil_of_mem (mem_out_edges.mpr ⟨h.lt i (.inr hi), hj.1⟩)⟩
  · intro j hsj hj
    obtain ⟨hji, hnot⟩ := not_or.mp ((hsched j).not.mp hsj)
    obtain ⟨hjqueue, hjnext⟩ := not_or.mp (List.mem_append.not.mp hj)
    obtain ⟨hjnext, hjnew⟩ := not_or.mp ((hmem j).not.mp hjnext)
    change (if _ then _ else Function.update s.ts i t j) = _
    rw [if_neg hjnew, Function.update_of_ne hji]
    exact h.unset j hnot (by simp [hji, hjqueue, hjnext])
  · -- one more node is placed, so the counter goes up by one
    have hfilter : ((Finset.range ops.length).filter fun j ↦ s'.sched j)
        = insert i ((Finset.range ops.length).filter fun j ↦ s.sched j) := by
      ext j
      simp only [Finset.mem_filter, Finset.mem_range, Finset.mem_insert, hsched]
      constructor
      · rintro ⟨hj, rfl | hsj⟩
        · exact .inl rfl
        · exact .inr ⟨hj, hsj⟩
      · rintro (rfl | ⟨hj, hsj⟩)
        · exact ⟨h.lt j (.inr hi), .inl rfl⟩
        · exact ⟨hj, .inr hsj⟩
    rw [hfilter, Finset.card_insert_of_notMem (by simp [hnotsched]), ← h.op_cnt]
    rfl
  · have hin : j ∈ queue ++ next := List.mem_append_left _ hj
    exact hts j (h.full j (.inr (hsub j hin))) fun heq ↦ hinot (heq ▸ hin)

/-! ## The rounds -/

/-- The round of `alap`: the operations of the queue have no children. -/
theorem Placing.foldl_placeBottom (h : Placing ops given A queue next s)
    (hqueue : ∀ i ∈ queue, out_edges ops i = []) :
    ∃ s' next', queue.foldl (placeBottom ops given A) (s, next) = (s', next') ∧
      Placing ops given A [] next' s' ∧ ∀ i, s'.sched i → i ∈ queue ∨ s.sched i := by
  induction queue generalizing s next with
  | nil => exact ⟨s, next, rfl, h, fun _ ↦ .inr⟩
  | cons i queue ih =>
    obtain ⟨hi, hqueue⟩ := List.forall_mem_cons.mp hqueue
    have ht : IsLeast (insert (A.length - opLength given i)
        {x | ∃ j ∈ out_edges ops i, x = s.ts j - opLength given i})
        (A.length - opLength given i) := by
      rw [hi]
      exact ⟨.inl rfl, by simp [lowerBounds]⟩
    obtain ⟨s', next', heq, hplaced, -, hsched, -⟩ := h.place ht
    obtain ⟨s'', next'', hrun, hrest, hsched'⟩ := ih hplaced hqueue
    refine ⟨s'', next'', by rw [List.foldl_cons, placeBottom, heq, hrun], hrest, fun j hj ↦ ?_⟩
    rcases hsched' j hj with hj | hj
    · exact .inl (List.mem_cons_of_mem _ hj)
    · rcases (hsched j).mp hj with rfl | hj
      · exact .inl List.mem_cons_self
      · exact .inr hj

/-- The times that the children leave are compared one after the other. -/
theorem lowered_some {l : List ℕ} (hi : i ∉ l) (ts : ℕ → ℤ) :
    l.foldlM (fun ts dep ↦ (some min).map fun min ↦
        Function.update ts i (min (ts i) (ts dep - opLength given i))) ts
      = some (Function.update ts i
        (l.foldl (fun m dep ↦ min m (ts dep - opLength given i)) (ts i))) := by
  induction l generalizing ts with
  | nil => simp
  | cons dep l ih =>
    obtain ⟨hne, hi⟩ := not_or.mp (List.mem_cons.not.mp hi)
    rw [List.foldlM_cons, Option.map_some, Option.bind_eq_bind, Option.bind_some, ih hi,
      Function.update_idem, List.foldl_cons, Function.update_self]
    congr 2
    refine List.foldl_ext _ _ _ fun m k hk ↦ ?_
    rw [Function.update_of_ne]
    rintro rfl
    exact hi hk

theorem Placing.isLeast (h : Placing ops given A queue next s) (hi : i ∈ queue ++ next)
    (hchild : out_edges ops i ≠ []) (hstart : s.ts i = A.length) :
    IsLeast (insert (A.length - opLength given i)
        {x | ∃ j ∈ out_edges ops i, x = s.ts j - opLength given i})
      ((out_edges ops i).foldl (fun m dep ↦ min m (s.ts dep - opLength given i)) (s.ts i)) := by
  obtain ⟨hmem, hle⟩ := isLeast_foldl_min (fun dep ↦ s.ts dep - (opLength given i : ℤ))
    (out_edges ops i) (s.ts i)
  obtain ⟨k, hk⟩ := List.exists_mem_of_ne_nil _ hchild
  have hbound := hle (.inr ⟨k, hk, rfl⟩)
  have hchildle := (h.latest k (h.full i (.inr hi) k hk)).2 (.inl rfl)
  have hpos := opLength_pos given k
  refine ⟨?_, ?_⟩
  · rcases hmem with heq | hmem
    · have hpos := opLength_pos given i
      omega
    · exact .inr hmem
  · rintro x (rfl | hx)
    · omega
    · exact hle (.inr hx)

/-- The round of `alap_recurse`: the operations of the queue have children. -/
theorem Placing.foldlM_placeQueued (h : Placing ops given A queue next s)
    (hqueue : ∀ i ∈ queue, s.ts i = A.length ∧ out_edges ops i ≠ []) :
    ∃ s' next', queue.foldlM (placeQueued ops given A (some min)) (s, next) = some (s', next') ∧
      Placing ops given A [] next' s' ∧ s'.op_cnt = s.op_cnt + queue.length := by
  induction queue generalizing s next with
  | nil => exact ⟨s, next, rfl, h, rfl⟩
  | cons i queue ih =>
    obtain ⟨⟨hstart, hchild⟩, hqueue⟩ := List.forall_mem_cons.mp hqueue
    have hi : i ∈ (i :: queue) ++ next := List.mem_cons_self
    obtain ⟨s', next', heq, hplaced, hkeep, -, hcnt⟩ := h.place (h.isLeast hi hchild hstart)
    obtain ⟨s'', next'', hrun, hrest, hcnt'⟩ := ih hplaced fun j hj ↦ by
      rw [hkeep j hj]
      exact hqueue j hj
    refine ⟨s'', next'', ?_, hrest, ?_⟩
    · rw [List.foldlM_cons, placeQueued, lowered, lowered_some (h.not_mem_out_edges hi),
        Option.map_some, Function.update_self, heq]
      exact hrun
    · rw [hcnt', hcnt, List.length_cons]
      omega

theorem Placing.turn (h : Placing ops given A [] queue s) : Placing ops given A queue [] s where
  nodup := by simpa using h.nodup
  lt := by simpa using h.lt
  waiting := by simpa using h.waiting
  full := by simpa using h.full
  complete := by simpa using h.complete
  latest := h.latest
  start := List.forall_mem_nil _
  unset := by simpa using h.unset
  op_cnt := h.op_cnt

theorem Placing.op_cnt_le (h : Placing ops given A queue next s) : s.op_cnt ≤ ops.length := by
  rw [h.op_cnt]
  exact (Finset.card_filter_le _ _).trans (Finset.card_range _).le

/-- As many rounds as there are operations without a time are enough. -/
theorem Placing.alap_recurse (h : Placing ops given A [] queue s)
    (hn : ops.length ≤ s.op_cnt + n) :
    ∃ s', alap_recurse ops given A (some min) n s queue = some s' ∧
      Placing ops given A [] [] s' := by
  induction n generalizing s queue with
  | zero =>
    cases queue with
    | nil => exact ⟨s, rfl, h⟩
    | cons i queue =>
      obtain ⟨s', next', -, hplaced, hcnt⟩ := h.turn.foldlM_placeQueued h.start
      have hle := hplaced.op_cnt_le
      rw [List.length_cons] at hcnt
      omega
  | succ n ih =>
    cases queue with
    | nil => exact ⟨s, rfl, h⟩
    | cons i queue =>
      obtain ⟨s', next', hround, hplaced, hcnt⟩ := h.turn.foldlM_placeQueued h.start
      rw [List.length_cons] at hcnt
      have hrest : ops.length ≤ s'.op_cnt + n := by omega
      rw [Sched.alap_recurse, hround]
      exact ih hplaced hrest

/-! ## The start and the end -/

theorem out_edges_eq_nil : out_edges ops i = [] ↔ ∀ j < ops.length, i ∉ in_edges ops j := by
  simp only [List.eq_nil_iff_forall_not_mem, mem_out_edges, Parent, not_and]

theorem placing_init (A : AsapState)
    (hkeys : keys.Perm (addOps ops given ops.length).bottom) :
    Placing ops given A keys [] .init := by
  have hmem : ∀ i, i ∈ keys ↔ i < ops.length ∧ out_edges ops i = [] := fun i ↦ by
    rw [hkeys.mem_iff, mem_bottom_addOps, out_edges_eq_nil]
  have hsched : ∀ i, ¬ AlapState.init.sched i := fun _ ↦ Bool.false_ne_true
  refine ⟨?_, ?_, fun i _ ↦ hsched i, ?_, fun i hi hfull ↦ ?_, fun i hi ↦ absurd hi (hsched i),
    List.forall_mem_nil _, fun _ _ _ ↦ rfl, by simp [AlapState.init]⟩
  · rw [List.append_nil, hkeys.nodup_iff]
    exact nodup_bottom_addOps ops given ops.length
  · rintro i (hi | hi)
    · exact absurd hi (hsched i)
    · exact ((hmem i).mp (List.append_nil keys ▸ hi)).1
  · rintro i (hi | hi) j hj
    · exact absurd hi (hsched i)
    · rw [((hmem i).mp (List.append_nil keys ▸ hi)).2] at hj
      exact absurd hj List.not_mem_nil
  · refine .inr (List.mem_append_left _ ((hmem i).mpr ⟨hi, ?_⟩))
    exact List.eq_nil_iff_forall_not_mem.mpr fun j hj ↦ hsched j (hfull j hj)

theorem exists_placing (hkeys : keys.Perm (addOps ops given ops.length).bottom) :
    ∃ s queue, keys.foldl (placeBottom ops given (addOps ops given ops.length)) (.init, [])
        = (s, queue) ∧ Placing ops given (addOps ops given ops.length) [] queue s ∧
      ∀ i, s.sched i → out_edges ops i = [] := by
  have hbottom : ∀ i ∈ keys, out_edges ops i = [] := fun i hi ↦
    out_edges_eq_nil.mpr ((mem_bottom_addOps ..).mp (hkeys.mem_iff.mp hi)).2
  obtain ⟨s, queue, heq, hplacing, hsched⟩ :=
    (placing_init (addOps ops given ops.length) hkeys).foldl_placeBottom hbottom
  refine ⟨s, queue, heq, hplacing, fun i hi ↦ hbottom i ((hsched i hi).resolve_right ?_)⟩
  exact Bool.false_ne_true

theorem Placing.sched (h : Placing ops given A [] [] s) (hd : DistinctArgs ops)
    (hi : i < ops.length) : s.sched i := by
  induction hk : ops.length - i using Nat.strong_induction_on generalizing i with
  | _ k ih =>
    refine (h.complete i hi fun j hj ↦ ?_).resolve_right List.not_mem_nil
    have hparent := mem_out_edges.mp hj
    have hlt := hparent.lt hd
    exact ih (ops.length - j) (by have := hparent.1; omega) hparent.1 rfl

/-! ## The times -/

theorem DistinctArgs.longest_reverse {w L : ℕ → ℕ} (h : DistinctArgs ops)
    (hL : (parentDag ops h).reverse.Longest w L) : (shareDag ops).reverse.Longest w L := by
  refine hL.of_transGen (fun a b hab ↦ ?_) fun a b hab ↦ ?_
  · exact decide_eq_true (h.shares (of_decide_eq_true hab))
  · refine Relation.TransGen.mono (fun a b hparent ↦ decide_eq_true hparent) _ _
      (Relation.transGen_swap.mpr (h.transGen_of_shares (of_decide_eq_true hab)))

/-- What is left of the schedule when an operation starts is the greatest length of a chain that
starts with it. -/
theorem Placing.longest (h : Placing ops given A [] [] s) (hd : DistinctArgs ops) :
    (parentDag ops hd).reverse.Longest (opLength given)
      fun i ↦ if i < ops.length then (A.length - s.ts i).toNat else opLength given i := by
  have hlatest : ∀ i < ops.length, _ := fun i hi ↦ h.latest i (h.sched hd hi)
  have hedge : ∀ {i j}, (parentDag ops hd).reverse.edge j i → Parent ops i j :=
    fun hij ↦ of_decide_eq_true hij
  refine ⟨fun i hi ↦ ?_, fun j i hji ↦ ?_, fun j i hji ↦ ?_⟩
  · split_ifs with hlt
    · rcases (hlatest i hlt).1 with heq | ⟨j, hj, -⟩
      · omega
      · exact absurd (decide_eq_true (mem_out_edges.mp hj)) (hi j)
    · rfl
  · have hparent := hedge hji
    have hi := (hparent.lt hd).trans hparent.1
    have hle := (hlatest i hi).2 (.inr ⟨j, mem_out_edges.mpr hparent, rfl⟩)
    have hlej := (hlatest j hparent.1).2 (.inl rfl)
    rw [if_pos hi, if_pos hparent.1]
    omega
  · have hparent := hedge hji
    have hi := (hparent.lt hd).trans hparent.1
    have hle := (hlatest i hi).2 (.inr ⟨j, mem_out_edges.mpr hparent, rfl⟩)
    have hlej := (hlatest j hparent.1).2 (.inl rfl)
    have hpos := opLength_pos given j
    rcases (hlatest i hi).1 with heq | ⟨k, hk, heq⟩
    · omega
    · have hchild := mem_out_edges.mp hk
      have hlek := (hlatest k hchild.1).2 (.inl rfl)
      refine ⟨k, decide_eq_true hchild, ?_⟩
      rw [if_pos hi, if_pos hchild.1]
      omega

theorem isChain_shareDag_reverse {c : List ℕ} :
    (c ++ [i]).IsChain (fun a b ↦ (shareDag ops).reverse.edge a b = true) ↔
      (i :: c.reverse).IsChain (Shares ops) := by
  rw [← isChain_shareDag, ← List.isChain_reverse, List.reverse_append, List.reverse_singleton,
    List.singleton_append]
  rfl

/-- **The latest times** are right if the script comes to the end of the pass. -/
theorem Placing.alapRight (h : Placing ops given (addOps ops given ops.length) [] [] s)
    (hd : DistinctArgs ops) (hi : i < ops.length) : AlapRight ops given i (s.ts i) := by
  have hlatest := (h.latest i (h.sched hd hi)).2 (.inl rfl)
  have hsum : ∀ c : List ℕ, ((c ++ [i]).map (opLength given)).sum
      = chainLength given (i :: c.reverse) := by
    intro c
    rw [chainLength, List.map_cons, List.sum_cons, List.map_reverse, List.sum_reverse]
    simp [add_comm]
  have hgreatest := (hd.longest_reverse (h.longest hd)).isGreatest hi
  rw [if_pos hi] at hgreatest
  obtain ⟨⟨c, hc, heq⟩, hle⟩ := hgreatest
  refine ⟨⟨c.reverse, isChain_shareDag_reverse.mp hc, ?_⟩, ?_⟩
  · rw [hsum] at heq
    omega
  · rintro _ ⟨c, hc, rfl⟩
    have hle := hle ⟨c.reverse, isChain_shareDag_reverse.mpr (by rwa [List.reverse_reverse]), rfl⟩
    rw [hsum, List.reverse_reverse] at hle
    omega

/-- **Both passes** are right if the package has the subroutine and no operation names a qubit
twice. -/
theorem DistinctArgs.levelsRight (hd : DistinctArgs ops) (given : ℕ → ℕ)
    (hkeys : keys.Perm (addOps ops given ops.length).bottom) :
    LevelsRight ops given (some min) keys := by
  obtain ⟨s, queue, hround, hplacing, -⟩ := exists_placing hkeys
  obtain ⟨s', hs, hplaced⟩ := hplacing.alap_recurse (Nat.le_add_left ..)
  refine ⟨fun i hi ↦ hd.asapRight hi, hd.lengthRight, s', ?_, fun i hi ↦ hplaced.alapRight hd hi⟩
  rw [alap, hround]
  exact hs

/-! ## Without the subroutine -/

/-- The first operation of the queue is the end of the script. -/
theorem Placing.alap_recurse_none (h : Placing ops given A [] (i :: queue) s) (n : ℕ) :
    Sched.alap_recurse ops given A none n s (i :: queue) = none := by
  cases n with
  | zero => rfl
  | succ n =>
    have hchild := (h.start i List.mem_cons_self).2
    obtain ⟨dep, rest, hrest⟩ := List.exists_cons_of_ne_nil hchild
    rw [Sched.alap_recurse, List.foldlM_cons, placeQueued, lowered, hrest]
    rfl

/-- Operations depend on others if and only if some qubit is named twice. -/
theorem nodup_flatMap_args_iff : (ops.flatMap Op.args).Nodup ↔ ∀ a b, ¬ Parent ops a b := by
  rw [List.nodup_flatMap, List.pairwise_iff_getElem]
  constructor
  · rintro ⟨hd, hdisj⟩ a b hab
    have hdistinct : DistinctArgs ops := hd
    obtain ⟨hlt, hb, q, hqa, hqb⟩ := hdistinct.shares hab
    have ha := hlt.trans hb
    rw [opAt, List.getD_eq_getElem _ _ ha] at hqa
    rw [opAt, List.getD_eq_getElem _ _ hb] at hqb
    exact hdisj a b ha hb hlt hqa hqb
  · intro hnone
    have hd : DistinctArgs ops := by
      by_contra hdup
      obtain ⟨i, hi⟩ := exists_parent_self hdup
      exact hnone i i hi
    refine ⟨hd, fun a b ha hb hlt q hqa hqb ↦ ?_⟩
    have hshares : Shares ops a b := by
      refine ⟨hlt, hb, q, ?_, ?_⟩
      · rwa [opAt, List.getD_eq_getElem _ _ ha]
      · rwa [opAt, List.getD_eq_getElem _ _ hb]
    obtain ⟨c, -, hc⟩ := Relation.TransGen.tail'_iff.mp (hd.transGen_of_shares hshares)
    exact hnone c b hc

/-- **The levels.** Without the subroutine they are right if and only if no qubit is named twice, so
that no operation depends on another one. -/
theorem levelsRight_iff (given : ℕ → ℕ)
    (hkeys : keys.Perm (addOps ops given ops.length).bottom) :
    LevelsRight ops given none keys ↔ (ops.flatMap Op.args).Nodup := by
  rw [nodup_flatMap_args_iff]
  obtain ⟨s, queue, hround, hplacing, hsched⟩ := exists_placing hkeys
  constructor
  · rintro ⟨-, hlength, s', hs, hright⟩ a b hab
    have ha : a < ops.length := (le_of_mem_add_qubits hab.2).trans_lt hab.1
    have hchild := List.ne_nil_of_mem (mem_out_edges.mpr hab)
    rw [alap, hround] at hs
    cases queue with
    | nil =>
      rw [alap_recurse_nil] at hs
      obtain rfl : s = s' := Option.some.inj hs
      -- the parent never gets a time
      have hunset := hplacing.unset a (fun hsa ↦ hchild (hsched a hsa)) List.not_mem_nil
      obtain ⟨⟨c, hc, heq⟩, -⟩ := hright a ha
      have hlt : ∀ i ∈ a :: c, i < ops.length :=
        hc.induction (· < ops.length) _ (fun _ _ hxy _ ↦ hxy.2.1) fun _ ↦ ha
      have hle := hlength.2 ⟨a :: c, hlt, hc, rfl⟩
      omega
    | cons i queue =>
      have hnone := hplacing.alap_recurse_none ops.length
      exact absurd (hnone.symm.trans hs) (Option.some_ne_none s').symm
  · intro hnone
    have hd : DistinctArgs ops := by
      by_contra hdup
      obtain ⟨i, hi⟩ := exists_parent_self hdup
      exact hnone i i hi
    obtain ⟨hasap, hlength, s', hs, hright⟩ := hd.levelsRight given hkeys
    refine ⟨hasap, hlength, s', ?_, hright⟩
    rw [alap, hround] at hs ⊢
    cases queue with
    | nil =>
      rw [alap_recurse_nil] at hs ⊢
      exact hs
    | cons i queue =>
      obtain ⟨j, hj⟩ := List.exists_mem_of_ne_nil _ (hplacing.start i List.mem_cons_self).2
      exact absurd (mem_out_edges.mp hj) (hnone i j)

theorem levelsRight_iff_apart :
    LevelsRight [opOn .H ['q'], opOn .T ['r']] (givenLength [opOn .H ['q'], opOn .T ['r']]) none
        [0, 1] ↔ ([opOn .H ['q'], opOn .T ['r']].flatMap Op.args).Nodup :=
  levelsRight_iff _ (by decide)

/-- Two gates on one qubit. The first one needs the subroutine. -/
theorem not_levelsRight_twice :
    [1].Perm (addOps [opOn .H ['q'], opOn .T ['q']]
        (givenLength [opOn .H ['q'], opOn .T ['q']]) 2).bottom ∧
      ¬ LevelsRight [opOn .H ['q'], opOn .T ['q']] (givenLength [opOn .H ['q'], opOn .T ['q']])
        none [1] := by
  refine ⟨by decide, ?_⟩
  rintro ⟨-, -, s, hs, -⟩
  have hnone : alap [opOn .H ['q'], opOn .T ['q']]
    (givenLength [opOn .H ['q'], opOn .T ['q']]) none [1] = none := rfl
  exact absurd (hnone.symm.trans hs) (Option.some_ne_none s).symm

end ScaffCC.Sched
