import ScaffCC.Sched.Op

/-!
# The longest paths

`find_lp` looks for the longest chain of operations that are on no path yet. It goes through the
operations in the order of their numbers, hands the length of the longest chain up to each one on to
its children, and then follows the chain from its last operation upwards. The operations of the
chain are marked as followed, so that paths found later have none of them.
-/

namespace ScaffCC.Sched

/-- The fields `dist` and `followed` of the operations. -/
structure PathState where
  dist : ℕ → ℕ
  followed : ℕ → Bool

variable (ops : List Op)

namespace PathState

/-- No operation is on a path. -/
def init : PathState := ⟨fun _ ↦ 1, fun _ ↦ false⟩

/-- The first loop of `find_lp`. -/
def reset (s : PathState) : PathState :=
  { s with dist := fun i ↦ if s.followed i then s.dist i else 1 }

/-- The distance handed on to the children. -/
def handOn (i : ℕ) (dist : ℕ → ℕ) : ℕ → ℕ :=
  (out_edges ops i).foldl (fun dist c ↦ Function.update dist c (max (dist i + 1) (dist c))) dist

/-- The end of the longest chain, where that of the operations before `i` is given. -/
def longest (s : PathState) (last : Option ℕ) (i : ℕ) : Option ℕ :=
  if ¬ s.followed i ∧ last.elim 0 s.dist < s.dist i then some i else last

/-- A round of the third loop of `find_lp`, for the operation `i`. The second component is
`$path[0]`. -/
def visit (id : ℕ) (acc : PathState × Option ℕ) (i : ℕ) : PathState × Option ℕ :=
  if id ≤ i then
    let s := { acc.1 with
      dist := if acc.1.followed i then Function.update acc.1.dist i 0 else handOn ops i acc.1.dist }
    (s, s.longest acc.2 i)
  else acc

def take_path (i : ℕ) (s : PathState) : PathState :=
  ⟨Function.update s.dist i 0, Function.update s.followed i true⟩

/-- The last loop of `find_lp`, from a path whose first operation is `i`, for at most `n` rounds.
The distance of the first operation goes down with every round. -/
def climb : ℕ → ℕ → List ℕ → PathState → List ℕ × PathState
  | 0, i, rest, s => (i :: rest, s.take_path i)
  | n + 1, i, rest, s =>
    if 1 < s.dist i then
      match (in_edges ops i).find? fun a ↦ (s.take_path i).dist a = s.dist i - 1 with
      | some a => climb n a (i :: rest) (s.take_path i)
      | none => (i :: rest, (s.take_path i).take_path i)
    else (i :: rest, s.take_path i)

end PathState

/-- `find_lp`: the operations of the path, the first one first. -/
def find_lp (top : List ℕ) (s : PathState) : List ℕ × PathState :=
  if top = [] then ([], s)
  else
    match (List.range ops.length).foldl (PathState.visit ops (top.foldl min 0x7fffffff))
      (s.reset, none) with
    | (s, none) => ([], s)
    | (s, some i) => s.climb ops (s.dist i) i []

/-! ## What a search finds -/

variable {ops} {s s' : PathState} {i a n : ℕ} {rest : List ℕ}

namespace PathState

theorem handOn_of_le (hd : DistinctArgs ops) (hai : a ≤ i) (dist : ℕ → ℕ) :
    handOn ops i dist a = dist a := by
  rw [handOn]
  have hchild : ∀ c ∈ out_edges ops i, i < c := fun c hc ↦ (mem_out_edges.mp hc).lt hd
  generalize out_edges ops i = children at hchild
  induction children generalizing dist with
  | nil => rfl
  | cons c children ih =>
    obtain ⟨hc, hrest⟩ := List.forall_mem_cons.mp hchild
    rw [List.foldl_cons, ih _ hrest, Function.update_of_ne (by omega)]

theorem longest_eq_some {last : Option ℕ} (h : s.longest last a = some i) :
    i = a ∧ ¬ s.followed a ∨ last = some i := by
  rw [longest] at h
  split_ifs at h with hlong
  · exact .inl ⟨(Option.some_injective _ h).symm, hlong.1⟩
  · exact .inr h

/-- The operations on a path have the distance `0` when the loop has come to them, and the chain
found ends with an operation that is on no path. -/
theorem foldl_visit_spec (hd : DistinctArgs ops) (s : PathState) (n : ℕ) (id : ℕ) (hid : id = 0) :
    let r := (List.range n).foldl (visit ops id) (s, none)
    r.1.followed = s.followed ∧ (∀ i < n, s.followed i → r.1.dist i = 0) ∧
      ∀ i, r.2 = some i → i < n ∧ ¬ s.followed i := by
  subst hid
  induction n with
  | zero => exact ⟨rfl, fun i hi ↦ absurd hi (Nat.not_lt_zero i), fun i h ↦
      absurd h.symm (Option.some_ne_none i)⟩
  | succ n ih =>
    obtain ⟨hfollowed, hdist, htop⟩ := ih
    rw [List.range_succ, List.foldl_append, List.foldl_cons, List.foldl_nil]
    set r := (List.range n).foldl (visit ops 0) (s, none)
    rw [visit, if_pos (Nat.zero_le n)]
    refine ⟨hfollowed, fun i hi hf ↦ ?_, fun i h ↦ ?_⟩
    · dsimp only
      rw [hfollowed]
      rcases Nat.lt_succ_iff_lt_or_eq.mp hi with hi | rfl
      · split_ifs
        · rw [Function.update_of_ne hi.ne, hdist i hi hf]
        · rw [handOn_of_le hd hi.le, hdist i hi hf]
      · rw [if_pos hf, Function.update_self]
    · rcases longest_eq_some h with ⟨rfl, hf⟩ | h
      · exact ⟨Nat.lt_succ_self i, by rwa [← hfollowed]⟩
      · obtain ⟨hi, hf⟩ := htop i h
        exact ⟨hi.trans (Nat.lt_succ_self n), hf⟩

theorem followed_take_path : (s.take_path i).followed a ↔ s.followed a ∨ a = i := by
  by_cases ha : a = i
  · simp [take_path, ha]
  · simp [take_path, ha]

theorem dist_take_path : (s.take_path i).dist a = if a = i then 0 else s.dist a :=
  Function.update_apply ..

/-- The operations of a chain become later one after the other, were on no path, and are followed
from now on. -/
structure Climbed (ops : List Op) (s : PathState) (r : List ℕ × PathState) : Prop where
  sorted : r.1.Pairwise (· < ·)
  mem : ∀ i ∈ r.1, i < ops.length ∧ ¬ s.followed i
  followed : ∀ i, r.2.followed i ↔ s.followed i ∨ i ∈ r.1

theorem climb_spec (hd : DistinctArgs ops) (s₀ : PathState)
    (hsorted : (i :: rest).Pairwise (· < ·))
    (hfree : ∀ j ∈ i :: rest, j < ops.length ∧ ¬ s₀.followed j)
    (hfollowed : ∀ j, s.followed j ↔ s₀.followed j ∨ j ∈ rest)
    (hdist : ∀ j < ops.length, s.followed j → s.dist j = 0) :
    Climbed ops s₀ (s.climb ops n i rest) := by
  induction n generalizing i rest s with
  | zero =>
    refine ⟨hsorted, hfree, fun j ↦ ?_⟩
    rw [climb, followed_take_path, hfollowed, List.mem_cons, or_assoc, or_comm (b := j = i)]
  | succ n ih =>
    have hdone : ∀ j, (s.take_path i).followed j ↔ s₀.followed j ∨ j ∈ i :: rest := by
      intro j
      rw [followed_take_path, hfollowed, List.mem_cons, or_assoc, or_comm (b := j = i)]
    rw [climb]
    split_ifs with hlong
    · cases hup : (in_edges ops i).find? fun a ↦ (s.take_path i).dist a = s.dist i - 1 with
      | none =>
        refine ⟨hsorted, hfree, fun j ↦ ?_⟩
        rw [followed_take_path, hdone, or_iff_left_of_imp]
        rintro rfl
        exact .inr List.mem_cons_self
      | some a =>
        have hai : a < i := hd.lt (List.mem_of_find?_eq_some hup)
        have halen : a < ops.length := hai.trans (hfree i List.mem_cons_self).1
        have hfound : (s.take_path i).dist a = s.dist i - 1 := by
          simpa using List.find?_some hup
        rw [dist_take_path, if_neg hai.ne] at hfound
        -- an operation on a path has the distance zero
        have hafree : ¬ s.followed a := by
          intro ha
          have hzero := hdist a halen ha
          omega
        refine ih ?_ ?_ hdone fun j hj hjf ↦ ?_
        · refine List.pairwise_cons.mpr ⟨fun j hj ↦ ?_, hsorted⟩
          rcases List.mem_cons.mp hj with rfl | hj
          · exact hai
          · exact hai.trans ((List.pairwise_cons.mp hsorted).1 j hj)
        · exact List.forall_mem_cons.mpr
            ⟨⟨halen, fun ha ↦ hafree ((hfollowed a).mpr (.inl ha))⟩, hfree⟩
        · rw [dist_take_path]
          split_ifs with hji
          · rfl
          · exact hdist j hj ((followed_take_path.mp hjf).resolve_right hji)
    · exact ⟨hsorted, hfree, hdone⟩

end PathState

open PathState

/-- **A search.** The operations of the path found become later one after the other, were on no path
before, and are followed from now on. -/
theorem find_lp_spec (hd : DistinctArgs ops) {top : List ℕ} (htop : 0 ∈ top) (s : PathState) :
    Climbed ops s (find_lp ops top s) := by
  have hmin : top.foldl min 0x7fffffff = 0 := by
    have hzero : top.min? = some 0 :=
      List.min?_eq_some_iff.mpr ⟨htop, fun b _ ↦ Nat.zero_le b⟩
    rw [List.foldl_min, hzero, Option.getD_some, Nat.min_zero]
  have hnone (s' : PathState) (h : s'.followed = s.followed) : Climbed ops s ([], s') :=
    ⟨List.Pairwise.nil, List.forall_mem_nil _, fun i ↦ by simp [h]⟩
  rw [find_lp, if_neg (List.ne_nil_of_mem htop), hmin]
  obtain ⟨hfollowed, hdist, hlast⟩ := foldl_visit_spec hd s.reset ops.length 0 rfl
  cases hr : (List.range ops.length).foldl (visit ops 0) (s.reset, none) with
  | mk s' last =>
    rw [hr] at hfollowed hdist hlast
    have hs' : s'.followed = s.followed := hfollowed
    cases last with
    | none => exact hnone s' hs'
    | some i =>
      refine climb_spec hd s (List.pairwise_singleton _ i)
        (List.forall_mem_singleton.mpr (hlast i rfl)) (fun j ↦ by simp [hs']) fun j hj hf ↦ ?_
      exact hdist j hj (hs' ▸ hf)

theorem find_lp_nil (s : PathState) : find_lp ops [] s = ([], s) := if_pos rfl

end ScaffCC.Sched
