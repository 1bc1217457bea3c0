import Mathlib.Logic.Function.Iterate
import Mathlib.Order.Bounds.Basic
import Mathlib.Tactic.SplitIfs

/-!
# Counting up and down with a bound

A counter goes through a range of numbers one by one, up or down, and starts again on the other side
when it has reached the end. A loop goes on as long as the counter is in a relation to a bound. How
often it runs is known in closed form, whichever way the counter goes: it runs up to the bound if
the counter goes there, and to the end of the range otherwise.
-/

namespace Counting

/-! ## Relations -/

/-- A relation of two numbers. -/
inductive Rel
  | eq
  | ne
  | lt
  | le
  | gt
  | ge
  deriving DecidableEq, Repr

namespace Rel

def Holds : Rel → ℤ → ℤ → Prop
  | eq, x, y => x = y
  | ne, x, y => x ≠ y
  | lt, x, y => x < y
  | le, x, y => x ≤ y
  | gt, x, y => y < x
  | ge, x, y => y ≤ x

/-- The relation that holds if this one does not. -/
def negate : Rel → Rel
  | eq => ne
  | ne => eq
  | lt => ge
  | le => gt
  | gt => le
  | ge => lt

/-- The same relation of the opposite numbers. -/
def mirror : Rel → Rel
  | eq => eq
  | ne => ne
  | lt => gt
  | le => ge
  | gt => lt
  | ge => le

theorem holds_negate (r : Rel) (x y : ℤ) : r.negate.Holds x y ↔ ¬ r.Holds x y := by
  cases r <;> simp only [negate, Holds] <;> omega

theorem holds_mirror (r : Rel) (x y : ℤ) : r.mirror.Holds (-x) (-y) ↔ r.Holds x y := by
  cases r <;> simp only [mirror, Holds] <;> omega

end Rel

/-! ## The counter -/

/-- The next number, in one of the two directions. -/
def next (lo hi : ℤ) (up : Bool) (x : ℤ) : ℤ :=
  if up then if x = hi then lo else x + 1 else if x = lo then hi else x - 1

variable {lo hi x y : ℤ} {r : Rel} {up : Bool} {n : ℕ}

theorem next_mirror (lo hi x : ℤ) : next (-hi) (-lo) true (-x) = -next lo hi false x := by
  rw [next, next, if_pos rfl, if_neg Bool.false_ne_true]
  split <;> split <;> omega

theorem iterate_mirror (lo hi x : ℤ) (n : ℕ) :
    (next lo hi false)^[n] x = -(next (-hi) (-lo) true)^[n] (-x) := by
  have hsemi : Function.Semiconj Neg.neg (next lo hi false) (next (-hi) (-lo) true) :=
    fun x ↦ (next_mirror lo hi x).symm
  rw [← hsemi.iterate_right n x]
  exact (Int.neg_neg _).symm

theorem iterate_up (hlo : lo ≤ x) (hhi : x ≤ hi) (hn : (n : ℤ) ≤ hi - lo + 1) :
    (next lo hi true)^[n] x = if x + n ≤ hi then x + n else x + n - (hi - lo + 1) := by
  induction n with
  | zero => simp [hhi]
  | succ n ih =>
    rw [Function.iterate_succ_apply', ih (by omega), next, if_pos rfl]
    split <;> split <;> split <;> omega

theorem mem_next (hlo : lo ≤ x) (hhi : x ≤ hi) : lo ≤ next lo hi up x ∧ next lo hi up x ≤ hi := by
  rw [next]
  split <;> split <;> omega

theorem mem_iterate (hlo : lo ≤ x) (hhi : x ≤ hi) (n : ℕ) :
    lo ≤ (next lo hi up)^[n] x ∧ (next lo hi up)^[n] x ≤ hi := by
  induction n with
  | zero => exact ⟨hlo, hhi⟩
  | succ n ih =>
    rw [Function.iterate_succ_apply']
    exact mem_next ih.1 ih.2

/-! ## How often a loop runs -/

/-- The numbers of rounds after which the loop does not go on. -/
def stops (lo hi : ℤ) (r : Rel) (up : Bool) (x y : ℤ) : Set ℕ :=
  {n | ¬ r.Holds ((next lo hi up)^[n] x) y}

/-- The loop runs and ends, if the counter goes up. -/
def EndsUp (lo hi : ℤ) : Rel → ℤ → ℤ → Prop
  | .eq, x, y => x = y
  | .ne, x, y => x ≠ y
  | .lt, x, y => x < y
  | .le, x, y => x ≤ y ∧ y < hi
  | .gt, x, y => y < x
  | .ge, x, y => y ≤ x ∧ lo < y

/-- How often it runs then. -/
def runsUp (lo hi : ℤ) : Rel → ℤ → ℤ → ℤ
  | .eq, _, _ => 1
  | .ne, x, y => if x < y then y - x else y - x + (hi - lo + 1)
  | .lt, x, y => y - x
  | .le, x, y => y - x + 1
  | .gt, x, _ => hi - x + 1
  | .ge, x, _ => hi - x + 1

/-- The loop runs and ends. -/
def Ends (lo hi : ℤ) (r : Rel) (up : Bool) (x y : ℤ) : Prop :=
  if up then EndsUp lo hi r x y else EndsUp (-hi) (-lo) r.mirror (-x) (-y)

/-- How often it runs then. -/
def runs (lo hi : ℤ) (r : Rel) (up : Bool) (x y : ℤ) : ℤ :=
  if up then runsUp lo hi r x y else runsUp (-hi) (-lo) r.mirror (-x) (-y)

theorem stops_mirror (lo hi : ℤ) (r : Rel) (x y : ℤ) :
    stops lo hi r false x y = stops (-hi) (-lo) r.mirror true (-x) (-y) := by
  ext n
  have hholds := r.holds_mirror (-(next (-hi) (-lo) true)^[n] (-x)) y
  rw [Int.neg_neg] at hholds
  show ¬ r.Holds ((next lo hi false)^[n] x) y ↔ ¬ r.mirror.Holds _ (-y)
  rw [iterate_mirror, ← hholds]

theorem isLeast_runsUp (hlt : lo < hi) (hxlo : lo ≤ x) (hxhi : x ≤ hi) (hylo : lo ≤ y)
    (hyhi : y ≤ hi) (h : EndsUp lo hi r x y) :
    0 < runsUp lo hi r x y ∧ IsLeast (stops lo hi r true x y) (runsUp lo hi r x y).toNat := by
  have hround : 0 < runsUp lo hi r x y ∧ runsUp lo hi r x y ≤ hi - lo + 1 := by
    cases r <;> simp only [EndsUp, runsUp] at h ⊢ <;> (try split) <;> omega
  refine ⟨hround.1, ?_, fun m hm ↦ ?_⟩
  · show ¬ r.Holds ((next lo hi true)^[(runsUp lo hi r x y).toNat] x) y
    rw [iterate_up hxlo hxhi (by omega), Int.toNat_of_nonneg hround.1.le]
    cases r <;> simp only [EndsUp, runsUp, Rel.Holds] at h ⊢ <;> split_ifs <;> omega
  · by_contra hlt'
    have hout : ¬ r.Holds ((next lo hi true)^[m] x) y := hm
    rw [iterate_up hxlo hxhi (by omega)] at hout
    cases r <;> simp only [EndsUp, runsUp, Rel.Holds] at h hout hlt' <;>
      split_ifs at hout hlt' <;> omega

theorem runs_pos (hlt : lo < hi) (hxlo : lo ≤ x) (hxhi : x ≤ hi) (hylo : lo ≤ y) (hyhi : y ≤ hi)
    (h : Ends lo hi r up x y) : 0 < runs lo hi r up x y := by
  cases up with
  | true => exact (isLeast_runsUp hlt hxlo hxhi hylo hyhi h).1
  | false => exact (isLeast_runsUp (by omega) (by omega) (by omega) (by omega) (by omega) h).1

/-- Otherwise the loop is not entered, or it goes on for ever. -/
theorem holds_of_not_endsUp (hxlo : lo ≤ x) (hxhi : x ≤ hi) (hylo : lo ≤ y) (hyhi : y ≤ hi)
    (h : ¬ EndsUp lo hi r x y) (hentered : r.Holds x y) (n : ℕ) :
    r.Holds ((next lo hi true)^[n] x) y := by
  have hmem : lo ≤ (next lo hi true)^[n] x ∧ (next lo hi true)^[n] x ≤ hi :=
    mem_iterate hxlo hxhi n
  obtain ⟨hlo, hhi⟩ := hmem
  cases r <;> simp only [EndsUp, Rel.Holds] at h hentered ⊢ <;> omega

theorem isLeast_stops_up (hlt : lo < hi) (hxlo : lo ≤ x) (hxhi : x ≤ hi) (hylo : lo ≤ y)
    (hyhi : y ≤ hi) (hn : n ≠ 0) :
    IsLeast (stops lo hi r true x y) n ↔ EndsUp lo hi r x y ∧ (n : ℤ) = runsUp lo hi r x y := by
  constructor
  · intro hleast
    have hends : EndsUp lo hi r x y := by
      by_contra hnot
      have hentered : r.Holds x y := by
        by_contra hout
        exact hn (Nat.le_zero.mp (hleast.2 (show 0 ∈ stops lo hi r true x y from hout)))
      exact hleast.1 (holds_of_not_endsUp hxlo hxhi hylo hyhi hnot hentered n)
    obtain ⟨hpos, hruns⟩ := isLeast_runsUp hlt hxlo hxhi hylo hyhi hends
    refine ⟨hends, ?_⟩
    rw [hleast.unique hruns]
    exact Int.toNat_of_nonneg hpos.le
  · rintro ⟨hends, hruns⟩
    have hleast := (isLeast_runsUp hlt hxlo hxhi hylo hyhi hends).2
    rwa [← hruns, Int.toNat_natCast] at hleast

/-- **How often a loop runs.** -/
theorem isLeast_stops_iff (hlt : lo < hi) (hxlo : lo ≤ x) (hxhi : x ≤ hi) (hylo : lo ≤ y)
    (hyhi : y ≤ hi) (hn : n ≠ 0) :
    IsLeast (stops lo hi r up x y) n ↔ Ends lo hi r up x y ∧ (n : ℤ) = runs lo hi r up x y := by
  cases up with
  | true => exact isLeast_stops_up hlt hxlo hxhi hylo hyhi hn
  | false =>
    rw [stops_mirror]
    exact isLeast_stops_up (by omega) (by omega) (by omega) (by omega) (by omega) hn

end Counting
