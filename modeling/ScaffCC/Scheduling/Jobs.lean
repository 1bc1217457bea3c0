import Mathlib.Algebra.Order.BigOperators.Group.List
import Mathlib.Algebra.Order.Group.Nat
import Mathlib.Algebra.Ring.Nat

/-!
# Jobs on a number of machines

A job runs from its start for its length and takes a number of machines while it does. A scheduler
that fills one batch after the other only has to know where the batch begins and ends and how many
machines its jobs take together: a job joins the batch if there are machines left for it, and
otherwise starts a new batch where the old one ends. The machines in use at a time are those of one
batch only, whenever in the batch its jobs run.
-/

namespace Scheduling

/-- A job: when it starts, how long it runs and how many machines it takes. -/
structure Job where
  start : ℕ
  length : ℕ
  width : ℕ
  deriving DecidableEq, Repr

/-- The first time at which the job does not run any more. -/
def Job.stop (j : Job) : ℕ := j.start + j.length

def Job.RunsAt (j : Job) (τ : ℕ) : Prop := j.start ≤ τ ∧ τ < j.stop

instance (j : Job) (τ : ℕ) : Decidable (j.RunsAt τ) := inferInstanceAs (Decidable (_ ∧ _))

/-- One of two jobs is over when the other one starts. -/
def Job.Apart (i j : Job) : Prop := i.stop ≤ j.start ∨ j.stop ≤ i.start

/-- The machines that are in use at a time. -/
def load (jobs : List Job) (τ : ℕ) : ℕ := ((jobs.filter fun j ↦ j.RunsAt τ).map Job.width).sum

variable {jobs jobs' : List Job} {j : Job} {K base used stop τ : ℕ}

theorem load_append : load (jobs ++ jobs') τ = load jobs τ + load jobs' τ := by
  rw [load, List.filter_append, List.map_append, List.sum_append, load, load]

theorem load_le_sum : load jobs τ ≤ (jobs.map Job.width).sum :=
  (List.filter_sublist.map _).sum_le_sum fun _ _ ↦ Nat.zero_le _

theorem load_eq_zero (h : ∀ j ∈ jobs, ¬ j.RunsAt τ) : load jobs τ = 0 := by
  have hnil : jobs.filter (fun j ↦ j.RunsAt τ) = [] := by
    rw [List.filter_eq_nil_iff]
    intro j hj
    rw [decide_eq_true_eq]
    exact h j hj
  rw [load, hnil, List.map_nil, List.sum_nil]

/-! ## Batches -/

/-- The jobs so far never take more than `K` machines. Those of the current batch run between `base`
and `stop` and take `used` machines together, and all others are over at `base`. -/
structure Batched (K base stop used : ℕ) (jobs : List Job) : Prop where
  le : base ≤ stop
  split : ∃ old cur, jobs = old ++ cur ∧ (∀ j ∈ old, j.stop ≤ base) ∧
    (∀ j ∈ cur, base ≤ j.start ∧ j.stop ≤ stop) ∧ (cur.map Job.width).sum = used
  load_le : ∀ τ, load jobs τ ≤ K

theorem batched_nil : Batched K 0 0 0 [] :=
  ⟨le_rfl, ⟨[], [], rfl, List.forall_mem_nil _, List.forall_mem_nil _, rfl⟩,
    fun _ ↦ Nat.zero_le K⟩

theorem Batched.stop_le (h : Batched K base stop used jobs) (hj : j ∈ jobs) : j.stop ≤ stop := by
  obtain ⟨old, cur, rfl, hold, hcur, -⟩ := h.split
  rcases List.mem_append.mp hj with hj | hj
  · exact (hold j hj).trans h.le
  · exact (hcur j hj).2

theorem Batched.join (h : Batched K base stop used jobs) (hbase : base ≤ j.start)
    (hwidth : used + j.width ≤ K) :
    Batched K base (max stop j.stop) (used + j.width) (jobs ++ [j]) := by
  obtain ⟨old, cur, rfl, hold, hcur, rfl⟩ := h.split
  refine ⟨h.le.trans (le_max_left ..), ⟨old, cur ++ [j], by rw [List.append_assoc], hold, ?_, ?_⟩,
    fun τ ↦ ?_⟩
  · intro i hi
    rcases List.mem_append.mp hi with hi | hi
    · exact ⟨(hcur i hi).1, (hcur i hi).2.trans (le_max_left ..)⟩
    · rw [List.mem_singleton.mp hi]
      exact ⟨hbase, le_max_right ..⟩
  · rw [List.map_append, List.sum_append, List.map_singleton, List.sum_singleton]
  · rcases Nat.lt_or_ge τ base with hlt | hge
    · -- the job does not run yet
      have hj : load [j] τ = 0 := load_eq_zero fun i hi hrun ↦ by
        rw [List.mem_singleton.mp hi] at hrun
        exact absurd (hbase.trans hrun.1) (Nat.not_le.mpr hlt)
      rw [load_append, hj, Nat.add_zero]
      exact h.load_le τ
    · -- the other batches are over
      have hdone : load old τ = 0 := load_eq_zero fun i hi hrun ↦
        absurd (hrun.2.trans_le (hold i hi)) (Nat.not_lt.mpr hge)
      have hself : load [j] τ ≤ j.width := load_le_sum
      have hbatch : load cur τ ≤ (cur.map Job.width).sum := load_le_sum
      rw [load_append, load_append, hdone]
      omega

theorem Batched.serial (h : Batched K base stop used jobs) (hstart : j.start = stop)
    (hwidth : j.width ≤ K) : Batched K stop j.stop j.width (jobs ++ [j]) := by
  refine ⟨by rw [Job.stop]; omega, ⟨jobs, [j], rfl, fun i hi ↦ h.stop_le hi, ?_, ?_⟩, fun τ ↦ ?_⟩
  · intro i hi
    rw [List.mem_singleton.mp hi]
    exact ⟨hstart.ge, le_rfl⟩
  · rw [List.map_singleton, List.sum_singleton]
  · rcases Nat.lt_or_ge τ stop with hlt | hge
    · have hj : load [j] τ = 0 := load_eq_zero fun i hi hrun ↦ by
        rw [List.mem_singleton.mp hi] at hrun
        exact absurd (hstart.ge.trans hrun.1) (Nat.not_le.mpr hlt)
      rw [load_append, hj, Nat.add_zero]
      exact h.load_le τ
    · have hdone : load jobs τ = 0 := load_eq_zero fun i hi hrun ↦
        absurd (hrun.2.trans_le (h.stop_le hi)) (Nat.not_lt.mpr hge)
      have hself : load [j] τ ≤ j.width := load_le_sum
      rw [load_append, hdone, Nat.zero_add]
      exact hself.trans hwidth

end Scheduling
