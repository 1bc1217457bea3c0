import Mathlib.Data.List.GetD
import ScaffCC.IR.Gate
import ScaffCC.Scheduling.Placement

/-!
# Operation lists

The script `sched.pl` reads the operations of a leaf function line by line. Each has a name and the
qubits it works on, and depends on the operations that used one of these qubits last. An operation
is known by its `id`, which is counted from `0` here, so that it is the position in the list.

The script schedules with several algorithms, which share what is defined here: the dependencies,
the test whether an operation is ready, and the function that puts one into a region of a timestep.
-/

open Scheduling

namespace ScaffCC.Sched

/-! ## Operations -/

/-- The names in `%func_sched`. A line with another name is skipped, and a call of the function
itself, whose name is there as well, does not occur in a leaf function. -/
inductive OpType
  | START
  | END
  | PrepZ
  | MeasX
  | MeasZ
  | CNOT
  | H
  | S
  | Sdag
  | T
  | Tdag
  | X
  | Y
  | Z
  deriving DecidableEq, Repr

/-- The fields `op` and `args` of an operation. -/
structure Op where
  op : OpType
  args : List Ident
  deriving DecidableEq, Repr

/-- An operation on qubits that have one-letter names. -/
def opOn (op : OpType) (qubits : List Char) : Op := ⟨op, qubits.map fun c ↦ [c]⟩

variable (ops : List Op)

/-- The operation with the `id`. -/
def opAt (i : ℕ) : Op := ops.getD i ⟨.START, []⟩

/-- The operations in the field `ops` of a qubit before the operation `i` is read. -/
def qubitOps (i : ℕ) (q : Ident) : List ℕ :=
  (List.range i).flatMap fun j ↦ List.replicate ((opAt ops j).args.count q) j

/-- `get_dep(-2)`, the last operation but one. -/
def get_dep (deps : List ℕ) : Option ℕ := deps.dropLast.getLast?

/-- The edges found while the operands of the operation `i` are added one by one. Each operand is
told of the operation first, so an operand that comes a second time finds the operation itself. -/
def add_qubits (i : ℕ) : List Ident → List Ident → List ℕ
  | _, [] => []
  | before, q :: rest =>
    (get_dep (qubitOps ops i q ++ List.replicate (before.count q + 1) i)).toList ++
      add_qubits i (before ++ [q]) rest

/-- The parents of an operation. -/
def in_edges (i : ℕ) : List ℕ := add_qubits ops i [] (opAt ops i).args

/-- The children of an operation, in the order in which the edges are found. -/
def out_edges (i : ℕ) : List ℕ :=
  (List.range ops.length).flatMap fun j ↦ ((in_edges ops j).filter (· = i)).map fun _ ↦ j

/-- The operations without a parent. -/
def top : List ℕ := (List.range ops.length).filter fun i ↦ in_edges ops i = []

/-- The operation `a` is a parent of the operation `b`. -/
def Parent (a b : ℕ) : Prop := b < ops.length ∧ a ∈ in_edges ops b

/-- No operation names a qubit twice. -/
def DistinctArgs : Prop := ∀ op ∈ ops, op.args.Nodup

instance : Decidable (DistinctArgs ops) :=
  inferInstanceAs (Decidable (∀ op ∈ ops, op.args.Nodup))

variable {ops} {a b i j : ℕ} {q : Ident}

theorem get_dep_append (l : List ℕ) (n : ℕ) :
    get_dep (l ++ List.replicate (n + 1) i) = if n = 0 then l.getLast? else some i := by
  rw [get_dep, List.replicate_succ', ← List.append_assoc, List.dropLast_concat]
  split_ifs with hn
  · rw [hn, List.replicate_zero, List.append_nil]
  · obtain ⟨m, rfl⟩ := Nat.exists_eq_succ_of_ne_zero hn
    rw [List.replicate_succ', ← List.append_assoc, List.getLast?_concat]

/-- The edges of an operation whose operands are distinct. -/
theorem mem_add_qubits {before rest : List Ident} (h : (before ++ rest).Nodup) :
    a ∈ add_qubits ops i before rest ↔ ∃ q ∈ rest, (qubitOps ops i q).getLast? = some a := by
  induction rest generalizing before with
  | nil => simp [add_qubits]
  | cons q rest ih =>
    have hq : before.count q = 0 := by
      rw [List.count_eq_zero]
      exact fun hmem ↦ (List.nodup_append.mp h).2.2 q hmem q List.mem_cons_self rfl
    rw [add_qubits, hq, get_dep_append, if_pos rfl, List.mem_append, ih (by simpa using h),
      Option.mem_toList, List.exists_mem_cons_iff]

theorem self_mem_add_qubits {before rest : List Ident} (hbefore : before.Nodup)
    (h : ¬ (before ++ rest).Nodup) : i ∈ add_qubits ops i before rest := by
  induction rest generalizing before with
  | nil => exact absurd (by rwa [List.append_nil]) h
  | cons q rest ih =>
    rw [add_qubits, get_dep_append, List.mem_append]
    by_cases hq : q ∈ before
    · left
      rw [if_neg (List.count_pos_iff.mpr hq).ne']
      exact List.mem_singleton_self i
    · right
      refine ih ?_ (by rwa [List.append_assoc, List.singleton_append])
      rw [List.nodup_append]
      refine ⟨hbefore, List.nodup_singleton q, fun c hc d hd hcd ↦ hq ?_⟩
      rw [← List.mem_singleton.mp hd, ← hcd]
      exact hc

theorem DistinctArgs.opAt (h : DistinctArgs ops) (i : ℕ) : (opAt ops i).args.Nodup := by
  rw [Sched.opAt]
  by_cases hi : i < ops.length
  · rw [List.getD_eq_getElem _ _ hi]
    exact h _ (List.getElem_mem hi)
  · rw [List.getD_eq_default _ _ (not_lt.mp hi)]
    exact List.nodup_nil

theorem qubitOps_succ : qubitOps ops (i + 1) q
    = qubitOps ops i q ++ List.replicate ((opAt ops i).args.count q) i := by
  simp [qubitOps, List.range_succ]

theorem getLast?_qubitOps : (qubitOps ops i q).getLast? = some a ↔
    a < i ∧ q ∈ (opAt ops a).args ∧ ∀ c, a < c → c < i → q ∉ (opAt ops c).args := by
  induction i with
  | zero => simp [qubitOps]
  | succ i ih =>
    rw [qubitOps_succ]
    by_cases hq : q ∈ (opAt ops i).args
    · obtain ⟨m, hm⟩ := Nat.exists_eq_succ_of_ne_zero (List.count_pos_iff.mpr hq).ne'
      rw [hm, List.replicate_succ', ← List.append_assoc, List.getLast?_concat, Option.some.injEq]
      constructor
      · rintro rfl
        exact ⟨Nat.lt_succ_self i, hq, fun c hac hci ↦ by omega⟩
      · rintro ⟨ha, -, hlast⟩
        by_contra hne
        exact hlast i (by omega) (Nat.lt_succ_self i) hq
    · rw [List.count_eq_zero.mpr hq, List.replicate_zero, List.append_nil, ih]
      constructor
      · rintro ⟨ha, hqa, hlast⟩
        refine ⟨by omega, hqa, fun c hac hci ↦ ?_⟩
        rcases Nat.lt_succ_iff_lt_or_eq.mp hci with hci | rfl
        · exact hlast c hac hci
        · exact hq
      · rintro ⟨ha, hqa, hlast⟩
        have hne : a ≠ i := by
          rintro rfl
          exact hq hqa
        exact ⟨by omega, hqa, fun c hac hci ↦ hlast c hac (by omega)⟩

/-- **The dependencies.** The parents of an operation are the operations that used one of its qubits
last. -/
theorem DistinctArgs.mem_in_edges (h : DistinctArgs ops) : a ∈ in_edges ops b ↔
    ∃ q ∈ (Sched.opAt ops b).args, a < b ∧ q ∈ (Sched.opAt ops a).args ∧
      ∀ c, a < c → c < b → q ∉ (Sched.opAt ops c).args := by
  rw [in_edges, mem_add_qubits (by rw [List.nil_append]; exact h.opAt b)]
  exact exists_congr fun q ↦ and_congr_right fun _ ↦ getLast?_qubitOps

theorem DistinctArgs.lt (h : DistinctArgs ops) (hab : a ∈ in_edges ops b) : a < b := by
  obtain ⟨_, _, hlt, _⟩ := h.mem_in_edges.mp hab
  exact hlt

theorem Parent.lt (h : Parent ops a b) (hd : DistinctArgs ops) : a < b := hd.lt h.2

/-- An operation that names a qubit twice waits for itself. -/
theorem exists_parent_self (h : ¬ DistinctArgs ops) : ∃ i, Parent ops i i := by
  rw [DistinctArgs] at h
  push Not at h
  obtain ⟨op, hop, hdup⟩ := h
  obtain ⟨i, hi, rfl⟩ := List.mem_iff_getElem.mp hop
  have hat : Sched.opAt ops i = ops[i] := List.getD_eq_getElem _ _ hi
  exact ⟨i, hi, self_mem_add_qubits List.nodup_nil (by rwa [List.nil_append, hat])⟩

theorem mem_out_edges : b ∈ out_edges ops a ↔ Parent ops a b := by
  simp only [out_edges, List.mem_flatMap, List.mem_range, List.mem_map, List.mem_filter,
    decide_eq_true_eq, Parent]
  constructor
  · rintro ⟨j, hj, _, ⟨hk, rfl⟩, rfl⟩
    exact ⟨hj, hk⟩
  · rintro ⟨hb, ha⟩
    exact ⟨b, hb, a, ⟨ha, rfl⟩, rfl⟩

theorem mem_top : i ∈ top ops ↔ i < ops.length ∧ ∀ a, ¬ Parent ops a i := by
  rw [top, List.mem_filter, List.mem_range, decide_eq_true_eq, List.eq_nil_iff_forall_not_mem]
  exact and_congr_right fun hi ↦ forall_congr' fun a ↦ not_congr ⟨fun h ↦ ⟨hi, h⟩, fun h ↦ h.2⟩

end ScaffCC.Sched
