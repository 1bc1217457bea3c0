import ScaffCC.Sched.Op
import ScaffCC.Scheduling.Levels

/-!
# Times at which operations can start

When `add_op` gets an operation it is known what the operation depends on, and it is given the
earliest time at which it can start. The length of the schedule is the time at which everything is
done.

How long an operation takes is given when it is made. For gates that is what the script has a table
for, and for calls it is the length of the schedule of the function.
-/

open Scheduling

namespace ScaffCC.Sched

/-! ## The source -/

def func_length : OpType → ℕ
  | .START => 0
  | .END => 0
  | _ => 1

/-- The fields of the operations and of the schedule that `add_op` sets. -/
structure AsapState where
  ts : ℕ → ℤ
  dist : ℕ → ℤ
  row : ℤ → List ℕ
  bottom : List ℕ
  length : ℤ
  op_cnt : ℕ

/-- The fields at the start. -/
def AsapState.init : AsapState := ⟨fun _ ↦ -1, fun _ ↦ -1, fun _ ↦ [], [], 0, 0⟩

variable (ops : List Op) (given : ℕ → ℕ)

/-- The lengths that gates are made with. -/
def givenLength (i : ℕ) : ℕ := func_length (opAt ops i).op

/-- The field `length` of an operation. The length `0` counts as none. -/
def opLength (i : ℕ) : ℕ := if given i = 0 then 1 else given i

/-- `add_op`. An operation of the top has no edges. -/
def add_op (s : AsapState) (i : ℕ) : AsapState :=
  let time := (in_edges ops i).foldl (fun time pre ↦ max time (s.ts pre + opLength given pre)) 0
  let dist := (in_edges ops i).foldl (fun dist pre ↦ max dist (s.dist pre + 1)) 1
  let bottom := s.bottom.filter (· ∉ in_edges ops i)
  { ts := Function.update s.ts i time
    dist := Function.update s.dist i dist
    row := Function.update s.row time (s.row time ++ [i])
    bottom := if i ∈ in_edges ops i then bottom else bottom ++ [i]
    length := max s.length (time + opLength given i)
    op_cnt := s.op_cnt + 1 }

/-- The first operations are added. -/
def addOps (n : ℕ) : AsapState := (List.range n).foldl (add_op ops given) .init

/-! ## What should be found -/

/-- The operation `a` is an earlier one on one of the same qubits. -/
def Shares (a b : ℕ) : Prop :=
  a < b ∧ b < ops.length ∧ ∃ q ∈ (opAt ops a).args, q ∈ (opAt ops b).args

instance (a b : ℕ) : Decidable (Shares ops a b) :=
  inferInstanceAs (Decidable (_ ∧ _ ∧ ∃ q ∈ (opAt ops a).args, q ∈ (opAt ops b).args))

instance (a b : ℕ) : Decidable (Parent ops a b) :=
  inferInstanceAs (Decidable (b < ops.length ∧ a ∈ in_edges ops b))

/-- How long the operations of a chain take. -/
def chainLength (c : List ℕ) : ℕ := (c.map (opLength given)).sum

/-- The operation starts when the longest chain of operations before it is done. -/
def AsapRight (i : ℕ) (t : ℤ) : Prop :=
  IsGreatest {x : ℤ | ∃ c, (c ++ [i]).IsChain (Shares ops) ∧ x = chainLength given c} t

/-- The schedule is as long as the longest chain. -/
def LengthRight (t : ℤ) : Prop :=
  IsGreatest {x : ℤ | ∃ c, (∀ i ∈ c, i < ops.length) ∧ c.IsChain (Shares ops) ∧
    x = chainLength given c} t

/-- The graph of the operations that share qubits. -/
def shareDag : Dag where
  size := ops.length
  edge a b := decide (Shares ops a b)
  lt_size a b h := by
    obtain ⟨hab, hb, -⟩ := of_decide_eq_true h
    exact ⟨hab.trans hb, hb⟩
  acyclic := ⟨id, fun a b h ↦ (of_decide_eq_true h).1⟩

/-- The graph of the dependencies. -/
def parentDag (h : DistinctArgs ops) : Dag where
  size := ops.length
  edge a b := decide (Parent ops a b)
  lt_size a b hab := by
    have hparent := of_decide_eq_true hab
    exact ⟨(hparent.lt h).trans hparent.1, hparent.1⟩
  acyclic := ⟨id, fun a b hab ↦ (of_decide_eq_true hab).lt h⟩

variable {ops given} {a b i j n : ℕ} {s : AsapState}

theorem opLength_pos (given : ℕ → ℕ) (i : ℕ) : 0 < opLength given i := by
  rw [opLength]
  split_ifs with h
  · exact Nat.one_pos
  · exact Nat.pos_of_ne_zero h

/-! ## Chains of dependencies -/

theorem DistinctArgs.shares (h : DistinctArgs ops) (hab : Parent ops a b) : Shares ops a b := by
  obtain ⟨q, hqb, hlt, hqa, -⟩ := h.mem_in_edges.mp hab.2
  exact ⟨hlt, hab.1, q, hqa, hqb⟩

/-- An earlier operation on the same qubit is reached by way of those in between. -/
theorem DistinctArgs.transGen_of_shares (h : DistinctArgs ops) (hab : Shares ops a b) :
    Relation.TransGen (Parent ops) a b := by
  induction b using Nat.strong_induction_on with
  | _ b ih =>
    obtain ⟨hlt, hb, q, hqa, hqb⟩ := hab
    have hmem : a ∈ qubitOps ops b q := List.mem_flatMap.mpr ⟨a, List.mem_range.mpr hlt,
      List.mem_replicate.mpr ⟨(List.count_pos_iff.mpr hqa).ne', rfl⟩⟩
    have hne := List.ne_nil_of_mem hmem
    obtain ⟨c, hc⟩ := Option.ne_none_iff_exists'.mp (List.getLast?_eq_none_iff.not.mpr hne)
    have hlast := getLast?_qubitOps.mp hc
    have hparent : Parent ops c b := ⟨hb, h.mem_in_edges.mpr ⟨q, hqb, hlast⟩⟩
    obtain ⟨hcb, hqc, hlater⟩ := hlast
    rcases lt_trichotomy a c with hac | rfl | hca
    · exact (ih c hcb ⟨hac, hcb.trans hb, q, hqa, hqc⟩).tail hparent
    · exact .single hparent
    · exact absurd hqa (hlater a hca hlt)

theorem DistinctArgs.longest {w L : ℕ → ℕ} (h : DistinctArgs ops)
    (hL : (parentDag ops h).Longest w L) : (shareDag ops).Longest w L := by
  refine hL.of_transGen (fun a b hab ↦ ?_) fun a b hab ↦ ?_
  · exact decide_eq_true (h.shares (of_decide_eq_true hab))
  · exact Relation.TransGen.mono (fun a b hparent ↦ decide_eq_true hparent) _ _
      (h.transGen_of_shares (of_decide_eq_true hab))

/-! ## The times -/

theorem isGreatest_foldl_max {α β : Type*} [LinearOrder β] (f : α → β) (l : List α) (c : β) :
    IsGreatest (insert c {x | ∃ a ∈ l, x = f a}) (l.foldl (fun m a ↦ max m (f a)) c) := by
  induction l generalizing c with
  | nil => exact ⟨.inl rfl, by simp [upperBounds]⟩
  | cons a l ih =>
    obtain ⟨hmem, hle⟩ := ih (max c (f a))
    have hstart := hle (.inl rfl)
    refine ⟨?_, ?_⟩
    · rcases hmem with heq | ⟨b, hb, heq⟩
      · rw [List.foldl_cons, heq]
        rcases max_choice c (f a) with hmax | hmax <;> rw [hmax]
        · exact .inl rfl
        · exact .inr ⟨a, List.mem_cons_self, rfl⟩
      · exact .inr ⟨b, List.mem_cons_of_mem _ hb, heq⟩
    · rintro x (rfl | ⟨b, hb, rfl⟩)
      · exact (le_max_left ..).trans hstart
      · rcases List.mem_cons.mp hb with rfl | hb
        · exact (le_max_right ..).trans hstart
        · exact hle (.inr ⟨b, hb, rfl⟩)

theorem isLeast_foldl_min {α β : Type*} [LinearOrder β] (f : α → β) (l : List α) (c : β) :
    IsLeast (insert c {x | ∃ a ∈ l, x = f a}) (l.foldl (fun m a ↦ min m (f a)) c) :=
  isGreatest_foldl_max (fun a ↦ OrderDual.toDual (f a)) l (OrderDual.toDual c)

/-- What is known when the first operations have been added. -/
structure Added (ops : List Op) (given : ℕ → ℕ) (n : ℕ) (s : AsapState) : Prop where
  ts : ∀ i < n, IsGreatest
    (insert 0 {x | ∃ a ∈ in_edges ops i, x = s.ts a + opLength given a}) (s.ts i)
  unset : ∀ i, n ≤ i → s.ts i = -1
  row : ∀ t i, i ∈ s.row t ↔ i < n ∧ s.ts i = t
  length : IsGreatest (insert 0 {x | ∃ i < n, x = s.ts i + opLength given i}) s.length
  op_cnt : s.op_cnt = n

theorem added_init : Added ops given 0 .init where
  ts i hi := absurd hi (Nat.not_lt_zero i)
  unset i _ := rfl
  row t i := by simp [AsapState.init]
  length := ⟨.inl rfl, by simp [upperBounds, AsapState.init]⟩
  op_cnt := rfl

theorem Added.add_op (h : Added ops given n s) (hd : DistinctArgs ops) :
    Added ops given (n + 1) (add_op ops given s n) := by
  have htime := isGreatest_foldl_max (fun a ↦ s.ts a + opLength given a) (in_edges ops n) 0
  set time := (in_edges ops n).foldl (fun t a ↦ max t (s.ts a + opLength given a)) 0
  have hts : (Sched.add_op ops given s n).ts = Function.update s.ts n time := rfl
  have hlength : (Sched.add_op ops given s n).length = max s.length (time + opLength given n) := rfl
  have hrow : (Sched.add_op ops given s n).row
      = Function.update s.row time (s.row time ++ [n]) := rfl
  -- only the time of the new gate is written
  have hold : ∀ i < n, (Sched.add_op ops given s n).ts i = s.ts i := by
    intro i hi
    rw [hts, Function.update_of_ne hi.ne]
  have hnew : (Sched.add_op ops given s n).ts n = time := by rw [hts, Function.update_self]
  refine ⟨fun i hi ↦ ?_, fun i hi ↦ ?_, fun t i ↦ ?_, ?_, ?_⟩
  · have hle : i ≤ n := Nat.lt_succ_iff.mp hi
    have hset : {x | ∃ a ∈ in_edges ops i,
          x = (Sched.add_op ops given s n).ts a + opLength given a}
        = {x | ∃ a ∈ in_edges ops i, x = s.ts a + opLength given a} := by
      ext x
      refine exists_congr fun a ↦ and_congr_right fun ha ↦ ?_
      rw [hold a ((hd.lt ha).trans_le hle)]
    rw [hset]
    rcases hle.lt_or_eq with hlt | rfl
    · rw [hold i hlt]
      exact h.ts i hlt
    · rw [hnew]
      exact htime
  · rw [hts, Function.update_of_ne (by omega)]
    exact h.unset i (by omega)
  · by_cases hin : i = n
    · subst hin
      rw [hnew, hrow]
      -- the new gate is in no row yet
      have hnot : ∀ t, i ∉ s.row t := fun t hmem ↦ ((h.row t i).mp hmem).1.ne rfl
      by_cases ht : t = time
      · rw [ht, Function.update_self]
        simp
      · rw [Function.update_of_ne ht]
        simp [hnot t, Ne.symm ht]
    · have hiff : i ∈ (Sched.add_op ops given s n).row t ↔ i ∈ s.row t := by
        rw [hrow]
        by_cases ht : t = time
        · rw [ht, Function.update_self, List.mem_append, List.mem_singleton, or_iff_left hin]
        · rw [Function.update_of_ne ht]
      rw [hiff, h.row, hts, Function.update_of_ne hin]
      exact and_congr_left fun _ ↦ by omega
  · obtain ⟨hmem, hle⟩ := h.length
    have hnonneg : 0 ≤ time := htime.2 (.inl rfl)
    rw [hlength]
    refine ⟨?_, ?_⟩
    · rcases max_choice s.length (time + opLength given n) with hmax | hmax
      · rw [hmax]
        rcases hmem with heq | ⟨i, hi, heq⟩
        · exact .inl heq
        · exact .inr ⟨i, by omega, by rw [hold i hi, heq]⟩
      · exact .inr ⟨n, n.lt_succ_self, by rw [hmax, hnew]⟩
    · rintro x (rfl | ⟨i, hi, rfl⟩)
      · exact (hle (.inl rfl)).trans (le_max_left ..)
      · rcases Nat.lt_succ_iff_lt_or_eq.mp hi with hi | rfl
        · rw [hold i hi]
          exact (hle (.inr ⟨i, hi, rfl⟩)).trans (le_max_left ..)
        · rw [hnew]
          exact le_max_right ..
  · exact congrArg (· + 1) h.op_cnt

theorem addOps_succ : addOps ops given (n + 1) = add_op ops given (addOps ops given n) n := by
  rw [addOps, List.range_succ, List.foldl_append, List.foldl_cons, List.foldl_nil, ← addOps]

theorem DistinctArgs.added (hd : DistinctArgs ops) (n : ℕ) :
    Added ops given n (addOps ops given n) := by
  induction n with
  | zero => exact added_init
  | succ n ih =>
    rw [addOps_succ]
    exact ih.add_op hd

theorem Added.nonneg (h : Added ops given n s) (hi : i < n) : 0 ≤ s.ts i := (h.ts i hi).2 (.inl rfl)

/-- The time at which an operation is done is the greatest length of a chain that ends with it. -/
theorem Added.longest (h : Added ops given ops.length s) (hd : DistinctArgs ops) :
    (parentDag ops hd).Longest (opLength given) fun i ↦ (s.ts i).toNat + opLength given i where
  source i hi := by
    by_cases hlt : i < ops.length
    · rcases (h.ts i hlt).1 with heq | ⟨a, ha, -⟩
      · rw [heq, Int.toNat_zero, zero_add]
      · exact absurd (decide_eq_true (p := Parent ops a i) ⟨hlt, ha⟩) (hi a)
    · rw [h.unset i (not_lt.mp hlt)]
      exact zero_add _
  le a i hai := by
    have hparent : Parent ops a i := of_decide_eq_true hai
    have hle := (h.ts i hparent.1).2 (.inr ⟨a, hparent.2, rfl⟩)
    have hnonneg := h.nonneg ((hparent.lt hd).trans hparent.1)
    have hnonneg' := h.nonneg hparent.1
    omega
  attained a i hai := by
    have hparent : Parent ops a i := of_decide_eq_true hai
    rcases (h.ts i hparent.1).1 with heq | ⟨b, hb, heq⟩
    · have hle := (h.ts i hparent.1).2 (.inr ⟨a, hparent.2, rfl⟩)
      have hnonneg := h.nonneg ((hparent.lt hd).trans hparent.1)
      have hpos := opLength_pos given a
      omega
    · have hb' : Parent ops b i := ⟨hparent.1, hb⟩
      have hnonneg := h.nonneg ((hb'.lt hd).trans hparent.1)
      have hnonneg' := h.nonneg hparent.1
      exact ⟨b, decide_eq_true hb', by omega⟩

theorem isChain_shareDag {c : List ℕ} :
    c.IsChain (fun a b ↦ (shareDag ops).edge a b = true) ↔ c.IsChain (Shares ops) := by
  simp only [shareDag, decide_eq_true_eq]

theorem chainLength_concat (c : List ℕ) :
    chainLength given (c ++ [i]) = chainLength given c + opLength given i := by
  rw [chainLength, chainLength, List.map_append, List.sum_append, List.map_singleton,
    List.sum_singleton]

/-- **The times.** An operation starts when the longest chain before it is done. -/
theorem DistinctArgs.asapRight (hd : DistinctArgs ops) (hi : i < ops.length) :
    AsapRight ops given i ((addOps ops given ops.length).ts i) := by
  have hadded : Added ops given ops.length _ := hd.added ops.length
  have hnonneg := hadded.nonneg hi
  obtain ⟨⟨c, hc, hsum⟩, hle⟩ := (hd.longest (hadded.longest hd)).isGreatest hi
  refine ⟨⟨c, isChain_shareDag.mp hc, ?_⟩, ?_⟩
  · rw [← chainLength, chainLength_concat] at hsum
    omega
  · rintro _ ⟨c, hc, rfl⟩
    have hle := hle ⟨c, isChain_shareDag.mpr hc, rfl⟩
    rw [← chainLength, chainLength_concat] at hle
    omega

/-- **The length** is that of the longest chain. -/
theorem DistinctArgs.lengthRight (hd : DistinctArgs ops) :
    LengthRight ops given (addOps ops given ops.length).length := by
  have hadded : Added ops given ops.length _ := hd.added ops.length
  have hlongest := hd.longest (hadded.longest hd)
  obtain ⟨hmem, hle⟩ := hadded.length
  refine ⟨?_, ?_⟩
  · rcases hmem with heq | ⟨i, hi, heq⟩
    · exact ⟨[], List.forall_mem_nil _, .nil, heq⟩
    · obtain ⟨c, hc, hlt, hsum⟩ := hlongest.exists_sum_eq hi
      have hnonneg := hadded.nonneg hi
      refine ⟨c ++ [i], hlt, isChain_shareDag.mp hc, ?_⟩
      rw [chainLength, hsum]
      omega
  · rintro _ ⟨c, hlt, hc, rfl⟩
    rcases List.eq_nil_or_concat c with rfl | ⟨c, i, rfl⟩
    · exact hle (.inl rfl)
    · rw [List.concat_eq_append] at hlt hc ⊢
      have hi : i < ops.length := hlt i (by simp)
      have hsum := hlongest.sum_le (isChain_shareDag.mpr hc)
      have hdone := hle (.inr ⟨i, hi, rfl⟩)
      have hnonneg := hadded.nonneg hi
      rw [← chainLength] at hsum
      omega

/-! ## The bottom -/

theorem le_of_mem_add_qubits {before rest : List Ident} (h : a ∈ add_qubits ops i before rest) :
    a ≤ i := by
  induction rest generalizing before with
  | nil => exact absurd h List.not_mem_nil
  | cons q rest ih =>
    rw [add_qubits, get_dep_append, List.mem_append, Option.mem_toList] at h
    rcases h with h | h
    · split_ifs at h
      · exact (getLast?_qubitOps.mp h).1.le
      · exact (Option.some.inj h).ge
    · exact ih h

theorem mem_bottom_addOps (ops : List Op) (given : ℕ → ℕ) (n : ℕ) :
    i ∈ (addOps ops given n).bottom ↔ i < n ∧ ∀ j < n, i ∉ in_edges ops j := by
  induction n with
  | zero => simp [addOps, AsapState.init]
  | succ n ih =>
    have hmem : i ∈ (addOps ops given (n + 1)).bottom ↔
        (i ∈ (addOps ops given n).bottom ∧ i ∉ in_edges ops n) ∨ (i = n ∧ n ∉ in_edges ops n) := by
      rw [addOps_succ, add_op]
      split_ifs with hself <;> simp [hself]
    rw [hmem, ih]
    constructor
    · rintro (⟨⟨hi, hchild⟩, hn⟩ | ⟨rfl, hself⟩)
      · refine ⟨by omega, fun j hj ↦ ?_⟩
        rcases Nat.lt_succ_iff_lt_or_eq.mp hj with hj | rfl
        · exact hchild j hj
        · exact hn
      · refine ⟨i.lt_succ_self, fun j hj ↦ ?_⟩
        rcases Nat.lt_succ_iff_lt_or_eq.mp hj with hj | rfl
        · exact fun h ↦ absurd (le_of_mem_add_qubits h) (Nat.not_le.mpr hj)
        · exact hself
    · rintro ⟨hi, hchild⟩
      rcases Nat.lt_succ_iff_lt_or_eq.mp hi with hi | rfl
      · exact .inl ⟨⟨hi, fun j hj ↦ hchild j (by omega)⟩, hchild n n.lt_succ_self⟩
      · exact .inr ⟨rfl, hchild i i.lt_succ_self⟩

theorem nodup_bottom_addOps (ops : List Op) (given : ℕ → ℕ) (n : ℕ) :
    (addOps ops given n).bottom.Nodup := by
  induction n with
  | zero => exact List.nodup_nil
  | succ n ih =>
    rw [addOps_succ, add_op]
    have hfilter := ih.filter (· ∉ in_edges ops n)
    split_ifs with hself
    · exact hfilter
    · refine List.nodup_append.mpr ⟨hfilter, List.nodup_singleton n, fun i hi j hj ↦ ?_⟩
      rw [List.mem_singleton.mp hj]
      exact ((mem_bottom_addOps ops given n).mp (List.mem_of_mem_filter hi)).1.ne

end ScaffCC.Sched
