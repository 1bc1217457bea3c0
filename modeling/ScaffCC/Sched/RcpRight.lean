import ScaffCC.Sched.Rcp

/-!
# Ready-critical-path schedules

What is chosen for a region is not empty as long as something is ready, so every timestep places an
operation and the loop ends with a complete schedule. The size that is compared with the width is
that of the operations taken before. It bounds the qubits of the next one only because operations of
one type have equally many.
-/

open Scheduling

namespace ScaffCC.Sched

variable {ops : List Op} {P : RcpParams}

/-! ## The choice for a region -/

theorem low_lt_rcp_op_weight (loc : Ident → ℕ) (i simd : ℕ) :
    -2 ^ 63 < rcp_op_weight ops P loc i simd := by
  rw [rcp_op_weight, slack, Int.mul_zero, add_zero, dist]
  split_ifs with h
  · rw [Int.mul_one]
    exact P.low.2
  · rw [Int.mul_zero, add_zero]
    exact P.low.1

/-- The type chosen is that of an operation in the hash. -/
theorem exists_op_rcp_calc_weights (ops : List Op) (P : RcpParams) (loc : Ident → ℕ) (simd : ℕ)
    {keys : List ℕ} (h : keys ≠ []) :
    ∃ i ∈ keys, (rcp_calc_weights ops P loc simd keys).op = some (opAt ops i).op := by
  induction keys using List.reverseRecOn with
  | nil => exact absurd rfl h
  | append_singleton keys i ih =>
    rw [rcp_calc_weights, List.foldl_append, List.foldl_cons, List.foldl_nil, ← rcp_calc_weights,
      Weights.add]
    split_ifs with hmax
    · exact ⟨i, List.mem_append_right keys List.mem_cons_self, rfl⟩
    · rcases eq_or_ne keys [] with rfl | hkeys
      · refine absurd ?_ hmax
        rw [Function.update_self, rcp_calc_weights, List.foldl_nil, Weights.init, zero_add]
        exact low_lt_rcp_op_weight loc i simd
      · obtain ⟨j, hj, hop⟩ := ih hkeys
        exact ⟨j, List.mem_append_left _ hj, hop⟩

variable {optype : Option OpType} {size : ℕ} {ret keys : List ℕ} {i : ℕ}

theorem rcpq_extract_optype_spec (ops : List Op) (P : RcpParams) (optype : Option OpType)
    (size : ℕ) (ret keys : List ℕ) : ∃ l, l.Sublist keys ∧
      (∀ i ∈ l, some (opAt ops i).op = optype) ∧
      rcpq_extract_optype ops P optype size ret keys = ret ++ l := by
  induction keys generalizing size ret with
  | nil =>
    exact ⟨[], List.Sublist.refl [], List.forall_mem_nil _, by
      rw [rcpq_extract_optype, List.append_nil]⟩
  | cons i keys ih =>
    rw [rcpq_extract_optype]
    split_ifs with hsize hop
    · obtain ⟨l, hsub, hl, heq⟩ := ih (size ||| (opAt ops i).args.length) (ret ++ [i])
      refine ⟨i :: l, hsub.cons_cons i, List.forall_mem_cons.mpr ⟨hop, hl⟩, ?_⟩
      rw [heq, List.append_assoc, List.singleton_append]
    · obtain ⟨l, hsub, hl, heq⟩ := ih size ret
      exact ⟨l, hsub.cons i, hl, heq⟩
    · exact ⟨[], List.nil_sublist _, List.forall_mem_nil _, (List.append_nil ret).symm⟩

theorem rcpq_extract_optype_ne_nil (hd : 1 ≤ P.simd_d) (hi : i ∈ keys)
    (hop : some (opAt ops i).op = optype) : rcpq_extract_optype ops P optype 0 [] keys ≠ [] := by
  induction keys with
  | nil => exact absurd hi List.not_mem_nil
  | cons j keys ih =>
    rw [rcpq_extract_optype, if_pos (by omega)]
    split_ifs with hj
    · obtain ⟨l, -, -, heq⟩ := rcpq_extract_optype_spec ops P optype
        (0 ||| (opAt ops j).args.length) ([] ++ [j]) keys
      rw [heq]
      exact List.cons_ne_nil j l
    · refine ih ((List.mem_cons.mp hi).resolve_left ?_)
      rintro rfl
      exact hj hop

/-- The qubits of what is extracted fit into the region, if each operation of the type has `a` of
them and one operation fits. -/
theorem mul_length_rcpq_extract_optype_le {a : ℕ} (ha : a ≤ P.simd_d)
    (hkeys : ∀ i ∈ keys, some (opAt ops i).op = optype → (opAt ops i).args.length = a)
    (hsize : ret = [] ∧ size = 0 ∨ size = a) (hret : a * ret.length ≤ P.simd_d) :
    a * (rcpq_extract_optype ops P optype size ret keys).length ≤ P.simd_d := by
  induction keys generalizing size ret with
  | nil => exact hret
  | cons i keys ih =>
    obtain ⟨hi, hkeys'⟩ := List.forall_mem_cons.mp hkeys
    rw [rcpq_extract_optype]
    split_ifs with hlt hop
    · refine ih hkeys' (.inr ?_) ?_
      · rw [hi hop]
        rcases hsize with ⟨-, rfl⟩ | rfl
        · exact Nat.zero_or a
        · exact Nat.or_self size
      · rw [List.length_append, List.length_singleton]
        rcases hsize with ⟨rfl, -⟩ | rfl
        · rwa [List.length_nil, Nat.zero_add, Nat.mul_one]
        · rw [Nat.add_comm]
          exact hlt.le
    · exact ih hkeys' hsize hret
    · exact hret

/-! ## A timestep -/

/-- An operation is claimed when it is placed. -/
def Claimed (s : Schedule) (i : ℕ) : Prop := s.slot i ≠ none

variable {simd : ℕ}

/-- What is true while the regions are filled. -/
structure RcpInv (ops : List Op) (P : RcpParams) (s : RcpState) : Prop where
  tracks : Tracks ops P.simd_k s.ts (Claimed s.sched) s.sched s.rcpq
  timely : Timely (Parent ops) s.sched.time
  nodup : s.rcpq.Nodup
  count : s.op_cnt = s.sched.schedule.length
  types : ∀ x, ∀ i ∈ s.sched.opsAt x, ∀ j ∈ s.sched.opsAt x, (opAt ops i).op = (opAt ops j).op
  width : ∀ x, (operandsAt ops s.sched x).length ≤ P.simd_d

/-- What the operation list has to be like. -/
structure Fits (ops : List Op) (P : RcpParams) : Prop where
  distinct : DistinctArgs ops
  arity : SameArity ops
  width : ∀ op ∈ ops, op.args.length ≤ P.simd_d
  k_pos : 1 ≤ P.simd_k
  d_pos : 1 ≤ P.simd_d

theorem length_flatMap_args {is : List ℕ} {a : ℕ} (h : ∀ i ∈ is, (opAt ops i).args.length = a) :
    (is.flatMap fun i ↦ (opAt ops i).args).length = a * is.length := by
  induction is with
  | nil => rfl
  | cons i is ih =>
    obtain ⟨hi, his⟩ := List.forall_mem_cons.mp h
    rw [List.flatMap_cons, List.length_append, ih his, hi, List.length_cons, Nat.mul_succ,
      Nat.add_comm]

/-- What is chosen for a region: ready operations of one type, at least one, that fit. -/
theorem Fits.chosen (hfits : Fits ops P) (simd : ℕ) {s : RcpState} (h : RcpInv ops P s)
    (hready : s.rcpq ≠ []) :
    let keys := P.order.keys s.ts simd s.rcpq
    let ret := rcpq_extract_optype ops P
      (rcp_calc_weights ops P s.locations.loc simd keys).op 0 [] keys
    (ret.Nodup ∧ ret ⊆ s.rcpq ∧ ret ≠ []) ∧
      (∀ i ∈ ret, ∀ j ∈ ret, (opAt ops i).op = (opAt ops j).op) ∧
        (ret.flatMap fun i ↦ (opAt ops i).args).length ≤ P.simd_d := by
  intro keys
  have hkeys : keys.Perm s.rcpq := P.order.perm s.ts simd s.rcpq
  have hmem : ∀ i ∈ keys, opAt ops i ∈ ops := by
    intro i hi
    have hlt := ((h.tracks.ready i).mp (hkeys.mem_iff.mp hi)).1
    rw [opAt, List.getD_eq_getElem _ _ hlt]
    exact List.getElem_mem hlt
  obtain ⟨i₀, hi₀, hop⟩ := exists_op_rcp_calc_weights ops P s.locations.loc simd
    fun hnil ↦ hready (List.perm_nil.mp (hnil ▸ hkeys.symm))
  rw [hop]
  intro ret
  obtain ⟨l, hsub, hl, hret⟩ := rcpq_extract_optype_spec ops P (some (opAt ops i₀).op) 0 [] keys
  rw [List.nil_append] at hret
  have hlret : ret = l := hret
  have hops : ∀ i ∈ ret, (opAt ops i).op = (opAt ops i₀).op := fun i hi ↦
    Option.some_injective _ (hl i (hlret ▸ hi))
  have harity : ∀ i ∈ keys, some (opAt ops i).op = some (opAt ops i₀).op →
      (opAt ops i).args.length = (opAt ops i₀).args.length := fun i hi heq ↦
    hfits.arity _ (hmem i hi) _ (hmem i₀ hi₀) (Option.some_injective _ heq)
  refine ⟨⟨hlret ▸ hsub.nodup (hkeys.nodup_iff.mpr h.nodup),
    fun i hi ↦ hkeys.mem_iff.mp (hsub.subset (hlret ▸ hi)),
    rcpq_extract_optype_ne_nil hfits.d_pos hi₀ rfl⟩,
    fun i hi j hj ↦ (hops i hi).trans (hops j hj).symm, ?_⟩
  rw [length_flatMap_args fun i hi ↦
    harity i (hsub.subset (hlret ▸ hi)) (congrArg some (hops i hi))]
  exact mul_length_rcpq_extract_optype_le (hfits.width _ (hmem i₀ hi₀)) harity (.inl ⟨rfl, rfl⟩)
    (Nat.zero_le _)

theorem RcpInv.rcp_sched_next_simd {s : RcpState} (h : RcpInv ops P s) (hfits : Fits ops P)
    (hpos : 1 ≤ simd) (hle : simd ≤ P.simd_k) (hfree : s.sched.opsAt (s.ts, simd) = [])
    (hready : s.rcpq ≠ []) :
    RcpInv ops P (rcp_sched_next_simd ops P simd s) ∧
      s.op_cnt < (Sched.rcp_sched_next_simd ops P simd s).op_cnt ∧
      ∀ r, r ≠ simd → (Sched.rcp_sched_next_simd ops P simd s).sched.opsAt (s.ts, r)
        = s.sched.opsAt (s.ts, r) := by
  obtain ⟨⟨hnodup, hsub, hne⟩, htypes, hwidth⟩ := hfits.chosen simd h hready
  rw [Sched.rcp_sched_next_simd]
  set keys := P.order.keys s.ts simd s.rcpq
  set ret := rcpq_extract_optype ops P
    (rcp_calc_weights ops P s.locations.loc simd keys).op 0 [] keys
  obtain ⟨hplaced, htimely, -, hsched⟩ := h.tracks.sched_ops hpos hle hnodup hsub
  have htracks := hplaced.congr fun j ↦
    h.tracks.consistent.slot_ne_none_iff (b := j) hplaced.consistent hsched
  have hat := Placement.opsAt_of_schedule_eq hsched
  -- the region gets what was chosen, the others keep what they had
  have hthis : (sched_ops ops s.sched ret s.ts simd).opsAt (s.ts, simd) = ret := by
    rw [hat, hfree, if_pos rfl, List.nil_append]
  have hother : ∀ x, x ≠ (s.ts, simd) →
      (sched_ops ops s.sched ret s.ts simd).opsAt x = s.sched.opsAt x := by
    intro x hx
    rw [hat, if_neg hx, List.append_nil]
  refine ⟨⟨htracks, htimely h.timely, h.nodup.filter _, ?_, fun x ↦ ?_, fun x ↦ ?_⟩, ?_,
    fun r hr ↦ ?_⟩
  · change s.op_cnt + (Placement.opsAt _ _).length = _
    rw [hthis, hsched, h.count, List.length_append, List.length_map]
  · by_cases hx : x = (s.ts, simd)
    · rw [hx, hthis]
      exact htypes
    · rw [hother x hx]
      exact h.types x
  · change ((Placement.opsAt _ x).flatMap _).length ≤ _
    by_cases hx : x = (s.ts, simd)
    · rw [hx, hthis]
      exact hwidth
    · rw [hother x hx]
      exact h.width x
  · change s.op_cnt < s.op_cnt + (Placement.opsAt _ _).length
    rw [hthis]
    have := List.length_pos_iff.mpr hne
    omega
  · exact hother _ fun heq ↦ hr (Prod.ext_iff.mp heq).2

theorem RcpInv.fillRegions {s : RcpState} (h : RcpInv ops P s) (hfits : Fits ops P) {rs : List ℕ}
    (hrs : ∀ r ∈ rs, 1 ≤ r ∧ r ≤ P.simd_k) (hnodup : rs.Nodup)
    (hfree : ∀ r ∈ rs, s.sched.opsAt (s.ts, r) = []) :
    RcpInv ops P (fillRegions ops P rs s) ∧ (Sched.fillRegions ops P rs s).ts = s.ts ∧
      s.op_cnt ≤ (Sched.fillRegions ops P rs s).op_cnt ∧
      (rs ≠ [] → s.rcpq ≠ [] → s.op_cnt < (Sched.fillRegions ops P rs s).op_cnt) := by
  induction rs generalizing s with
  | nil => exact ⟨h, rfl, le_rfl, fun hne ↦ absurd rfl hne⟩
  | cons r rs ih =>
    rw [Sched.fillRegions]
    split_ifs with hready
    · exact ⟨h, rfl, le_rfl, fun _ hne ↦ absurd hready hne⟩
    · obtain ⟨hr, hrs'⟩ := List.forall_mem_cons.mp hrs
      obtain ⟨hfree₀, hfree'⟩ := List.forall_mem_cons.mp hfree
      rw [List.nodup_cons] at hnodup
      obtain ⟨hinv, hlt, hother⟩ := h.rcp_sched_next_simd hfits hr.1 hr.2 hfree₀ hready
      have hfree'' : ∀ r' ∈ rs, (Sched.rcp_sched_next_simd ops P r s).sched.opsAt (s.ts, r') = [] :=
        fun r' hr' ↦ (hother r' fun heq ↦ hnodup.1 (heq ▸ hr')).trans (hfree' r' hr')
      obtain ⟨hinv', hts, hle, -⟩ := ih hinv hrs' hnodup.2 hfree''
      exact ⟨hinv', hts, hlt.le.trans hle, fun _ _ ↦ hlt.trans_le hle⟩

theorem RcpInv.endTimestep {s : RcpState} (h : RcpInv ops P s) :
    RcpInv ops P (endTimestep ops P s) := by
  have hplaced : ∀ {a x}, s.sched.slot a = some x → x.1 ≤ s.ts ∧ 1 ≤ x.2 ∧ x.2 ≤ P.simd_k :=
    fun hx ↦ (h.tracks.placed _ _ hx).2
  have hadded : ∀ c, c ∈ ((List.range' 1 P.simd_k).flatMap fun simd ↦
        (s.sched.opsAt (s.ts, simd)).flatMap (get_ready_children ops s.sched)) ↔
      (∃ a simd, s.sched.slot a = some (s.ts, simd) ∧ c ∈ get_ready_children ops s.sched a) ∧
        ¬ Claimed s.sched c := by
    intro c
    simp only [List.mem_flatMap, List.mem_range'_1, Placement.mem_opsAt, h.tracks.consistent.mem]
    constructor
    · rintro ⟨simd, -, a, ha, hc⟩
      refine ⟨⟨a, simd, ha, hc⟩, fun hclaimed ↦ ?_⟩
      -- a child placed already would not be later than its parent
      obtain ⟨x, hx⟩ := Option.ne_none_iff_exists'.mp hclaimed
      refine not_timely (mem_out_edges.mp (List.mem_filter.mp hc).1)
        (Placement.time_eq_some.mpr ⟨x.2, hx⟩) (fun m hm ↦ ?_) h.timely
      rw [Placement.time_eq_some.mpr ⟨simd, ha⟩, Option.some.injEq] at hm
      exact hm ▸ (hplaced hx).1
    · rintro ⟨⟨a, simd, ha, hc⟩, -⟩
      obtain ⟨-, hpos, hle⟩ := hplaced ha
      dsimp only at hpos hle
      exact ⟨simd, by omega, a, ha, hc⟩
  exact ⟨h.tracks.next hadded, h.timely, h.nodup.union _, h.count, h.types, h.width⟩

/-! ## The run -/

theorem RcpInv.rcpLoop {s : RcpState} (h : RcpInv ops P s) (hfits : Fits ops P) {n : ℕ}
    (hbefore : ∀ i x, s.sched.slot i = some x → x.1 < s.ts) (hn : n + s.ts = ops.length + 1)
    (hts : s.ts ≤ s.op_cnt) :
    RcpInv ops P (rcpLoop ops P n s) ∧
      (Sched.rcpLoop ops P n s).sched.Complete (List.range ops.length) := by
  have hlength := h.tracks.consistent.length_le fun i hi ↦ h.tracks.mem_range hi
  rw [List.length_range, ← h.count] at hlength
  induction n generalizing s with
  | zero => omega
  | succ n ih =>
    rw [Sched.rcpLoop]
    split_ifs with hgo
    · have hfree : ∀ r ∈ List.range' 1 P.simd_k, s.sched.opsAt (s.ts, r) = [] := by
        intro r _
        rw [List.eq_nil_iff_forall_not_mem]
        intro i hi
        have hlt := hbefore i _ ((h.tracks.consistent.mem _ i).mp (Placement.mem_opsAt.mp hi))
        exact absurd hlt (lt_irrefl _)
      obtain ⟨hinv, hts', -, hlt⟩ := h.fillRegions hfits
        (fun r hr ↦ by rw [List.mem_range'_1] at hr; omega) List.nodup_range' hfree
      have hlt := hlt (by simpa using Nat.pos_iff_ne_zero.mp hfits.k_pos) hgo.1
      have hend := hinv.endTimestep
      have hts'' : (Sched.endTimestep ops P
          (Sched.fillRegions ops P (List.range' 1 P.simd_k) s)).ts = s.ts + 1 :=
        congrArg (· + 1) hts'
      have hcnt : (Sched.endTimestep ops P
          (Sched.fillRegions ops P (List.range' 1 P.simd_k) s)).op_cnt
          = (Sched.fillRegions ops P (List.range' 1 P.simd_k) s).op_cnt := rfl
      have hlength' := hend.tracks.consistent.length_le fun i hi ↦ hend.tracks.mem_range hi
      rw [List.length_range, ← hend.count] at hlength'
      refine ih hend (fun i x hx ↦ ?_) (by omega) (by omega) hlength'
      rw [hts'', ← hts']
      exact Nat.lt_succ_of_le (hinv.tracks.placed i x hx).2.1
    · refine ⟨h, h.tracks.complete (le_of_not_gt fun hlt ↦ ?_)⟩
      obtain ⟨i, hi, hnone, hready, -⟩ := h.tracks.exists_first hfits.distinct hbefore hlt
      refine hgo ⟨List.ne_nil_of_mem ((h.tracks.ready i).mpr ⟨hi, not_not.mpr hnone, hready⟩), ?_⟩
      rwa [h.count]

theorem rcpInv_init : RcpInv ops P (rcp_init ops) := by
  refine ⟨tracks_start fun i ↦ ?_, timely_none, List.nodup_range.filter _, rfl,
    fun x ↦ List.forall_mem_nil _, fun x ↦ Nat.zero_le _⟩
  exact (and_iff_left (not_not.mpr rfl)).symm

/-- **RCP schedules are right**, whatever the order in which `$rcpq` is gone through, if no
operation names a qubit twice, operations of one type have equally many operands, each operation
fits into a region and there is a region. -/
theorem rcpRight (hfits : Fits ops P) : RcpRight ops P (rcp ops P).sched := by
  obtain ⟨h, hcomplete⟩ := (rcpInv_init (P := P)).rcpLoop hfits
    (fun i x hx ↦ absurd hx.symm (Option.some_ne_none x)) rfl le_rfl
  exact ⟨hcomplete, h.timely, h.tracks.length_regionsAt_le, h.types, h.width⟩

/-- A CNOT between single gates. -/
private def aroundCNOT : List Op :=
  [opOn .H ['a'], opOn .H ['b'], opOn .T ['c'], opOn .CNOT ['a', 'b'], opOn .H ['b']]

theorem rcpRight_aroundCNOT : RcpRight aroundCNOT (.default 2 2)
    (rcp aroundCNOT (.default 2 2)).sched :=
  rcpRight ⟨by decide, by decide, by decide, by decide, by decide⟩

/-- **Where RCP fails.** An operation that names a qubit twice is its own parent and is not placed.
And if two operations of one type have different numbers of operands, the size of the first says
nothing about that of the second, which may not fit next to it. -/
theorem not_rcpRight :
    ((∀ op ∈ [opOn .CNOT ['a', 'a']], op.args.length ≤ 2) ∧
      ¬ RcpRight [opOn .CNOT ['a', 'a']] (.default 1 2)
        (rcp [opOn .CNOT ['a', 'a']] (.default 1 2)).sched) ∧
    (∀ op ∈ [opOn .X ['a'], opOn .X ['b', 'c', 'd']], op.args.length ≤ 3) ∧
      ¬ RcpRight [opOn .X ['a'], opOn .X ['b', 'c', 'd']] (.default 1 3)
        (rcp [opOn .X ['a'], opOn .X ['b', 'c', 'd']] (.default 1 3)).sched := by
  refine ⟨⟨by decide, fun h ↦ ?_⟩, by decide, fun h ↦ ?_⟩
  · exact absurd h.complete.length_eq (by decide)
  · exact absurd (h.width (0, 1)) (by decide)

end ScaffCC.Sched
