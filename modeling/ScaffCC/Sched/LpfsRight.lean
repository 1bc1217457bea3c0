import ScaffCC.Sched.LpfsInv

/-!
# Longest-path-first schedules

At each timestep something is placed: the first operation that is left is ready, and it is the next
one of its path or in the hash, from which the free regions take something. So every operation is
placed once. A schedule is timely exactly when no region overtakes.
-/

open Scheduling

namespace ScaffCC.Sched

variable {ops : List Op} {P : LpfsParams} {s s' : LpfsState} {simd : ℕ}

/-! ## A region for other operations -/

theorem LpfsInv.freeRegion (h : LpfsInv ops P s) (hpos : 1 ≤ simd) (hle : simd ≤ P.SIMD_K) :
    ∃ s', freeRegion ops P s simd = some s' ∧ Advances ops P s s' ∧
      (Timely (Parent ops) s.sched.time → Timely (Parent ops) s'.sched.time) ∧
      (s.ready ≠ [] → s.op_cnt < s'.op_cnt) := by
  rw [Sched.freeRegion]
  cases hmin : s.ready.min? with
  | none =>
    rw [List.min?_eq_none_iff] at hmin
    exact ⟨s, rfl, .refl h, id, fun hne ↦ absurd hmin hne⟩
  | some i =>
    have hi : i ∈ s.ready := List.min?_mem hmin
    dsimp only
    set is := if P.opp then lpfs_extract_optype ops P (opAt ops i).op simd s else [i] with his
    obtain ⟨hnodup, hsub, hne⟩ : is.Nodup ∧ is ⊆ s.ready ∧ is ≠ [] := by
      rw [his]
      split_ifs with hopp
      · obtain ⟨hnodup, hsub⟩ := lpfs_extract_optype_nodup ops P (opAt ops i).op simd h.nodup
        refine ⟨hnodup, hsub, ?_⟩
        rw [lpfs_extract_optype, ne_eq, List.take_eq_nil_iff, not_or]
        refine ⟨P.d_pos.ne', List.ne_nil_of_mem (List.mem_filter.mpr ⟨?_, decide_eq_true rfl⟩)⟩
        exact (P.order.perm s.ts simd s.ready).mem_iff.mpr hi
      · exact ⟨List.nodup_singleton i, by simpa using hi, List.cons_ne_nil i []⟩
    have hgo : ¬ (is = [] ∨ (¬ P.opp ∧ ¬ op_ready ops s.sched i)) := by
      rw [not_or, not_and_or, not_not]
      exact ⟨hne, .inr (not_not.mpr (h.tracks.op_ready hi))⟩
    rw [if_neg hgo]
    obtain ⟨hadvance, htimely, hlt⟩ := h.takeAll hnodup hsub hpos hle
    exact ⟨_, rfl, hadvance, htimely, fun _ ↦ hlt hne⟩

theorem LpfsInv.foldlM_freeRegion (h : LpfsInv ops P s) {rs : List ℕ}
    (hrs : ∀ r ∈ rs, 1 ≤ r ∧ r ≤ P.SIMD_K) :
    ∃ s', rs.foldlM (Sched.freeRegion ops P) s = some s' ∧ Advances ops P s s' ∧
      (Timely (Parent ops) s.sched.time → Timely (Parent ops) s'.sched.time) ∧
      (rs ≠ [] → s.ready ≠ [] → s.op_cnt < s'.op_cnt) := by
  induction rs generalizing s with
  | nil => exact ⟨s, rfl, .refl h, id, fun hne ↦ absurd rfl hne⟩
  | cons r rs ih =>
    obtain ⟨hr, hrs'⟩ := List.forall_mem_cons.mp hrs
    obtain ⟨s₁, hs₁, hadvance, htimely, hlt⟩ := h.freeRegion hr.1 hr.2
    obtain ⟨s₂, hs₂, hadvance', htimely', -⟩ := ih hadvance.inv hrs'
    refine ⟨s₂, ?_, hadvance.trans hadvance', htimely' ∘ htimely,
      fun _ hne ↦ (hlt hne).trans_le hadvance'.le⟩
    rw [List.foldlM_cons, hs₁]
    exact hs₂

/-! ## The regions for paths -/

/-- The regions for paths keep the invariant, and if the next operation of one of them is ready,
something is placed. -/
theorem LpfsInv.foldl_pathRegion (h : LpfsInv ops P s) {rs : List ℕ}
    (hrs : ∀ r ∈ rs, 1 ≤ r ∧ r ≤ P.SIMD_K) :
    Advances ops P s (rs.foldl (Sched.pathRegion ops P) s) ∧
      ((∃ r ∈ rs, ∃ i ∈ (s.simds r).head?, op_ready ops s.sched i) →
        s.op_cnt < (rs.foldl (Sched.pathRegion ops P) s).op_cnt) := by
  induction rs generalizing s with
  | nil => exact ⟨.refl h, fun ⟨r, hr, _⟩ ↦ absurd hr List.not_mem_nil⟩
  | cons r rs ih =>
    obtain ⟨hr, hrs'⟩ := List.forall_mem_cons.mp hrs
    obtain ⟨hadvance, hlt, -⟩ := h.pathRegion hr.2 hr.1
    obtain ⟨hadvance', hlt'⟩ := ih hadvance.inv hrs'
    refine ⟨hadvance.trans hadvance', ?_⟩
    rintro ⟨r', hr', i, hi, hready⟩
    rcases hadvance.progress with hlt₁ | ⟨hcnt, hsched, -, hsimds⟩
    · exact hlt₁.trans_le hadvance'.le
    · rcases List.mem_cons.mp hr' with rfl | hr'
      · exact absurd (hlt ⟨i, hi, hready⟩) (by rw [hcnt]; exact lt_irrefl _)
      · rw [← hcnt]
        exact hlt' ⟨r', hr', i, hsimds ▸ hi, hsched ▸ hready⟩

theorem LpfsInv.timely_foldl_pathRegion (h : LpfsInv ops P s) {rs : List ℕ}
    (hrs : ∀ r ∈ rs, 1 ≤ r ∧ r ≤ P.SIMD_K) :
    (Timely (Parent ops) s.sched.time → PathsInOrder ops P rs s →
        Timely (Parent ops) (rs.foldl (Sched.pathRegion ops P) s).sched.time) ∧
      ∀ s', (rs.foldl (Sched.pathRegion ops P) s).sched.Extends s' →
        Timely (Parent ops) s'.time → PathsInOrder ops P rs s := by
  induction rs generalizing s with
  | nil => exact ⟨fun ht _ ↦ ht, fun _ _ _ ↦ trivial⟩
  | cons r rs ih =>
    obtain ⟨hr, hrs'⟩ := List.forall_mem_cons.mp hrs
    obtain ⟨hadvance, -, htimely, hnot⟩ := h.pathRegion hr.2 hr.1
    obtain ⟨htimely', hback⟩ := ih hadvance.inv hrs'
    have hrest := (hadvance.inv.foldl_pathRegion hrs').1.extends'
    refine ⟨fun ht ⟨hover, hrest⟩ ↦ htimely' (htimely ht hover) hrest, fun s' hext ht ↦ ?_⟩
    exact ⟨fun hover ↦ hnot hover s' (hrest.trans hext) ht, hback s' hext ht⟩

/-! ## A timestep -/

theorem mem_regionsAt {s : Schedule} {n r : ℕ} :
    r ∈ regionsAt s n ↔ ∃ a, ((n, r), a) ∈ s.schedule := by
  rw [regionsAt, List.mem_dedup, List.mem_map]
  constructor
  · rintro ⟨⟨⟨m, r⟩, a⟩, hmem, rfl⟩
    obtain ⟨hx, hm⟩ := List.mem_filter.mp hmem
    obtain rfl : m = n := of_decide_eq_true hm
    exact ⟨a, hx⟩
  · rintro ⟨a, ha⟩
    exact ⟨((n, r), a), List.mem_filter.mpr ⟨ha, decide_eq_true rfl⟩, rfl⟩

theorem LpfsInv.endTimestep (h : LpfsInv ops P s) : LpfsInv ops P (s.endTimestep ops P) := by
  have hadded : ∀ c, c ∈ ((((regionsAt s.sched s.ts).filter (· ≠ 0)).flatMap fun simd ↦
        (s.sched.opsAt (s.ts, simd)).flatMap (get_ready_children ops s.sched)).filter
          fun c ↦ ¬ s.paths.followed c) ↔
      (∃ a simd, s.sched.slot a = some (s.ts, simd) ∧ c ∈ get_ready_children ops s.sched a) ∧
        ¬ s.paths.followed c := by
    intro c
    rw [List.mem_filter, decide_eq_true_iff, and_congr_left_iff]
    intro _
    simp only [List.mem_flatMap, List.mem_filter, decide_eq_true_iff, Placement.mem_opsAt,
      mem_regionsAt, h.tracks.consistent.mem]
    constructor
    · rintro ⟨simd, -, a, ha, hc⟩
      exact ⟨a, simd, ha, hc⟩
    · rintro ⟨a, simd, ha, hc⟩
      have hpos : 1 ≤ simd := (h.tracks.placed a _ ha).2.2.1
      exact ⟨simd, ⟨⟨a, ha⟩, by omega⟩, a, ha, hc⟩
  exact ⟨h.tracks.next hadded, h.nodup.union _, h.count, h.sorted, h.path, h.cover, h.disjoint⟩

/-- Before a timestep the first operation that is left is the next one of a path, or it is in the
hash. -/
theorem LpfsInv.exists_ready (h : LpfsInv ops P s) (hd : DistinctArgs ops)
    (hbefore : ∀ i x, s.sched.slot i = some x → x.1 < s.ts) (hlt : s.op_cnt < ops.length) :
    (∃ r ∈ P.pathRegions, ∃ i ∈ (s.simds r).head?, op_ready ops s.sched i) ∨ s.ready ≠ [] := by
  obtain ⟨i, hi, hnone, hready, hmin⟩ := h.tracks.exists_first hd hbefore (h.count ▸ hlt)
  by_cases hf : s.paths.followed i
  · left
    obtain ⟨r, hr⟩ := h.cover i hf hnone
    refine ⟨r, (h.path i r hr).1, i, ?_, op_ready_of_ready hready hi⟩
    -- nothing on the path is left in front of the operation
    obtain ⟨j, rest, hjrest⟩ := List.exists_cons_of_ne_nil (List.ne_nil_of_mem hr)
    obtain ⟨-, hj, -, hjnone⟩ := h.path j r (hjrest ▸ List.mem_cons_self)
    have hsorted := List.pairwise_cons.mp (hjrest ▸ h.sorted r)
    rcases List.mem_cons.mp (hjrest ▸ hr) with rfl | hmem
    · rw [hjrest, List.head?_cons]
      exact rfl
    · exact absurd (hsorted.1 i hmem) (not_lt.mpr (hmin j hj hjnone))
  · exact .inr (List.ne_nil_of_mem ((h.tracks.ready i).mpr ⟨hi, hf, hready⟩))

/-- **A timestep** places something as long as something is left, and keeps a schedule timely
exactly when no region overtakes. -/
theorem LpfsInv.lpfsTimestep (h : LpfsInv ops P s) (hd : DistinctArgs ops) (hK : 1 ≤ P.SIMD_K)
    (hbefore : ∀ i x, s.sched.slot i = some x → x.1 < s.ts) :
    ∃ s', lpfsTimestep ops P s = some s' ∧ LpfsInv ops P s' ∧ s'.ts = s.ts + 1 ∧
      s.sched.Extends s'.sched ∧ (∀ i x, s'.sched.slot i = some x → x.1 < s'.ts) ∧
      (s.op_cnt < ops.length → s.op_cnt < s'.op_cnt) ∧
      (Timely (Parent ops) s.sched.time → PathsInOrder ops P P.pathRegions s →
        Timely (Parent ops) s'.sched.time) ∧
      ∀ t, s'.sched.Extends t → Timely (Parent ops) t.time →
        PathsInOrder ops P P.pathRegions s := by
  have hlK := P.simd_l_lt hK
  have hpath : ∀ r ∈ P.pathRegions, 1 ≤ r ∧ r ≤ P.SIMD_K := by
    intro r hr
    have := P.mem_pathRegions.mp hr
    omega
  have hfree : ∀ r ∈ P.freeRegions, 1 ≤ r ∧ r ≤ P.SIMD_K := by
    intro r hr
    rw [LpfsParams.freeRegions, List.mem_range'_1] at hr
    omega
  -- there is a region besides those of the paths
  have hfree_ne : P.freeRegions ≠ [] := by
    rw [LpfsParams.freeRegions, ne_eq, List.range'_eq_nil_iff]
    omega
  obtain ⟨hadvance, hlt⟩ := h.foldl_pathRegion hpath
  obtain ⟨htimely, hback⟩ := h.timely_foldl_pathRegion hpath
  obtain ⟨s₂, hs₂, hadvance', htimely', hlt'⟩ := hadvance.inv.foldlM_freeRegion hfree
  have hinv := hadvance'.inv.endTimestep
  have hext : s.sched.Extends (s₂.endTimestep ops P).sched :=
    hadvance.extends'.trans hadvance'.extends'
  have hts : s₂.ts = s.ts := hadvance'.ts.trans hadvance.ts
  refine ⟨s₂.endTimestep ops P, ?_, hinv, congrArg (· + 1) hts, hext, fun i x hx ↦ ?_,
    fun hleft ↦ ?_, fun ht horder ↦ htimely' (htimely ht horder),
    fun t ht ↦ hback t (hadvance'.extends'.trans ht)⟩
  · rw [Sched.lpfsTimestep, hs₂, Option.map_some]
  · exact Nat.lt_succ_of_le (hadvance'.inv.tracks.placed i x hx).2.1
  · change s.op_cnt < s₂.op_cnt
    -- something is placed: a head of a path that is ready, or a free operation
    rcases h.exists_ready hd hbefore hleft with hhead | hready
    · exact (hlt hhead).trans_le hadvance'.le
    · rcases hadvance.progress with hlt₁ | ⟨hcnt, -, hsame, -⟩
      · exact hlt₁.trans_le hadvance'.le
      · rw [← hcnt]
        exact hlt' hfree_ne (hsame ▸ hready)

/-! ## The run -/

/-- As long as something is in the hash, something is left. -/
theorem LpfsInv.lt_of_ready (h : LpfsInv ops P s) (hready : s.ready ≠ []) :
    s.op_cnt < ops.length := by
  obtain ⟨i, hi⟩ := List.exists_mem_of_ne_nil _ hready
  by_contra hge
  have hcomplete := h.tracks.complete (by rw [← h.count]; omega)
  refine h.tracks.consistent.mem_map_snd.mp (hcomplete.mem_iff.mpr ?_) (h.tracks.slot_eq_none hi)
  exact List.mem_range.mpr ((h.tracks.ready i).mp hi).1

/-- **The loop** ends with a complete schedule, which is timely exactly when no region overtakes. -/
theorem LpfsInv.lpfsLoop (h : LpfsInv ops P s) (hd : DistinctArgs ops)
    (hK : ops = [] ∨ 1 ≤ P.SIMD_K) {n : ℕ}
    (hbefore : ∀ i x, s.sched.slot i = some x → x.1 < s.ts) (hn : n + s.ts = ops.length + 1)
    (hts : s.ts ≤ s.op_cnt) :
    ∃ s', lpfsLoop ops P n s = some s' ∧ s'.sched.Complete (List.range ops.length) ∧
      s.sched.Extends s'.sched ∧
      (Timely (Parent ops) s.sched.time → InOrder ops P n s →
        Timely (Parent ops) s'.sched.time) ∧
      (Timely (Parent ops) s'.sched.time → InOrder ops P n s) := by
  have hlength := h.tracks.consistent.length_le fun i hi ↦ h.tracks.mem_range hi
  rw [List.length_range, ← h.count] at hlength
  induction n generalizing s with
  | zero => omega
  | succ n ih =>
    rw [Sched.lpfsLoop]
    by_cases hgo : s.ready ≠ [] ∨ s.op_cnt < ops.length
    · have hleft : s.op_cnt < ops.length := hgo.elim h.lt_of_ready id
      have hpos : 1 ≤ P.SIMD_K := by
        refine hK.resolve_left ?_
        rintro rfl
        exact Nat.not_lt_zero _ hleft
      obtain ⟨s₁, hs₁, hinv, hts₁, hext, hbefore₁, hlt, htimely, hback⟩ :=
        h.lpfsTimestep hd hpos hbefore
      have hlt := hlt hleft
      have hlength₁ := hinv.tracks.consistent.length_le fun i hi ↦ hinv.tracks.mem_range hi
      rw [List.length_range, ← hinv.count] at hlength₁
      obtain ⟨s', hs', hcomplete, hext', htimely', hback'⟩ :=
        ih hinv hbefore₁ (by omega) (by omega) hlength₁
      refine ⟨s', by rw [if_pos hgo, hs₁, Option.bind_some, hs'], hcomplete, hext.trans hext',
        fun ht horder ↦ ?_, fun ht _ ↦ ⟨hback s'.sched hext' ht, fun s₂ hs₂ ↦ ?_⟩⟩
      · obtain ⟨hpaths, hrest⟩ := horder hgo
        exact htimely' (htimely ht hpaths) (hrest s₁ hs₁)
      · obtain rfl : s₁ = s₂ := Option.some_injective _ (hs₁.symm.trans hs₂)
        exact hback' ht
    · refine ⟨s, if_neg hgo, h.tracks.complete ?_, Placement.Extends.refl _, fun ht _ ↦ ht,
        fun _ hgo' ↦ absurd hgo' hgo⟩
      rw [not_or, not_lt] at hgo
      exact h.count ▸ hgo.2

/-! ## The first search for paths -/

theorem find_lp_top (hd : DistinctArgs ops) (s : PathState) :
    PathState.Climbed ops s (find_lp ops (top ops) s) := by
  rcases eq_or_ne (top ops) [] with hnil | hne
  · rw [hnil, find_lp_nil]
    exact ⟨List.Pairwise.nil, List.forall_mem_nil _, fun i ↦ by simp⟩
  · obtain ⟨i, hi⟩ := List.exists_mem_of_ne_nil _ hne
    have hpos : 0 < ops.length := (Nat.zero_le i).trans_lt (mem_top.mp hi).1
    exact find_lp_spec hd (mem_top.mpr ⟨hpos, fun a ha ↦ Nat.not_lt_zero a (ha.lt hd)⟩) s

/-- The paths found so far, for regions that are not in the list `rs`. -/
structure PathsFound (ops : List Op) (P : LpfsParams) (rs : List ℕ) (s : LpfsState) : Prop where
  fixed : s.sched = .empty ∧ s.op_cnt = 0 ∧ s.ts = 0
  sorted : ∀ r, (s.simds r).Pairwise (· < ·)
  path : ∀ i r, i ∈ s.simds r → (r ∈ P.pathRegions ∧ r ∉ rs) ∧ i < ops.length ∧ s.paths.followed i
  cover : ∀ i, s.paths.followed i → ∃ r, i ∈ s.simds r
  disjoint : ∀ i r r', i ∈ s.simds r → i ∈ s.simds r' → r = r'

theorem PathsFound.search (hd : DistinctArgs ops) {r : ℕ} {rs : List ℕ}
    (h : PathsFound ops P (r :: rs) s) (hr : r ∈ P.pathRegions) (hrs : r ∉ rs) :
    PathsFound ops P rs (s.search ops (top ops) r) := by
  have hfound := find_lp_top hd s.paths
  rw [LpfsState.search]
  set path := (find_lp ops (top ops) s.paths).1
  have hmem : ∀ i r', i ∈ Function.update s.simds r path r' ↔
      (r' = r ∧ i ∈ path) ∨ i ∈ s.simds r' := by
    intro i r'
    by_cases hr' : r' = r
    · subst hr'
      rw [Function.update_self, and_iff_right rfl, or_iff_left]
      exact fun hi ↦ (h.path i r' hi).1.2 List.mem_cons_self
    · rw [Function.update_of_ne hr', or_iff_right fun hi ↦ hr' hi.1]
  refine ⟨h.fixed, fun r' ↦ ?_, fun i r' hi ↦ ?_, fun i hi ↦ ?_, fun i r₁ r₂ h₁ h₂ ↦ ?_⟩
  · change (Function.update s.simds r path r').Pairwise (· < ·)
    by_cases hr' : r' = r
    · subst hr'
      rw [Function.update_self]
      exact hfound.sorted
    · rw [Function.update_of_ne hr']
      exact h.sorted r'
  · rcases (hmem i r').mp hi with ⟨rfl, hnew⟩ | hold
    · exact ⟨⟨hr, hrs⟩, (hfound.mem i hnew).1, (hfound.followed i).mpr (.inr hnew)⟩
    · obtain ⟨⟨hr', hnot⟩, hlt, hf⟩ := h.path i r' hold
      exact ⟨⟨hr', fun hmem ↦ hnot (List.mem_cons_of_mem r hmem)⟩, hlt,
        (hfound.followed i).mpr (.inl hf)⟩
  · rcases (hfound.followed i).mp hi with hf | hi
    · obtain ⟨r', hr'⟩ := h.cover i hf
      exact ⟨r', (hmem i r').mpr (.inr hr')⟩
    · exact ⟨r, (hmem i r).mpr (.inl ⟨rfl, hi⟩)⟩
  · -- an operation of the new path was on no path before
    rcases (hmem i r₁).mp h₁ with ⟨hr₁, hnew₁⟩ | hold₁
    · rcases (hmem i r₂).mp h₂ with ⟨hr₂, -⟩ | hold₂
      · exact hr₁.trans hr₂.symm
      · exact absurd (h.path i r₂ hold₂).2.2 (hfound.mem i hnew₁).2
    · rcases (hmem i r₂).mp h₂ with ⟨-, hnew₂⟩ | hold₂
      · exact absurd (h.path i r₁ hold₁).2.2 (hfound.mem i hnew₂).2
      · exact h.disjoint i r₁ r₂ hold₁ hold₂

theorem PathsFound.foldl (hd : DistinctArgs ops) {rs : List ℕ} (h : PathsFound ops P rs s)
    (hrs : ∀ r ∈ rs, r ∈ P.pathRegions) (hnodup : rs.Nodup) :
    PathsFound ops P [] (rs.foldl
      (fun s simd ↦ if s.pathsearch then s.search ops (top ops) simd else s) s) := by
  induction rs generalizing s with
  | nil => exact h
  | cons r rs ih =>
    obtain ⟨hr, hrs'⟩ := List.forall_mem_cons.mp hrs
    rw [List.nodup_cons] at hnodup
    rw [List.foldl_cons]
    refine ih ?_ hrs' hnodup.2
    split_ifs with hsearch
    · exact h.search hd hr hnodup.1
    · refine ⟨h.fixed, h.sorted, fun i r' hi ↦ ?_, h.cover, h.disjoint⟩
      obtain ⟨⟨hr', hnot⟩, hrest⟩ := h.path i r' hi
      exact ⟨⟨hr', fun hmem ↦ hnot (List.mem_cons_of_mem r hmem)⟩, hrest⟩

theorem pathsFound_findPaths (hd : DistinctArgs ops) :
    PathsFound ops P [] (findPaths ops P .init) := by
  refine PathsFound.foldl hd ⟨⟨rfl, rfl, rfl⟩, fun _ ↦ List.Pairwise.nil,
    fun i _ hi ↦ absurd hi List.not_mem_nil, fun i hi ↦ absurd hi Bool.false_ne_true,
    fun i _ _ hi ↦ absurd hi List.not_mem_nil⟩ (fun _ hr ↦ hr) List.nodup_range'

theorem lpfsInv_start (hd : DistinctArgs ops) : LpfsInv ops P (lpfsStart ops P) := by
  have h := pathsFound_findPaths (P := P) hd
  obtain ⟨hsched, hcnt, hts⟩ := h.fixed
  rw [lpfsStart]
  set s := findPaths ops P .init
  have htracks : Tracks ops P.SIMD_K s.ts (fun i ↦ s.paths.followed i) s.sched
      ((top ops).filter fun i ↦ ¬ s.paths.followed i) := by
    rw [hsched, hts]
    exact tracks_start fun i ↦ by simp
  have hnone : ∀ i, s.sched.slot i = none := by
    intro i
    rw [hsched]
    rfl
  refine ⟨htracks, (List.nodup_range.filter _).filter _, ?_, h.sorted, fun i r hi ↦ ?_,
    fun i hi _ ↦ h.cover i hi, h.disjoint⟩
  · change s.op_cnt = s.sched.schedule.length
    rw [hcnt, hsched]
    rfl
  · obtain ⟨⟨hr, -⟩, hlt, hf⟩ := h.path i r hi
    exact ⟨hr, hlt, hf, hnone i⟩

/-! ## When the schedule is right -/

theorem sched_findPaths : (findPaths ops P .init).sched = .empty := by
  rw [findPaths]
  generalize P.pathRegions = rs
  suffices h : ∀ s : LpfsState, (rs.foldl
      (fun s simd ↦ if s.pathsearch then s.search ops (top ops) simd else s) s).sched = s.sched from
    h .init
  induction rs with
  | nil => exact fun s ↦ rfl
  | cons r rs ih =>
    intro s
    rw [List.foldl_cons, ih]
    split_ifs <;> rfl

theorem sched_lpfsLoop_of_zero (hK : P.SIMD_K = 0) {n : ℕ} (h : lpfsLoop ops P n s = some s') :
    s'.sched = s.sched := by
  have hl : P.simd_l = 0 := by
    rw [LpfsParams.simd_l, hK, if_pos (Nat.zero_le _)]
  have hstep : ∀ s, lpfsTimestep ops P s = some (s.endTimestep ops P) := by
    intro s
    rw [lpfsTimestep, LpfsParams.freeRegions, LpfsParams.pathRegions, hl, hK]
    rfl
  induction n generalizing s with
  | zero => exact congrArg LpfsState.sched (Option.some_injective _ h).symm
  | succ n ih =>
    rw [lpfsLoop] at h
    split_ifs at h
    · rw [hstep, Option.bind_some] at h
      exact ih (s := s.endTimestep ops P) h
    · exact congrArg LpfsState.sched (Option.some_injective _ h).symm

open Relation in
theorem reflTransGen_takeAll (is : List ℕ) :
    ReflTransGen (Places ops) s.sched (s.takeAll ops is simd).sched := by
  rw [LpfsState.takeAll]
  generalize hs₁ : { s with ready := s.ready.filter (· ∉ is) } = s₁
  have hsched : s.sched = s₁.sched := by rw [← hs₁]
  rw [hsched]
  clear hs₁ hsched
  induction is generalizing s₁ with
  | nil => exact .refl
  | cons i is ih =>
    rw [List.foldl_cons]
    refine ReflTransGen.trans ?_ (ih _)
    by_cases hready : op_ready ops s₁.sched i
    · rw [sched_op_of_op_ready hready]
      exact .single ⟨i, (s₁.ts, simd), hready, rfl⟩
    · rw [LpfsState.sched_op, sched_op, Option.bind_some, if_neg hready]
      exact .refl

open Relation in
theorem reflTransGen_pathRegion :
    ReflTransGen (Places ops) s.sched (pathRegion ops P s simd).sched := by
  obtain ⟨b, ⟨heq, -⟩ | ⟨i, rest, -, hready, heq⟩⟩ := pathRegion_cases ops P s simd
  · rw [heq]
  · rw [heq]
    refine .head (b := s.sched.place i (s.ts, simd)) ⟨i, (s.ts, simd), hready, rfl⟩ ?_
    split_ifs
    · exact reflTransGen_takeAll (s := { s with pathsearch := b }.placeHead simd i rest) _
    · exact .refl

open Relation in
theorem reflTransGen_foldlM {rs : List ℕ} (h : rs.foldlM (freeRegion ops P) s = some s') :
    ReflTransGen (Places ops) s.sched s'.sched := by
  induction rs generalizing s with
  | nil =>
    obtain rfl : s = s' := Option.some_injective _ h
    exact .refl
  | cons r rs ih =>
    rw [List.foldlM_cons] at h
    obtain ⟨s₁, hs₁, hrest⟩ := Option.bind_eq_some_iff.mp h
    refine ReflTransGen.trans ?_ (ih hrest)
    rw [freeRegion] at hs₁
    split at hs₁
    · obtain rfl : s = s₁ := Option.some_injective _ hs₁
      exact .refl
    · dsimp only at hs₁
      split_ifs at hs₁ with hstop
      all_goals
        obtain rfl := Option.some_injective _ hs₁
        exact reflTransGen_takeAll _

open Relation in
theorem reflTransGen_lpfsLoop {n : ℕ} (h : lpfsLoop ops P n s = some s') :
    ReflTransGen (Places ops) s.sched s'.sched := by
  have hpaths : ∀ (rs : List ℕ) (s : LpfsState),
      ReflTransGen (Places ops) s.sched (rs.foldl (pathRegion ops P) s).sched := by
    intro rs
    induction rs with
    | nil => exact fun s ↦ .refl
    | cons r rs ih => exact fun s ↦ reflTransGen_pathRegion.trans (ih _)
  induction n generalizing s with
  | zero =>
    obtain rfl : s = s' := Option.some_injective _ h
    exact .refl
  | succ n ih =>
    rw [lpfsLoop] at h
    split_ifs at h
    · obtain ⟨s₁, hs₁, hrest⟩ := Option.bind_eq_some_iff.mp h
      obtain ⟨s₂, hs₂, rfl⟩ := Option.map_eq_some_iff.mp hs₁
      exact ((hpaths P.pathRegions s).trans (reflTransGen_foldlM hs₂)).trans
        (ih (s := s₂.endTimestep ops P) hrest)
    · obtain rfl : s = s' := Option.some_injective _ h
      exact .refl

/-- A schedule that is right has a region and operations without a repeated qubit. -/
theorem LpfsRight.conditions (h : LpfsRight ops P) :
    (ops = [] ∨ 1 ≤ P.SIMD_K) ∧ DistinctArgs ops := by
  obtain ⟨s, hs, hcomplete, -⟩ := h
  have hstart : (lpfsStart ops P).sched = .empty := sched_findPaths
  constructor
  · by_contra hnot
    rw [not_or, Nat.not_le, Nat.lt_one_iff] at hnot
    have hlength := hcomplete.length_eq
    rw [sched_lpfsLoop_of_zero hnot.2 hs, hstart, List.length_range] at hlength
    exact hnot.1 (List.length_eq_zero_iff.mp hlength.symm)
  · by_contra hnot
    obtain ⟨i, hi⟩ := exists_parent_self hnot
    have hmem := hcomplete.mem_iff.mpr (List.mem_range.mpr hi.1)
    obtain ⟨⟨x, j⟩, hx, rfl⟩ := List.mem_map.mp hmem
    exact not_mem_of_parent_self hi (hstart ▸ reflTransGen_lpfsLoop hs) x hx

/-- **When LPFS schedules are right**: there is a region, no operation names a qubit twice, and in
no timestep does a path region find its next operation ready because a parent of it was just put
into another region. -/
theorem lpfsRight_iff (ops : List Op) (P : LpfsParams) :
    LpfsRight ops P ↔ (ops = [] ∨ 1 ≤ P.SIMD_K) ∧ DistinctArgs ops ∧
      InOrder ops P (ops.length + 1) (lpfsStart ops P) := by
  have hrun (hK : ops = [] ∨ 1 ≤ P.SIMD_K) (hd : DistinctArgs ops) :
      ∃ s, lpfs ops P = some s ∧ s.sched.Complete (List.range ops.length) ∧
        (Timely (Parent ops) s.sched.time ↔
          InOrder ops P (ops.length + 1) (lpfsStart ops P)) := by
    have hstart : (lpfsStart ops P).sched = .empty := sched_findPaths
    obtain ⟨-, -, hts⟩ := (pathsFound_findPaths (P := P) hd).fixed
    have hts' : (lpfsStart ops P).ts = 0 := hts
    obtain ⟨s, hs, hcomplete, -, htimely, hback⟩ := (lpfsInv_start (P := P) hd).lpfsLoop hd hK
      (fun i x hx ↦ by rw [hstart] at hx; exact absurd hx.symm (Option.some_ne_none x))
      (by rw [hts', Nat.add_zero]) (by rw [hts']; exact Nat.zero_le _)
    refine ⟨s, hs, hcomplete, hback, htimely ?_⟩
    rw [hstart]
    exact timely_none
  constructor
  · intro h
    obtain ⟨hK, hd⟩ := h.conditions
    obtain ⟨s, hs, -, htimely⟩ := h
    obtain ⟨s', hs', -, hiff⟩ := hrun hK hd
    obtain rfl := Option.some_injective _ (hs.symm.trans hs')
    exact ⟨hK, hd, hiff.mp htimely⟩
  · rintro ⟨hK, hd, horder⟩
    obtain ⟨s, hs, hcomplete, hiff⟩ := hrun hK hd
    exact ⟨s, hs, hcomplete, hiff.mpr horder⟩

/-- One region for paths does not overtake: it is the first one to be filled, and no parent has the
timestep yet. -/
theorem LpfsInv.inOrder (h : LpfsInv ops P s) (hd : DistinctArgs ops)
    (hK : ops = [] ∨ 1 ≤ P.SIMD_K) (hl : P.simd_l ≤ 1)
    (hbefore : ∀ i x, s.sched.slot i = some x → x.1 < s.ts) (n : ℕ) : InOrder ops P n s := by
  induction n generalizing s with
  | zero => exact trivial
  | succ n ih =>
    intro hgo
    have hleft : s.op_cnt < ops.length := hgo.elim h.lt_of_ready id
    have hpos : 1 ≤ P.SIMD_K := by
      refine hK.resolve_left ?_
      rintro rfl
      exact Nat.not_lt_zero _ hleft
    obtain ⟨s₁, hs₁, hinv, -, -, hbefore₁, -, -, -⟩ := h.lpfsTimestep hd hpos hbefore
    constructor
    · have hregions : P.pathRegions = [] ∨ P.pathRegions = [1] := by
        rw [LpfsParams.pathRegions]
        rcases Nat.le_one_iff_eq_zero_or_eq_one.mp hl with hl | hl
        · exact .inl (by rw [hl, List.range'_zero])
        · exact .inr (by rw [hl, List.range'_one])
      rcases hregions with hnil | hone
      · rw [hnil]
        exact trivial
      · rw [hone]
        refine ⟨?_, trivial⟩
        rintro ⟨_, -, -, a, -, hats⟩
        obtain ⟨r, hr⟩ := Placement.time_eq_some.mp hats
        exact absurd (hbefore a _ hr) (lt_irrefl _)
    · intro s₂ hs₂
      obtain rfl : s₁ = s₂ := Option.some_injective _ (hs₁.symm.trans hs₂)
      exact ih hinv hbefore₁

theorem lpfsRight_of_simd_l_le_one (hd : DistinctArgs ops) (hK : ops = [] ∨ 1 ≤ P.SIMD_K)
    (hl : P.simd_l ≤ 1) : LpfsRight ops P := by
  refine (lpfsRight_iff ops P).mpr ⟨hK, hd, (lpfsInv_start hd).inOrder hd hK hl (fun i x hx ↦ ?_) _⟩
  have hstart : (lpfsStart ops P).sched = .empty := sched_findPaths
  rw [hstart] at hx
  exact absurd hx.symm (Option.some_ne_none x)

private def afterCNOT : List Op := [opOn .CNOT ['a', 'b'], opOn .H ['a'], opOn .H ['b']]

/-- **With the options of the script an operation is put next to its parent**: the second path
starts with a child of the first operation. -/
theorem not_lpfsRight_afterCNOT : ¬ LpfsRight afterCNOT .default := by
  rintro ⟨s, hs, -, htimely⟩
  have htimes : (lpfs afterCNOT .default).map (fun s ↦ (s.sched.time 0, s.sched.time 2))
      = some (some 0, some 0) := by decide +kernel
  rw [hs, Option.map_some, Option.some.injEq, Prod.mk.injEq] at htimes
  obtain ⟨m, hm, hlt⟩ := htimely 0 2 0 ⟨by decide, by decide⟩ htimes.2
  rw [htimes.1, Option.some.injEq] at hm
  omega

end ScaffCC.Sched
