import ScaffCC.Sched.Lpfs

/-!
# What a region does

An operation is followed when it is on a path or has been placed. The hash holds the ready
operations that are not followed, and the paths hold the operations that are followed and not
placed. A region keeps this, and either places something or leaves the state as it is.
-/

open Scheduling

namespace ScaffCC.Sched

variable {ops : List Op} {P : LpfsParams}

theorem LpfsParams.simd_l_lt (h : 1 ≤ P.SIMD_K) : P.simd_l < P.SIMD_K := by
  rw [simd_l]
  split_ifs <;> omega

theorem LpfsParams.mem_pathRegions {r : ℕ} : r ∈ P.pathRegions ↔ 1 ≤ r ∧ r ≤ P.simd_l := by
  rw [pathRegions, List.mem_range'_1]
  omega

/-- What is true at every moment of a timestep. -/
structure LpfsInv (ops : List Op) (P : LpfsParams) (s : LpfsState) : Prop where
  tracks : Tracks ops P.SIMD_K s.ts (fun i ↦ s.paths.followed i) s.sched s.ready
  nodup : s.ready.Nodup
  count : s.op_cnt = s.sched.schedule.length
  sorted : ∀ r, (s.simds r).Pairwise (· < ·)
  path : ∀ i r, i ∈ s.simds r →
    r ∈ P.pathRegions ∧ i < ops.length ∧ s.paths.followed i ∧ s.sched.slot i = none
  cover : ∀ i, s.paths.followed i → s.sched.slot i = none → ∃ r, i ∈ s.simds r
  disjoint : ∀ i r r', i ∈ s.simds r → i ∈ s.simds r' → r = r'

/-- What a region does to the state. -/
structure Advances (ops : List Op) (P : LpfsParams) (s s' : LpfsState) : Prop where
  inv : LpfsInv ops P s'
  ts : s'.ts = s.ts
  extends' : s.sched.Extends s'.sched
  progress : s.op_cnt < s'.op_cnt ∨
    s'.op_cnt = s.op_cnt ∧ s'.sched = s.sched ∧ s'.ready = s.ready ∧ s'.simds = s.simds

variable {s s' s'' : LpfsState} {simd : ℕ}

theorem Advances.refl (h : LpfsInv ops P s) : Advances ops P s s :=
  ⟨h, rfl, Placement.Extends.refl _, .inr ⟨rfl, rfl, rfl, rfl⟩⟩

theorem Advances.le (h : Advances ops P s s') : s.op_cnt ≤ s'.op_cnt := by
  rcases h.progress with hlt | ⟨hcnt, -⟩
  · exact hlt.le
  · exact hcnt.ge

theorem Advances.trans (h : Advances ops P s s') (h' : Advances ops P s' s'') :
    Advances ops P s s'' := by
  refine ⟨h'.inv, h'.ts.trans h.ts, h.extends'.trans h'.extends', ?_⟩
  rcases h.progress with hlt | ⟨hcnt, hsched, hready, hsimds⟩
  · exact .inl (hlt.trans_le h'.le)
  · rcases h'.progress with hlt' | ⟨hcnt', hsched', hready', hsimds'⟩
    · exact .inl (hcnt ▸ hlt')
    · exact .inr ⟨hcnt'.trans hcnt, hsched'.trans hsched, hready'.trans hready,
        hsimds'.trans hsimds⟩

/-! ## Taking ready operations -/

theorem sched_op_of_op_ready {i : ℕ} (h : op_ready ops s.sched i) :
    s.sched_op ops (some i) simd = some { s with
      sched := s.sched.place i (s.ts, simd)
      paths := { s.paths with followed := fun j ↦ s.paths.followed j || some j = some i } } := by
  rw [LpfsState.sched_op, sched_op_eq_some.mpr ⟨h, rfl⟩, Option.map_some]

theorem foldl_sched_op {is : List ℕ} (h : ∀ i ∈ is, op_ready ops s.sched i) :
    is.foldl (fun s i ↦
      let s := (s.sched_op ops (some i) simd).getD s
      { s with op_cnt := s.op_cnt + 1 }) s = { s with
        sched := sched_ops ops s.sched is s.ts simd
        paths := { s.paths with followed := fun j ↦ s.paths.followed j || j ∈ is }
        op_cnt := s.op_cnt + is.length } := by
  induction is generalizing s with
  | nil => simp [sched_ops]
  | cons i is ih =>
    obtain ⟨hi, his⟩ := List.forall_mem_cons.mp h
    rw [List.foldl_cons]
    dsimp only
    rw [sched_op_of_op_ready hi, Option.getD_some, ih fun j hj ↦ op_ready_place (his j hj),
      sched_ops_cons hi]
    have hfollowed : ∀ j, ((s.paths.followed j || decide (some j = some i)) || decide (j ∈ is))
        = (s.paths.followed j || decide (j ∈ i :: is)) := by
      intro j
      simp [Bool.or_assoc]
    simp only [hfollowed, List.length_cons]
    congr 1
    omega

theorem takeAll_eq {is : List ℕ} (h : ∀ i ∈ is, op_ready ops s.sched i) :
    s.takeAll ops is simd = { s with
      sched := sched_ops ops s.sched is s.ts simd
      paths := { s.paths with followed := fun j ↦ s.paths.followed j || j ∈ is }
      ready := s.ready.filter (· ∉ is)
      op_cnt := s.op_cnt + is.length } :=
  foldl_sched_op (s := { s with ready := s.ready.filter (· ∉ is) }) h

theorem LpfsInv.takeAll (h : LpfsInv ops P s) {is : List ℕ} (his : is.Nodup) (hsub : is ⊆ s.ready)
    (hpos : 1 ≤ simd) (hle : simd ≤ P.SIMD_K) :
    Advances ops P s (s.takeAll ops is simd) ∧
      (Timely (Parent ops) s.sched.time → Timely (Parent ops) (s.takeAll ops is simd).sched.time) ∧
      (is ≠ [] → s.op_cnt < (s.takeAll ops is simd).op_cnt) := by
  obtain ⟨htracks, htimely, hext, hsched⟩ := h.tracks.sched_ops hpos hle his hsub
  have hplaced : ∀ j, (sched_ops ops s.sched is s.ts simd).slot j = none ↔
      s.sched.slot j = none ∧ j ∉ is := by
    intro j
    rw [← not_iff_not, ← ne_eq,
      h.tracks.consistent.slot_ne_none_iff htracks.consistent hsched, not_and_or, not_not]
  rw [takeAll_eq fun i hi ↦ h.tracks.op_ready (hsub hi)]
  have hnew : ∀ j,
      (s.paths.followed j || decide (j ∈ is)) = true ↔ s.paths.followed j ∨ j ∈ is := by
    intro j
    rw [Bool.or_eq_true, decide_eq_true_iff]
  refine ⟨⟨⟨htracks.congr hnew, h.nodup.filter _, ?_, h.sorted, fun i r hi ↦ ?_,
    fun i hf hnone ↦ ?_, h.disjoint⟩, rfl, hext, ?_⟩, htimely, fun hne ↦ ?_⟩
  · rw [hsched, List.length_append, List.length_map, h.count]
  · obtain ⟨hr, hlt, hf, hslot⟩ := h.path i r hi
    refine ⟨hr, hlt, (hnew i).mpr (.inl hf), (hplaced i).mpr ⟨hslot, fun hmem ↦ ?_⟩⟩
    exact ((h.tracks.ready i).mp (hsub hmem)).2.1 hf
  · obtain ⟨hslot, hmem⟩ := (hplaced i).mp hnone
    exact h.cover i (((hnew i).mp hf).resolve_right hmem) hslot
  · rcases eq_or_ne is [] with rfl | hne
    · right
      simp [sched_ops]
    · left
      have := List.length_pos_iff.mpr hne
      dsimp only
      omega
  · have := List.length_pos_iff.mpr hne
    dsimp only
    omega

/-! ## A region for a path -/

theorem search_nil (h : s.simds simd = []) :
    s.search ops [] simd = { s with pathsearch := false } := by
  have hsimds : Function.update s.simds simd [] = s.simds := by
    rw [← h, Function.update_eq_self]
  rw [LpfsState.search, find_lp_nil]
  dsimp only
  rw [hsimds]
  rfl

theorem LpfsInv.pathsearch (h : LpfsInv ops P s) (b : Bool) :
    LpfsInv ops P { s with pathsearch := b } :=
  ⟨h.tracks, h.nodup, h.count, h.sorted, h.path, h.cover, h.disjoint⟩

theorem lpfs_extract_optype_nodup (ops : List Op) (P : LpfsParams) (optype : OpType) (simd : ℕ)
    (h : s.ready.Nodup) : (lpfs_extract_optype ops P optype simd s).Nodup ∧
      lpfs_extract_optype ops P optype simd s ⊆ s.ready := by
  have hperm := P.order.perm s.ts simd s.ready
  have hsub := (List.take_sublist P.SIMD_D _).trans (List.filter_sublist
    (p := fun i ↦ (opAt ops i).op = optype) (l := P.order.keys s.ts simd s.ready))
  exact ⟨hsub.nodup (hperm.nodup_iff.mpr h), fun i hi ↦ hperm.mem_iff.mp (hsub.subset hi)⟩

/-- The state after the next operation `i` of a path was placed. -/
def LpfsState.placeHead (s : LpfsState) (simd i : ℕ) (rest : List ℕ) : LpfsState :=
  { s with
    sched := s.sched.place i (s.ts, simd)
    paths := { s.paths with followed := fun j ↦ s.paths.followed j || some j = some i }
    simds := Function.update s.simds simd rest
    op_cnt := s.op_cnt + 1 }

theorem LpfsInv.placeHead (h : LpfsInv ops P s) {i : ℕ} {rest : List ℕ}
    (hsimd : s.simds simd = i :: rest) (hle : simd ≤ P.SIMD_K) :
    Advances ops P s (s.placeHead simd i rest) := by
  obtain ⟨hr, hi, hf, hnone⟩ := h.path i simd (hsimd ▸ List.mem_cons_self)
  have hnew : ∀ j, (s.paths.followed j || decide (some j = some i)) = true ↔
      s.paths.followed j ∨ j = i := by
    intro j
    rw [Bool.or_eq_true, decide_eq_true_iff, Option.some.injEq]
  have hready : ∀ j, j ∈ s.ready ↔ j ∈ s.ready ∧ j ≠ i := by
    intro j
    rw [iff_self_and]
    rintro hj rfl
    exact ((h.tracks.ready j).mp hj).2.1 hf
  have hsorted := List.pairwise_cons.mp (hsimd ▸ h.sorted simd)
  -- what is left of the paths are the operations that were there, without `i`
  have hmem : ∀ j r, j ∈ Function.update s.simds simd rest r ↔ j ∈ s.simds r ∧ j ≠ i := by
    intro j r
    by_cases hrs : r = simd
    · subst hrs
      rw [Function.update_self, hsimd, List.mem_cons]
      constructor
      · intro hj
        exact ⟨.inr hj, (hsorted.1 j hj).ne'⟩
      · rintro ⟨rfl | hj, hne⟩
        · exact absurd rfl hne
        · exact hj
    · rw [Function.update_of_ne hrs, iff_self_and]
      rintro hj rfl
      exact hrs (h.disjoint j r simd hj (hsimd ▸ List.mem_cons_self))
  refine ⟨⟨h.tracks.place hi hnone (P.mem_pathRegions.mp hr).1 hle hnew hready, h.nodup, ?_,
    fun r ↦ ?_, fun j r hj ↦ ?_, fun j hjf hj ↦ ?_, fun j r r' hj hj' ↦ ?_⟩, rfl,
    Placement.extends_place hnone, .inl (Nat.lt_succ_self _)⟩
  · rw [LpfsState.placeHead, Placement.schedule_place, List.length_append,
      List.length_singleton, h.count]
  · change (Function.update s.simds simd rest r).Pairwise (· < ·)
    by_cases hrs : r = simd
    · subst hrs
      rw [Function.update_self]
      exact hsorted.2
    · rw [Function.update_of_ne hrs]
      exact h.sorted r
  · obtain ⟨hj, hne⟩ := (hmem j r).mp hj
    obtain ⟨hr', hlt, hjf, hslot⟩ := h.path j r hj
    exact ⟨hr', hlt, (hnew j).mpr (.inl hjf), (Placement.slot_place_of_ne hne).trans hslot⟩
  · have hne : j ≠ i := by
      rintro rfl
      exact Option.some_ne_none _ (Placement.slot_place_self.symm.trans hj)
    replace hj := (Placement.slot_place_of_ne hne).symm.trans hj
    obtain ⟨r, hr'⟩ := h.cover j (((hnew j).mp hjf).resolve_right hne) hj
    exact ⟨r, (hmem j r).mpr ⟨hr', hne⟩⟩
  · exact h.disjoint j r r' ((hmem j r).mp hj).1 ((hmem j r').mp hj').1

/-- What a region for a path does, after a search that finds nothing: it leaves the state as it is,
or places the next operation, and with `opp` takes ready operations next to it. -/
theorem pathRegion_cases (ops : List Op) (P : LpfsParams) (s : LpfsState) (simd : ℕ) :
    ∃ b, pathRegion ops P s simd = { s with pathsearch := b } ∧
        (∀ i ∈ (s.simds simd).head?, ¬ op_ready ops s.sched i) ∨
      ∃ i rest, s.simds simd = i :: rest ∧ op_ready ops s.sched i ∧
        let s' := { s with pathsearch := b }.placeHead simd i rest
        pathRegion ops P s simd = if P.opp
          then s'.takeAll ops (lpfs_extract_optype ops P (opAt ops i).op simd s') simd else s' := by
  have hsearch : ∃ b, (if s.pathsearch ∧ P.refill ∧ s.simds simd = [] then s.search ops [] simd
      else s) = { s with pathsearch := b } := by
    split_ifs with hs
    · exact ⟨false, search_nil hs.2.2⟩
    · exact ⟨s.pathsearch, rfl⟩
  obtain ⟨b, hb⟩ := hsearch
  refine ⟨b, ?_⟩
  rw [pathRegion, hb]
  dsimp only
  cases hsimd : s.simds simd with
  | nil => exact .inl ⟨rfl, fun i hi ↦ absurd hi.symm (Option.some_ne_none i)⟩
  | cons i rest =>
    dsimp only
    by_cases hready : op_ready ops s.sched i
    · right
      refine ⟨i, rest, rfl, hready, ?_⟩
      rw [sched_op_of_op_ready (s := { s with pathsearch := b }) hready, LpfsState.placeHead]
    · left
      have hnone : { s with pathsearch := b }.sched_op ops (some i) simd = none := by
        rw [LpfsState.sched_op, sched_op, Option.bind_some, if_neg hready, Option.map_none]
      rw [hnone]
      refine ⟨rfl, fun j hj ↦ ?_⟩
      rwa [← Option.some_injective _ hj]

/-- **A region for a path** keeps the invariant and places its next operation if that is ready.
Unless it overtakes, a timely schedule stays so; otherwise no schedule that comes of it is timely.
-/
theorem LpfsInv.pathRegion (h : LpfsInv ops P s) (hle : simd ≤ P.SIMD_K) (hpos : 1 ≤ simd) :
    Advances ops P s (pathRegion ops P s simd) ∧
      ((∃ i ∈ (s.simds simd).head?, op_ready ops s.sched i) →
        s.op_cnt < (Sched.pathRegion ops P s simd).op_cnt) ∧
      (Timely (Parent ops) s.sched.time → ¬ Overtakes ops s simd →
        Timely (Parent ops) (Sched.pathRegion ops P s simd).sched.time) ∧
      (Overtakes ops s simd → ∀ t, (Sched.pathRegion ops P s simd).sched.Extends t →
        ¬ Timely (Parent ops) t.time) := by
  obtain ⟨b, ⟨heq, hnot⟩ | ⟨i, rest, hsimd, hready, heq⟩⟩ := pathRegion_cases ops P s simd
  · rw [heq]
    refine ⟨⟨h.pathsearch b, rfl, Placement.Extends.refl _, .inr ⟨rfl, rfl, rfl, rfl⟩⟩,
      fun ⟨i, hi, hr⟩ ↦ absurd hr (hnot i hi), fun ht _ ↦ ht, fun ⟨i, hi, hr, _⟩ _ _ ↦ ?_⟩
    exact absurd hr (hnot i hi)
  · rw [heq]
    set s₁ : LpfsState := { s with pathsearch := b } with hs₁
    set s₂ := s₁.placeHead simd i rest with hs₂
    have hhead : (s.simds simd).head? = some i := by rw [hsimd, List.head?_cons]
    have hplace : Advances ops P s s₂ := by
      have h₁ := (h.pathsearch b).placeHead hsimd hle
      exact ⟨h₁.inv, rfl, h₁.extends', .inl (Nat.lt_succ_self _)⟩
    obtain ⟨hadvance, htimely⟩ : Advances ops P s₂ (if P.opp
          then s₂.takeAll ops (lpfs_extract_optype ops P (opAt ops i).op simd s₂) simd else s₂) ∧
        (Timely (Parent ops) s₂.sched.time → Timely (Parent ops) (if P.opp
          then s₂.takeAll ops (lpfs_extract_optype ops P (opAt ops i).op simd s₂) simd
          else s₂).sched.time) := by
      split_ifs with hopp
      · obtain ⟨hnodup, hsub⟩ := lpfs_extract_optype_nodup ops P (opAt ops i).op simd
          hplace.inv.nodup
        obtain ⟨ha, ht, -⟩ := hplace.inv.takeAll hnodup hsub hpos hle
        exact ⟨ha, ht⟩
      · exact ⟨.refl hplace.inv, id⟩
    obtain ⟨-, hi, -, hnone⟩ := h.path i simd (hsimd ▸ List.mem_cons_self)
    refine ⟨hplace.trans hadvance, fun _ ↦ (Nat.lt_succ_self _).trans_le hadvance.le,
      fun ht hnot ↦ htimely ?_, fun ⟨j, hj, _, a, ha, hats⟩ t hext ↦ ?_⟩
    · -- no parent has this timestep, so all have earlier ones
      change Timely (Parent ops) (s.sched.place i (s.ts, simd)).time
      rw [Placement.time_place]
      refine ht.place (Placement.time_eq_none.mpr hnone) fun a ha ↦ ?_
      obtain ⟨x, hx⟩ := Option.ne_none_iff_exists'.mp (op_ready_iff.mp hready a ha.2)
      have htime : s.sched.time a = some x.1 := Placement.time_eq_some.mpr ⟨x.2, hx⟩
      refine ⟨x.1, htime, lt_of_le_of_ne (h.tracks.placed a x hx).2.1 fun heq ↦ hnot ?_⟩
      exact ⟨i, hhead, hready, a, ha.2, htime.trans (congrArg some heq)⟩
    · obtain rfl : i = j := Option.some_injective _ (hhead.symm.trans hj)
      have hsi : s₂.sched.time i = some s.ts :=
        Placement.time_eq_some.mpr ⟨simd, Placement.slot_place_self⟩
      refine not_timely ⟨hi, ha⟩ (hext.time (hadvance.extends'.time hsi)) fun m hm ↦ ?_
      rw [hext.time ((hplace.trans hadvance).extends'.time hats), Option.some.injEq] at hm
      exact hm.le

end ScaffCC.Sched
