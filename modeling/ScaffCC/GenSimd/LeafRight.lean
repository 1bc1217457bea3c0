import ScaffCC.GenSimd.Leaf

/-!
# The schedule of a leaf function is right

While the operations are placed, the last-use times cover what is placed: every operand of a placed
operation makes what overlaps with it wait until the next timestep. Both ways of placing an
operation keep this, the first measurement too, which moves all times forward. As priorities fall
along dependencies, an operation comes after those it depends on, so it waits for them.

The table stays as it is where something was placed, so that a region never changes its type. It is
never beyond the number of regions, as every timestep has that many.
-/

open Scheduling Fallible

namespace ScaffCC.GenSimd

variable {C : Constraints} {T T' : FuncQbits} {t u : ℕ} {s s' : LeafState}

/-! ## Moving the last-use times forward -/

/-- The times after operands were used until `t`. -/
structure Advances (T T' : FuncQbits) (t : ℕ) (as : List (Access Ident ℕ)) : Prop where
  names : T'.names = T.names
  capped : T'.Capped
  within : ∀ u, T.Within u → t ≤ u → T'.Within u
  covers : ∀ u b, b.1 ∈ T.names → T.Covers u b → T'.Covers u b
  self : ∀ a ∈ as, T'.Covers t a

theorem advances_use {as : List (Access Ident ℕ)} (hT : T.Capped)
    (has : ∀ a ∈ as, T.lastUse a ≤ t) : Advances T (T.use t as) t as :=
  ⟨Clocks.names_use, hT.use, fun _ hu htu ↦ hu.use htu, fun _ _ _ hb ↦ hb.use hT has,
    fun _ ha ↦ Clocks.covers_use_self hT has ha⟩

/-- All times are moved to `t`, which is not before any of them, and those of one access one
further. -/
theorem advances_reset {a : Access Ident ℕ} (hT : T.Capped) (ht : T.latest ≤ t) :
    Advances T ((T.reset t).record (t + 1) a) (t + 1) [a] := by
  have hcap : (T.reset t).Capped := Clocks.capped_reset
  have hlast : (T.reset t).lastUse a ≤ t + 1 :=
    (hcap.lastUse_le Clocks.within_reset).trans (Nat.le_succ t)
  refine ⟨rfl, hcap.record, fun u _ htu ↦ ?_, fun u b hb hcov ↦ ?_, ?_⟩
  · exact Clocks.Within.record (fun n ↦ (Nat.le_succ t).trans htu) htu
  · have hu : u ≤ t := calc
      u ≤ T.lastUse b := hcov.le_lastUse hT ⟨rfl, .inr (.inr rfl)⟩
      _ ≤ (T.clock b.1).top := (hT b.1).lastUse_le
      _ ≤ T.latest := Clocks.top_le_latest hb
      _ ≤ t := ht
    exact (Clocks.Covers.reset hcov hu).record hcap hlast
  · rintro b hb
    rw [List.mem_singleton.mp hb]
    exact Clocks.covers_record_self

/-- The first measurement moves all times to its timestep, and those of its qubit one further. -/
theorem advances_meas {q : Operand} {ts : ℕ} (hT : T.Capped) (hts : T.latest ≤ ts)
    (h : meas_timestep T ts q = .ok T') : Advances T T' (ts + 1) [q.access] := by
  rw [meas_timestep] at h
  split_ifs at h with hname
  split at h
  · cases h
  · split_ifs at h
    cases h
    exact advances_reset hT hts

/-! ## Placing one operation -/

/-- What placing an operation does. -/
structure Places (K : ℕ) (s : LeafState) (k : ℕ) (g : GateCall Operand) (x : ℕ × ℕ)
    (s' : LeafState) : Prop where
  placed : s'.placed = s.placed.place k x
  last : ∀ a ∈ accesses g, s.funcQbits.lastUse a ≤ x.1
  puts : ∃ t ts, funcIndex (fname g) = some t ∧ Puts K ts t s.table x s'.table
  advances : Advances s.funcQbits s'.funcQbits (x.1 + 1) (accesses g)

variable {k : ℕ} {g : GateCall Operand}

theorem places_of_ok (hC : 1 ≤ C.RES_CONSTRAINT) (hT : s.funcQbits.Capped)
    (hw : s.funcQbits.Within s.table.currArrParGates.length)
    (h : calc_critical_time C s k g = .ok s') : ∃ x, Places C.RES_CONSTRAINT s k g x s' := by
  rw [calc_critical_time] at h
  split_ifs at h with hmeas
  · -- the first measurement
    obtain ⟨b, q, rfl⟩ := exists_of_isMeas (Bool.and_eq_true _ _ ▸ hmeas).2
    obtain ⟨⟨x, table⟩, hget, h⟩ := bind_eq_ok.mp h
    obtain ⟨T', hT', h⟩ := bind_eq_ok.mp h
    cases h
    obtain ⟨t, ht, hputs⟩ := puts_of_ok hC hget (Clocks.latest_le hw)
    refine ⟨x, rfl, fun a ha ↦ ?_, ⟨t, _, ht, hputs⟩, advances_meas hT hputs.le hT'⟩
    rw [accesses, GateCall.operands, List.map_singleton, List.mem_singleton] at ha
    subst ha
    have hq : q.name ∈ s.funcQbits.names := by
      rw [meas_timestep] at hT'
      split_ifs at hT' with hq
      exact List.contains_iff_mem.mp hq
    exact ((hT _).lastUse_le.trans (Clocks.top_le_latest hq)).trans hputs.le
  · obtain ⟨⟨T₁, m⟩, hmax, h⟩ := bind_eq_ok.mp h
    obtain ⟨⟨x, table⟩, hget, h⟩ := bind_eq_ok.mp h
    cases h
    obtain ⟨-, rfl, -, hlast, hleast⟩ := max_ts_of_all_args_eq_ok hmax
    have hm : m ≤ s.table.currArrParGates.length :=
      hleast _ (Nat.zero_le _) fun q _ ↦ hT.lastUse_le hw
    obtain ⟨t, ht, hputs⟩ := puts_of_ok hC hget hm
    have hle : ∀ a ∈ accesses g, s.funcQbits.lastUse a ≤ x.1 := by
      intro a ha
      obtain ⟨q, hq, rfl⟩ := List.mem_map.mp ha
      exact (hlast q hq).trans hputs.le
    refine ⟨x, rfl, hle, ⟨t, _, ht, hputs⟩, ?_⟩
    rw [update_last_timestep_eq]
    exact advances_use hT fun a ha ↦ (hle a ha).trans (Nat.le_succ _)

/-- An operation is placed if its operands have last uses, its type is found and the tables are
large enough. -/
theorem exists_calc_critical_time (hC : C.RES_CONSTRAINT ≤ MAX_RES_CONSTRAINT)
    (hname : (funcIndex (fname g)).isSome) (hops : ∀ q ∈ g.operands, q.name ∈ s.funcQbits.names)
    (hcov : ∀ a ∈ accesses g, s.funcQbits.Covers 0 a)
    (hmeas : ∀ b q, g = .meas b q → q.index ≠ none) :
    ∃ s', calc_critical_time C s k g = .ok s' := by
  rw [calc_critical_time]
  split_ifs with hm
  · obtain ⟨b, q, rfl⟩ := exists_of_isMeas (Bool.and_eq_true _ _ ▸ hm).2
    obtain ⟨x, table, hget⟩ :
        ∃ x T', get_ts_to_schedule_leaf C s.funcQbits.latest (fname (.meas b q)) s.table =
          .ok (x, T') :=
      exists_ok hname hC
    obtain ⟨i, hi⟩ := Option.ne_none_iff_exists'.mp (hmeas b q rfl)
    obtain ⟨w, hw, -⟩ : ∃ w, (s.funcQbits.clock q.name).elem i = some w ∧ 0 ≤ w := by
      have hq := hcov q.access (List.mem_singleton_self _)
      rw [Clocks.Covers, Operand.access, hi] at hq
      exact hq
    have hT' : ∃ T', meas_timestep s.funcQbits x.1 q = .ok T' := by
      have hsome : (((s.funcQbits.reset x.1).clock q.name).elem i).isSome := by
        rw [Clocks.reset, ArrayClock.elem_reset, hw]
        rfl
      have hq : q.name ∈ (s.funcQbits.reset x.1).names := hops q (List.mem_singleton_self _)
      rw [meas_timestep, if_pos (List.contains_iff_mem.mpr hq), hi]
      exact ⟨_, if_pos hsome⟩
    obtain ⟨T', hT'⟩ := hT'
    exact ⟨_, bind_eq_ok.mpr ⟨_, hget, bind_eq_ok.mpr ⟨_, hT', rfl⟩⟩⟩
  · obtain ⟨m, hmax⟩ := exists_max_ts (m := 0) hops
    obtain ⟨x, table, hget⟩ : ∃ x T', get_ts_to_schedule_leaf C m (fname g) s.table = .ok (x, T') :=
      exists_ok hname hC
    exact ⟨_, bind_eq_ok.mpr ⟨_, hmax, bind_eq_ok.mpr ⟨_, hget, rfl⟩⟩⟩

/-! ## The run -/

variable {F : LeafFunction}

/-- What holds while the operations are placed. -/
structure LeafInv (C : Constraints) (F : LeafFunction) (s : LeafState) : Prop where
  names : s.funcQbits.names = F.tracked
  capped : s.funcQbits.Capped
  within : s.funcQbits.Within s.table.currArrParGates.length
  full : s.table.Full C.RES_CONSTRAINT
  consistent : s.placed.Consistent
  timely : Timely (depends F.body) s.placed.time
  entries : ∀ g ∈ F.body, ∀ a ∈ accesses g, s.funcQbits.Covers 0 a
  covers : ∀ k x g, s.placed.slot k = some x → F.body[k]? = some g →
    ∀ a ∈ accesses g, s.funcQbits.Covers (x.1 + 1) a
  typed : ∀ k x, s.placed.slot k = some x → ∃ g t, F.body[k]? = some g ∧
    funcIndex (fname g) = some t ∧ s.table.typeAt x = some t

/-- All operands have last uses. -/
def LeafFunction.Tracked (F : LeafFunction) : Prop :=
  ∀ g ∈ F.body, ∀ q ∈ g.operands, q.name ∈ F.tracked

theorem LeafInv.ready (h : LeafInv C F s) (hg : F.body[k]? = some g) {n : ℕ}
    (hn : ∀ a ∈ accesses g, s.funcQbits.lastUse a ≤ n)
    (hdep : ∀ l, depends F.body l k → s.placed.slot l ≠ none) :
    Ready (depends F.body) s.placed.time k n := by
  intro l hl
  obtain ⟨y, hy⟩ := Option.ne_none_iff_exists'.mp (hdep l hl)
  obtain ⟨-, g', g'', hg', hg'', a, ha, b, hb, hab⟩ := hl
  obtain rfl : g = g'' := Option.some.inj (hg.symm.trans hg'')
  refine ⟨y.1, Placement.time_eq_some.mpr ⟨y.2, hy⟩, ?_⟩
  exact ((h.covers l y g' hy hg' a ha).le_lastUse h.capped hab).trans (hn b hb)

/-- **Placing an operation keeps the invariant.** -/
theorem LeafInv.step (h : LeafInv C F s) (htracked : F.Tracked) (hg : F.body[k]? = some g)
    {x : ℕ × ℕ} (hx : Places C.RES_CONSTRAINT s k g x s') (hk : s.placed.slot k = none)
    (hdep : ∀ l, depends F.body l k → s.placed.slot l ≠ none) : LeafInv C F s' := by
  obtain ⟨hplaced, hlast, ⟨t, ts, ht, hputs⟩, hadv⟩ := hx
  have hname : ∀ g ∈ F.body, ∀ a ∈ accesses g, a.1 ∈ s.funcQbits.names := by
    intro g hg a ha
    obtain ⟨q, hq, rfl⟩ := List.mem_map.mp ha
    rw [h.names]
    exact htracked g hg q hq
  have hfull := hputs.full h.full
  have hlen : x.1 + 1 ≤ s'.table.currArrParGates.length := (hfull.lt hputs.typeAt_self).1
  have hslot : ∀ {l y}, s'.placed.slot l = some y → (l = k ∧ y = x) ∨ s.placed.slot l = some y := by
    intro l y hl
    rw [hplaced] at hl
    by_cases hlk : l = k
    · subst hlk
      rw [Placement.slot_place_self, Option.some.injEq] at hl
      exact .inl ⟨rfl, hl.symm⟩
    · rw [Placement.slot_place_of_ne hlk] at hl
      exact .inr hl
  refine ⟨hadv.names.trans h.names, hadv.capped, ?_, hfull, ?_, ?_, fun g hg a ha ↦ ?_,
    fun l y g' hl hg' a ha ↦ ?_, fun l y hl ↦ ?_⟩
  · exact hadv.within _ (fun n ↦ (h.within n).trans hputs.length_le) hlen
  · rw [hplaced]
    exact h.consistent.place hk
  · rw [hplaced, Placement.time_place]
    exact h.timely.place (Placement.time_eq_none.mpr hk) (h.ready hg hlast hdep)
  · exact hadv.covers 0 a (hname g hg a ha) (h.entries g hg a ha)
  · rcases hslot hl with ⟨rfl, rfl⟩ | hl
    · obtain rfl : g = g' := Option.some.inj (hg.symm.trans hg')
      exact hadv.self a ha
    · exact hadv.covers _ a (hname g' (List.mem_of_getElem? hg') a ha) (h.covers l y g' hl hg' a ha)
  · rcases hslot hl with ⟨rfl, rfl⟩ | hl
    · exact ⟨g, t, hg, ht, hputs.typeAt_self⟩
    · obtain ⟨g', t', hg', ht', hat⟩ := h.typed l y hl
      exact ⟨g', t', hg', ht', hputs.typeAt_of y t' hat⟩

/-- The operations that are left come in the order of falling priorities, and all others are
placed. -/
structure Queue (C : Constraints) (F : LeafFunction) (T : FuncQbits) (all : List InstPri)
    (s : LeafState) (rest : List InstPri) : Prop where
  inv : LeafInv C F s
  prio : Prioritized T 0 F.body all
  falling : rest.Pairwise fun x y ↦ y.2 ≤ x.2
  nodup : (rest.map Prod.fst).Nodup
  mem : ∀ x ∈ rest, x ∈ all
  left : ∀ x ∈ rest, s.placed.slot x.1 = none
  placed : ∀ x ∈ all, x ∈ rest ∨ s.placed.slot x.1 ≠ none

variable {all rest : List InstPri} {p : ℕ}

theorem Queue.exists_gate (h : Queue C F T all s ((k, p) :: rest)) :
    ∃ g ∈ F.body, F.body[k]? = some g := by
  have hk := List.mem_map_of_mem (f := Prod.fst) (h.mem _ List.mem_cons_self)
  rw [h.prio.keys, List.mem_reverse, List.mem_range'_1, Nat.zero_add] at hk
  exact ⟨_, List.getElem_mem hk.2, List.getElem?_eq_getElem hk.2⟩

theorem Queue.depends_placed (h : Queue C F T all s ((k, p) :: rest)) {l : ℕ}
    (hl : depends F.body l k) : s.placed.slot l ≠ none := by
  obtain ⟨hlk, g, g', hg, hg', hover⟩ := hl
  have hmem : l ∈ all.map Prod.fst := by
    rw [h.prio.keys, List.mem_reverse, List.mem_range'_1]
    exact ⟨Nat.zero_le l, by rw [Nat.zero_add]; exact (List.getElem?_eq_some_iff.mp hg).1⟩
  obtain ⟨⟨l', q⟩, hq, rfl⟩ := List.mem_map.mp hmem
  have hlt : p < q := by
    refine h.prio.falls l' k g g' q p hlk hg hg' ?_ ?_ hover
    · rwa [Nat.zero_add]
    · rw [Nat.zero_add]
      exact h.mem _ List.mem_cons_self
  refine (h.placed _ hq).resolve_left fun hrest ↦ ?_
  rcases List.mem_cons.mp hrest with heq | hrest
  · obtain ⟨rfl, -⟩ := Prod.mk.inj heq
    exact lt_irrefl _ hlk
  · exact absurd ((List.pairwise_cons.mp h.falling).1 _ hrest) (not_le.mpr hlt)

theorem Queue.step (h : Queue C F T all s ((k, p) :: rest)) (htracked : F.Tracked)
    (hg : F.body[k]? = some g) {x : ℕ × ℕ} (hx : Places C.RES_CONSTRAINT s k g x s') :
    Queue C F T all s' rest := by
  have hnodup := List.nodup_cons.mp h.nodup
  have hne : ∀ y ∈ rest, y.1 ≠ k := by
    rintro y hy rfl
    have hmem := List.mem_map_of_mem (f := Prod.fst) hy
    exact hnodup.1 hmem
  refine ⟨h.inv.step htracked hg hx (h.left _ List.mem_cons_self) fun l ↦ h.depends_placed, h.prio,
    (List.pairwise_cons.mp h.falling).2, hnodup.2, fun y hy ↦ h.mem y (List.mem_cons_of_mem _ hy),
    fun y hy ↦ ?_, fun y hy ↦ ?_⟩
  · rw [hx.placed, Placement.slot_place_of_ne (hne y hy)]
    exact h.left y (List.mem_cons_of_mem _ hy)
  · rw [hx.placed]
    by_cases hyk : y.1 = k
    · rw [hyk, Placement.slot_place_self]
      exact .inr (Option.some_ne_none x)
    · rw [Placement.slot_place_of_ne hyk]
      refine (h.placed y hy).imp_left fun hmem ↦ (List.mem_cons.mp hmem).resolve_left ?_
      rintro rfl
      exact hyk rfl

/-- The invariant holds at the end, and then everything is placed. -/
theorem Queue.run (h : Queue C F T all s rest) (hC : 1 ≤ C.RES_CONSTRAINT) (htracked : F.Tracked)
    (hrun : placeAll C F.body s rest = .ok s') : Queue C F T all s' [] := by
  induction rest generalizing s with
  | nil =>
    cases hrun
    exact h
  | cons inst rest ih =>
    obtain ⟨g, -, hg⟩ := h.exists_gate
    rw [placeAll, hg] at hrun
    obtain ⟨s₁, hs₁, hrun⟩ := bind_eq_ok.mp hrun
    obtain ⟨x, hx⟩ := places_of_ok hC h.inv.capped h.inv.within hs₁
    exact ih (h.step htracked hg hx) hrun

/-- No operation makes the pass stop when all types are found and the tables are large enough. -/
theorem Queue.exists_run (h : Queue C F T all s rest) (hC : 1 ≤ C.RES_CONSTRAINT)
    (hmax : C.RES_CONSTRAINT ≤ MAX_RES_CONSTRAINT) (htracked : F.Tracked)
    (hname : ∀ g ∈ F.body, (funcIndex (fname g)).isSome) :
    ∃ s', placeAll C F.body s rest = .ok s' := by
  induction rest generalizing s with
  | nil => exact ⟨s, rfl⟩
  | cons inst rest ih =>
    obtain ⟨g, hmem, hg⟩ := h.exists_gate
    have hops : ∀ q ∈ g.operands, q.name ∈ s.funcQbits.names := by
      rw [h.inv.names]
      exact htracked g hmem
    obtain ⟨s₁, hs₁⟩ := exists_calc_critical_time hmax (hname g hmem) hops (h.inv.entries g hmem)
      fun b q hbq ↦ F.meas_elem b q (hbq ▸ hmem)
    obtain ⟨x, hx⟩ := places_of_ok hC h.inv.capped h.inv.within hs₁
    obtain ⟨s', hs'⟩ := ih (h.step htracked hg hx)
    rw [placeAll, hg]
    exact ⟨s', bind_eq_ok.mpr ⟨s₁, hs₁, hs'⟩⟩

theorem queue_start (S : PrioritySort) {insts : List InstPri}
    (h : priorityVector F.funcQbits 0 F.body = .ok (T, insts)) :
    Queue C F T insts ⟨T.reset 0, .empty, true, .empty⟩ (S.sort insts).reverse := by
  have hP : Prioritized T 0 F.body insts := prioritized (fun _ ↦ ArrayClock.capped_zero) h
  have hperm : (S.sort insts).reverse.Perm insts := (List.reverse_perm _).trans (S.perm insts)
  have hkeys : (insts.map Prod.fst).Nodup := by
    rw [hP.keys, List.nodup_reverse]
    exact List.nodup_range'
  refine ⟨⟨?_, Clocks.capped_reset, fun _ ↦ le_rfl, full_empty, Placement.consistent_empty,
    timely_none, fun g hg a ha ↦ ?_, fun k x g hx ↦ ?_, fun k x hx ↦ ?_⟩, hP, ?_, ?_,
    fun x hx ↦ hperm.mem_iff.mp hx, fun _ _ ↦ rfl, fun x hx ↦ .inl (hperm.mem_iff.mpr hx)⟩
  · exact (tracked_of_priorityVector h).1
  · obtain ⟨i, hi⟩ := List.mem_iff_getElem?.mp hg
    have hmem : i ∈ insts.map Prod.fst := by
      rw [hP.keys, List.mem_reverse, List.mem_range'_1, Nat.zero_add]
      exact ⟨Nat.zero_le i, (List.getElem?_eq_some_iff.mp hi).1⟩
    obtain ⟨⟨i', p⟩, hp, rfl⟩ := List.mem_map.mp hmem
    have hcov := hP.covers i' g p hi (by rwa [Nat.zero_add]) a ha
    exact (hcov.mono (Nat.zero_le p)).reset le_rfl
  · cases hx
  · cases hx
  · rw [List.pairwise_reverse]
    exact S.sorted insts
  · exact (hperm.map Prod.fst).nodup_iff.mpr hkeys

/-! ## The schedule -/

/-- The schedule has every operation of the function once, each strictly after what it depends on.
It uses no more than `K` regions at a timestep, and gates of one kind only in each. -/
structure ListScheduleRight (K : ℕ) (F : LeafFunction) (s : Placement ℕ ℕ) : Prop where
  complete : s.Complete (List.range F.body.length)
  after : Timely (depends F.body) s.time
  regions : ∀ ts (rs : Finset ℕ), (∀ r ∈ rs, s.opsAt (ts, r) ≠ []) → rs.card ≤ K
  oneType : ∀ x, ∀ k ∈ s.opsAt x, ∀ l ∈ s.opsAt x,
    F.body[k]?.map GateCall.baseName = F.body[l]?.map GateCall.baseName

theorem Queue.right (h : Queue C F T all s []) : ListScheduleRight C.RES_CONSTRAINT F s.placed := by
  have hinv := h.inv
  refine ⟨?_, hinv.timely, fun ts rs hrs ↦ ?_, fun x k hk l hl ↦ ?_⟩
  · refine (hinv.consistent.forall_placed_iff List.nodup_range fun k hk ↦ ?_).mpr fun k hk ↦ ?_
    · obtain ⟨x, hx⟩ := Option.ne_none_iff_exists'.mp hk
      obtain ⟨g, -, hg, -⟩ := hinv.typed k x hx
      exact List.mem_range.mpr (List.getElem?_eq_some_iff.mp hg).1
    · have hmem : k ∈ all.map Prod.fst := by
        rw [h.prio.keys, List.mem_reverse, List.mem_range'_1, Nat.zero_add]
        exact ⟨Nat.zero_le k, List.mem_range.mp hk⟩
      obtain ⟨y, hy, rfl⟩ := List.mem_map.mp hmem
      exact (h.placed y hy).resolve_left List.not_mem_nil
  · have hsub : rs ⊆ Finset.range C.RES_CONSTRAINT := by
      intro r hr
      obtain ⟨k, hk⟩ := List.exists_mem_of_ne_nil _ (hrs r hr)
      obtain ⟨-, t, -, -, ht⟩ :=
        hinv.typed k _ ((hinv.consistent.mem _ k).mp (Placement.mem_opsAt.mp hk))
      exact Finset.mem_range.mpr (hinv.full.lt ht).2
    exact (Finset.card_le_card hsub).trans_eq (Finset.card_range _)
  · have htyped : ∀ {k}, k ∈ s.placed.opsAt x → ∃ g t, F.body[k]? = some g ∧
        funcIndex (fname g) = some t ∧ s.table.typeAt x = some t :=
      fun hk ↦ hinv.typed _ _ ((hinv.consistent.mem x _).mp (Placement.mem_opsAt.mp hk))
    obtain ⟨g, t, hg, ht, hat⟩ := htyped hk
    obtain ⟨g', t', hg', ht', hat'⟩ := htyped hl
    obtain rfl : t = t' := Option.some.inj (hat.symm.trans hat')
    rw [hg, hg', Option.map_some, Option.map_some, baseName_eq_of_funcIndex ht ht']

/-- A gate cannot be placed in an empty table that is too small for the regions. -/
theorem le_max_of_calc_critical_time (h : calc_critical_time C s k g = .ok s')
    (hs : s.table = .empty) : C.RES_CONSTRAINT ≤ MAX_RES_CONSTRAINT := by
  rw [calc_critical_time, hs] at h
  split_ifs at h
  · obtain ⟨_, hget, -⟩ := bind_eq_ok.mp h
    exact le_max_of_ok hget
  · obtain ⟨_, -, h⟩ := bind_eq_ok.mp h
    obtain ⟨_, hget, -⟩ := bind_eq_ok.mp h
    exact le_max_of_ok hget

/-- The functions and numbers of regions the pass can deal with: no gate is a `Y` or a rotation, no
operand is an ancilla argument, and the regions fit into the tables. -/
structure LeafFunction.Supported (F : LeafFunction) (K : ℕ) : Prop where
  listed : ∀ g ∈ F.body, g.baseName ∉ unlisted
  tracked : F.Tracked
  fits : F.body = [] ∨ K ≤ MAX_RES_CONSTRAINT

/-- **The list schedule of a leaf function is there and is right exactly when the pass can deal with
the function and the number of regions.** -/
theorem listScheduleRight_iff (C : Constraints) (S : PrioritySort) (F : LeafFunction)
    (hC : 1 ≤ C.RES_CONSTRAINT) :
    (∃ s, schedule C S F = .ok s ∧ ListScheduleRight C.RES_CONSTRAINT F s.placed) ↔
      F.Supported C.RES_CONSTRAINT := by
  constructor
  · rintro ⟨s, hs, hright⟩
    obtain ⟨⟨T, insts⟩, hprio, hrun⟩ := bind_eq_ok.mp hs
    have htracked : F.Tracked := (tracked_of_priorityVector hprio).2
    have hend := (queue_start (C := C) S hprio).run hC htracked hrun
    refine ⟨fun g hg ↦ ?_, htracked, ?_⟩
    · -- what is placed has a type
      obtain ⟨k, hk⟩ := List.mem_iff_getElem?.mp hg
      have hlt : k ∈ List.range F.body.length :=
        List.mem_range.mpr (List.getElem?_eq_some_iff.mp hk).1
      have hplaced := hend.inv.consistent.mem_map_snd.mp (hright.complete.mem_iff.mpr hlt)
      obtain ⟨x, hx⟩ := Option.ne_none_iff_exists'.mp hplaced
      obtain ⟨g', t, hg', ht, -⟩ := hend.inv.typed k x hx
      obtain rfl : g = g' := Option.some.inj (hk.symm.trans hg')
      rw [← isSome_funcIndex, ht]
      rfl
    · -- the first operation needs a timestep
      cases hrest : (S.sort insts).reverse with
      | nil =>
        left
        have hkeys := (prioritized (fun _ ↦ ArrayClock.capped_zero) hprio).keys
        rw [List.reverse_eq_nil_iff] at hrest
        have hnil := (S.perm insts).symm
        rw [hrest, List.perm_nil] at hnil
        rw [hnil, List.map_nil, eq_comm, List.reverse_eq_nil_iff, List.range'_eq_nil_iff] at hkeys
        exact List.eq_nil_of_length_eq_zero hkeys
      | cons inst rest =>
        right
        dsimp only at hrun
        rw [hrest, placeAll] at hrun
        split at hrun
        · cases hrun
        · obtain ⟨s₁, hs₁, -⟩ := bind_eq_ok.mp hrun
          exact le_max_of_calc_critical_time hs₁ rfl
  · rintro ⟨hlisted, htracked, hfits⟩
    obtain ⟨T, insts, hprio⟩ := exists_priorityVector (T := F.funcQbits) (k := 0) htracked
    have hstart := queue_start (C := C) S hprio
    have hrun : ∃ s, placeAll C F.body ⟨T.reset 0, .empty, true, .empty⟩ (S.sort insts).reverse =
        .ok s := by
      rcases hfits with hnil | hmax
      · have hkeys := hstart.prio.keys
        rw [hnil, List.length_nil, List.range'_zero, List.reverse_nil, List.map_eq_nil_iff] at hkeys
        have hempty : S.sort insts = [] := List.perm_nil.mp (hkeys ▸ S.perm insts)
        rw [hempty]
        exact ⟨_, rfl⟩
      · exact hstart.exists_run hC hmax htracked fun g hg ↦ (isSome_funcIndex g).mpr (hlisted g hg)
    obtain ⟨s, hs⟩ := hrun
    exact ⟨s, bind_eq_ok.mpr ⟨_, hprio, hs⟩, (hstart.run hC htracked hs).right⟩

def oneRotation : LeafFunction :=
  ⟨[], [("q".toList, .qbit)], [.rot .z ⟨"q".toList, .qbit, some 0⟩ 1], by simp⟩

theorem not_listScheduleRight_oneRotation :
    ¬ ∀ (C : Constraints) (S : PrioritySort) (F : LeafFunction), 1 ≤ C.RES_CONSTRAINT →
      ∃ s, schedule C S F = .ok s ∧ ListScheduleRight C.RES_CONSTRAINT F s.placed := by
  intro h
  obtain ⟨s, hs, -⟩ := h ⟨1, 1024⟩ .stable oneRotation le_rfl
  have hfail : (schedule ⟨1, 1024⟩ .stable oneRotation).toOption.isNone := by decide +kernel
  rw [hs] at hfail
  exact absurd hfail Bool.false_ne_true

/-- Two gates of one qubit and one of another, with two regions. -/
def hadamards : LeafFunction :=
  ⟨[], [("q".toList, .qbit)], [.gate1 .H ⟨"q".toList, .qbit, some 0⟩,
    .gate1 .T ⟨"q".toList, .qbit, some 0⟩, .meas .z ⟨"q".toList, .qbit, some 1⟩], by simp⟩

theorem listScheduleRight_hadamards :
    ∃ s, schedule ⟨2, 1024⟩ .stable hadamards = .ok s ∧ ListScheduleRight 2 hadamards s.placed := by
  refine (listScheduleRight_iff ⟨2, 1024⟩ .stable hadamards (by decide)).mpr ⟨?_, ?_, ?_⟩
  · decide +kernel
  · unfold LeafFunction.Tracked
    decide +kernel
  · exact .inr (by decide)

end ScaffCC.GenSimd
