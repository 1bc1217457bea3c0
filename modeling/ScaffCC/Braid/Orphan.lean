import Mathlib.Data.Set.Basic
import ScaffCC.Braid.Order
import ScaffCC.Braid.Route

/-!
# Gates that are never finished

A gate that has started, and is neither completed nor dropped since, should have an event among the
ready ones, or a next event whose timer counts down. The timer of an event is set when the event
before it succeeds, from the table that is built with the code distance. But the distance that is
computed is not the one that is returned, so the table is built with zero, and the timers of
`cnot5` and `cnot7` are `-1`, which says that the event before them has not succeeded yet.

So every `CNOT` gets stuck as soon as its `cnot4` succeeds, and the simulation only does what it
should as long as none does.
-/

namespace ScaffCC.Braid

variable {P : Setting} {s : Sim} {ready : List ℕ} {evs : List (ℕ × EventType)} {g k : ℕ}

/-- Whether the events of a gate were queued, and it was neither completed nor dropped since. -/
def Started : List Entry → ℕ → Prop
  | [], _ => False
  | .queued g' :: older, g => g' = g ∨ Started older g
  | .tried _ _ _ :: older, g => Started older g
  | .dropped g' :: older, g => g' ≠ g ∧ Started older g
  | .completed g' :: older, g => g' ≠ g ∧ Started older g

/-- A gate has a ready event, or its next event counts down. -/
def Attended (s : Sim) (g : ℕ) : Prop :=
  g ∈ s.ready_events.map Event.gate ∨ ∃ e rest, s.event_queues g = e :: rest ∧ 0 ≤ e.timer

/-- No gate with events is orphaned: each one that has started is attended, and it has a ready event
after finitely many increments of the clock. -/
def NoOrphan (P : Setting) (s : Sim) : Prop :=
  ∀ g, P.typesAt g ≠ [] → Started s.log g → Attended s g ∧
    ∃ n, g ∈ ((increment_clock P)^[n] s).ready_events.map Event.gate

/-- Whether only events of some types succeed when the events of a list are tried. -/
def Allowed (P : Setting) (ok : EventType → Prop) : Trying → List Event → Prop
  | _, [] => True
  | t, e :: l =>
    ((do_event t.sim.mesh (P.seqAt e.gate) e).isSome → ok e.type) ∧ Allowed P ok (tryEvent P t e) l

/-- The events in the order in which they are tried. -/
def pending (P : Setting) (s : Sim) : List Event :=
  if P.priority_policy ≠ 0 then P.order.sort s.clk s.ready_events else s.ready_events

/-- Whether only events of some types succeed in the round. -/
def AllowedRound (P : Setting) (ok : EventType → Prop) (s : Sim) : Prop :=
  let s' := increment_clock P (queueGates P s)
  Allowed P ok ⟨{s' with ready_events := []}, false, false⟩ (pending P s')

/-! ## What concerns one gate -/

/-- The part of a state that is about one gate. -/
@[ext]
structure Local where
  queue : List Event
  started : Prop
  events : Set EventType

/-- The part of a state, and of the events that are ready, that is about a gate. -/
def localAt (s : Sim) (evs : List (ℕ × EventType)) (g : ℕ) : Local :=
  ⟨s.event_queues g, Started s.log g, {t | (g, t) ∈ evs}⟩

theorem localAt_queueGate (h : k ≠ g) : localAt (queueGate P s g) evs k = localAt s evs k := by
  refine Local.ext (Function.update_of_ne h ..) (propext ?_) rfl
  exact or_iff_right (Ne.symm h)

theorem setOf_mem_map_key {e : Event} (h : k ≠ e.gate) (l l' : List Event) :
    {t | (k, t) ∈ (l ++ e :: l').map Event.key} = {t | (k, t) ∈ (l ++ l').map Event.key} := by
  ext t
  simp only [Set.mem_ofPred_eq, List.map_append, List.mem_append, List.map_cons, List.mem_cons,
    Event.key, Prod.mk.injEq, h, false_and, false_or]

theorem localAt_tickQueue (h : Inv P s ready (s.ready_events.map Event.key)) (hk : k ≠ g) :
    localAt (tickQueue s g) ((tickQueue s g).ready_events.map Event.key) k =
      localAt s (s.ready_events.map Event.key) k := by
  simp only [tickQueue]
  split
  · rfl
  · next e rest hq =>
    have hgate : e.gate = g := h.queue_gate g e (hq ▸ List.mem_cons_self)
    have hadd : ∀ n, {t | (k, t) ∈ (s.ready_events ++ [{e with timer := n}]).map Event.key} =
        {t | (k, t) ∈ s.ready_events.map Event.key} := by
      intro n
      rw [setOf_mem_map_key (e := {e with timer := n}) (hgate ▸ hk), List.append_nil]
    split_ifs
    · rfl
    all_goals first
      | exact Local.ext (Function.update_of_ne hk ..) rfl (hadd _)
      | exact Local.ext (Function.update_of_ne hk ..) rfl rfl

theorem Rerouted.same_of_ne {e : Event} {x : Sim × Event} (hx : Rerouted s e x) :
    x.2.key = e.key ∧ x.1.log = s.log ∧ x.1.ready_events = s.ready_events ∧
      ∀ k, k ≠ e.gate → x.1.event_queues k = s.event_queues k := by
  cases hx with
  | same => exact ⟨rfl, rfl, rfl, fun _ _ ↦ rfl⟩
  | other _ he _ =>
    exact ⟨Prod.ext he.2 he.1, rfl, rfl, fun _ hk ↦ Function.update_of_ne hk ..⟩

theorem localAt_tryEvent {t : Trying} {e : Event} {rest : List Event} (hk : k ≠ e.gate) :
    localAt (tryEvent P t e).sim (((tryEvent P t e).sim.ready_events ++ rest).map Event.key) k =
      localAt t.sim ((t.sim.ready_events ++ e :: rest).map Event.key) k := by
  have hcons := (setOf_mem_map_key hk t.sim.ready_events rest).symm
  rw [tryEvent]
  split
  · dsimp only
    rw [succeed]
    split
    · exact Local.ext rfl (propext (and_iff_right (Ne.symm hk))) hcons
    · exact Local.ext (Function.update_of_ne hk ..) rfl hcons
  · -- the event fails, and perhaps the gate is dropped
    obtain ⟨⟨s, e'⟩, YX_flag, hx, heq⟩ := fail_cases P
      {t with sim := {t.sim with log := .tried e.gate e.type false :: t.sim.log}} e
    obtain ⟨hkey, hlog, hready, hqueue⟩ := hx.same_of_ne
    have hgate : e'.gate = e.gate := congrArg Prod.fst hkey
    dsimp only at hlog hready hqueue
    rcases heq with heq | heq <;> rw [heq, localAt, localAt]
    · dsimp only [drop]
      rw [hgate, hlog, hready, ← hcons]
      refine Local.ext ((Function.update_of_ne hk ..).trans (hqueue k hk)) (propext ?_) rfl
      exact and_iff_right (Ne.symm hk)
    · dsimp only
      rw [hqueue k hk, hlog, hready, ← hcons, List.append_assoc, List.singleton_append,
        setOf_mem_map_key (hgate ▸ hk)]
      rfl

/-! ## The steps of one gate -/

/-- What may happen to one gate, if only events of some types succeed. -/
inductive LocalStep (P : Setting) (ok : EventType → Prop) (g : ℕ) : Local → Local → Prop
  | idle (v : Local) : LocalStep P ok g v v
  | queued {v : Local} {queue : List Event} (types : queue.map Event.type = P.typesAt g)
      (timer : ∀ e rest, queue = e :: rest → e.timer = 1) :
      LocalStep P ok g v ⟨queue, True, ∅⟩
  | counted {e : Event} {rest : List Event} {started : Prop} {events : Set EventType}
      (pos : 0 < e.timer) :
      LocalStep P ok g ⟨e :: rest, started, events⟩
        ⟨{e with timer := e.timer - 1} :: rest, started, events⟩
  | lapsed {e : Event} {rest : List Event} {started : Prop} (nonneg : 0 ≤ e.timer)
      (waiting : ∀ e' ∈ rest, e'.timer = -1) :
      LocalStep P ok g ⟨e :: rest, started, ∅⟩ ⟨rest, started, {e.type}⟩
  | advanced {t : EventType} {next next' : Event} {rest : List Event} {started : Prop} (ht : ok t)
      (types : t :: next.type :: rest.map Event.type <:+ P.typesAt g)
      (type : next'.type = next.type)
      (timer : next'.timer = event_timers P.code_distance next.type) :
      LocalStep P ok g ⟨next :: rest, started, {t}⟩ ⟨next' :: rest, started, ∅⟩
  | stayed {t : EventType} {queue queue' : List Event} {started : Prop}
      (same : queue'.map (fun e ↦ (e.type, e.timer)) = queue.map fun e ↦ (e.type, e.timer)) :
      LocalStep P ok g ⟨queue, started, {t}⟩ ⟨queue', started, {t}⟩
  | ended {v : Local} : LocalStep P ok g v ⟨[], False, ∅⟩

variable {A : EventType → Prop}

theorem setOf_mem_eq_empty (h : g ∉ evs.map Prod.fst) : {t | (g, t) ∈ evs} = ∅ :=
  Set.eq_empty_iff_forall_notMem.mpr fun t ht ↦ h (List.mem_map.mpr ⟨(g, t), ht, rfl⟩)

theorem setOf_mem_eq_singleton {t : EventType} (h : (evs.map Prod.fst).Nodup) (ht : (g, t) ∈ evs) :
    {t' | (g, t') ∈ evs} = {t} := by
  ext t'
  refine ⟨fun ht' ↦ ?_, fun ht' ↦ ht' ▸ ht⟩
  exact congrArg Prod.snd (List.inj_on_of_nodup_map h ht' ht rfl)

theorem Inv.localStep_queueGate (h : Inv P s (g :: ready) evs) :
    LocalStep P A g (localAt s evs g) (localAt (Braid.queueGate P s g) evs g) := by
  have hqueue : (Braid.queueGate P s g).event_queues g =
      ((P.opAt g).map fun op ↦ events P.routing op g).getD [] :=
    Function.update_self ..
  have hstarted : Started (Braid.queueGate P s g).log g = True :=
    propext ⟨fun _ ↦ trivial, fun _ ↦ .inl rfl⟩
  rw [localAt, localAt, setOf_mem_eq_empty (h.idle g (.inl List.mem_cons_self)).2, hstarted, hqueue]
  refine .queued ?_ fun e rest he ↦ ?_
  · rw [Setting.typesAt]
    cases P.opAt g with
    | none => rfl
    | some op => exact map_type_events
  · cases hop : P.opAt g with
    | none =>
      rw [hop] at he
      cases he
    | some op =>
      rw [hop] at he
      exact (timer_events he).1

theorem Inv.localStep_tickQueue (h : Inv P s ready (s.ready_events.map Event.key)) :
    LocalStep P A g (localAt s (s.ready_events.map Event.key) g)
      (localAt (Braid.tickQueue s g) ((Braid.tickQueue s g).ready_events.map Event.key) g) := by
  rw [Braid.tickQueue]
  split
  · exact .idle _
  · next e rest hq =>
    by_cases hneg : e.timer < 0
    · rw [if_pos hneg]
      exact .idle _
    have hgate : e.gate = g := h.queue_gate g e (hq ▸ List.mem_cons_self)
    have hev : g ∉ (s.ready_events.map Event.key).map Prod.fst := by
      intro hmem
      have htimer := h.waiting g hmem e (hq ▸ List.mem_cons_self)
      omega
    have hempty := setOf_mem_eq_empty hev
    rw [if_neg hneg]
    dsimp only
    by_cases hzero : (if e.timer ≠ 0 then e.timer - 1 else e.timer) = 0
    · rw [if_pos hzero, localAt, localAt, hempty, hq]
      have hadd : {t | (g, t) ∈ (s.ready_events.map Event.key) ++ [(g, e.type)]} = {e.type} := by
        refine setOf_mem_eq_singleton ?_ (List.mem_append_right _ List.mem_cons_self)
        rw [List.map_append, List.map_singleton]
        refine h.evs_nodup.append (List.nodup_singleton _) fun k hk hkg ↦ hev ?_
        rwa [List.mem_singleton.mp hkg] at hk
      dsimp only
      rw [List.map_append, List.map_singleton, Event.key, hgate, hadd, Function.update_self]
      exact .lapsed (not_lt.mp hneg) (h.tail g e rest hq)
    · rw [if_neg hzero]
      have hne : e.timer ≠ 0 := fun h0 ↦ hzero (by rw [if_neg (not_not.mpr h0), h0])
      rw [localAt, localAt, hq]
      dsimp only
      rw [Function.update_self, if_pos hne]
      exact .counted (by omega)

theorem Inv.localStep_tryEvent {tr : Trying} {e : Event} {rest : List Event}
    (h : Inv P tr.sim tr.sim.ready_gates ((tr.sim.ready_events ++ e :: rest).map Event.key))
    (hok : (do_event tr.sim.mesh (P.seqAt e.gate) e).isSome → A e.type) :
    LocalStep P A e.gate (localAt tr.sim ((tr.sim.ready_events ++ e :: rest).map Event.key) e.gate)
      (localAt (Braid.tryEvent P tr e).sim
        (((Braid.tryEvent P tr e).sim.ready_events ++ rest).map Event.key) e.gate) := by
  have hcons : Inv P tr.sim tr.sim.ready_gates
      (e.key :: (tr.sim.ready_events ++ rest).map Event.key) :=
    h.perm (List.perm_middle.map Event.key)
  -- the event is the only one of its gate, and none is left without it
  have hself : {t | (e.gate, t) ∈ (tr.sim.ready_events ++ e :: rest).map Event.key} = {e.type} := by
    refine setOf_mem_eq_singleton h.evs_nodup (List.mem_map.mpr ⟨e, ?_, rfl⟩)
    exact List.mem_append_right _ List.mem_cons_self
  have hother : {t | (e.gate, t) ∈ (tr.sim.ready_events ++ rest).map Event.key} = ∅ :=
    setOf_mem_eq_empty hcons.of_cons.1
  rw [localAt, hself, Braid.tryEvent]
  split
  · next mesh hmesh =>
    dsimp only
    rw [succeed]
    split
    · next hq =>
      have hfalse : Started (.completed e.gate :: .tried e.gate e.type true :: tr.sim.log) e.gate =
          False :=
        propext ⟨fun hs ↦ hs.1 rfl, False.elim⟩
      rw [localAt]
      dsimp only [Braid.complete] at hq ⊢
      rw [hother, hfalse, hq]
      exact .ended
    · next next rest' hq =>
      have htypes := hcons.of_cons.2.2.2.2
      dsimp only at hq
      rw [hq] at htypes
      rw [localAt]
      dsimp only
      rw [hother, hq, Function.update_self]
      exact .advanced (hok (by rw [hmesh]; rfl)) htypes rfl rfl
  · dsimp only
    -- no route is free: the event is dropped, or it stays with another route
    obtain ⟨⟨s, e'⟩, YX_flag, hx, heq⟩ := fail_cases P
      {tr with sim := {tr.sim with log := .tried e.gate e.type false :: tr.sim.log}} e
    obtain ⟨hkey, hlog, hready, -⟩ := hx.same_of_ne
    have hgate : e'.gate = e.gate := congrArg Prod.fst hkey
    dsimp only at hlog hready
    rcases heq with heq | heq <;> rw [heq, localAt]
    · -- the gate is dropped
      have hfalse : Started (.dropped e.gate :: s.log) e.gate = False :=
        propext ⟨fun hs ↦ hs.1 rfl, False.elim⟩
      dsimp only [Braid.drop]
      rw [hgate, Function.update_self, hready, hother, hfalse]
      exact .ended
    · -- the event stays
      have hkeys : (s.ready_events ++ [e'] ++ rest).map Event.key =
          (tr.sim.ready_events ++ e :: rest).map Event.key := by
        have hkey : e'.key = e.key := hkey
        rw [hready, List.append_assoc, List.singleton_append, List.map_append, List.map_append,
          List.map_cons, List.map_cons, hkey]
      dsimp only
      rw [hkeys, hself, hlog]
      refine .stayed ?_
      cases hx with
      | same => rfl
      | other hq _ hhead =>
        dsimp only at hq ⊢
        rw [hq, Function.update_self, List.map_cons, List.map_cons, hhead.1, hhead.2.2]

/-! ## Runs -/

/-- The ready events, by gate and type. -/
def Sim.keys (s : Sim) : List (ℕ × EventType) := s.ready_events.map Event.key

variable {Q : ℕ → Local → Prop}

theorem LocalStep.forall_localAt {s' : Sim} {evs' : List (ℕ × EventType)}
    (hstep : ∀ g v v', LocalStep P A g v v' → Q g v → Q g v')
    (hother : ∀ k, k ≠ g → localAt s' evs' k = localAt s evs k)
    (hg : LocalStep P A g (localAt s evs g) (localAt s' evs' g)) (h : ∀ k, Q k (localAt s evs k))
    (k : ℕ) : Q k (localAt s' evs' k) := by
  by_cases hk : k = g
  · subst hk
    exact hstep _ _ _ hg (h k)
  · exact hother k hk ▸ h k

theorem Inv.forall_localAt_queueGates (hstep : ∀ g v v', LocalStep P A g v v' → Q g v → Q g v')
    (hinv : Inv P s s.ready_gates s.keys) (h : ∀ k, Q k (localAt s s.keys k)) (k : ℕ) :
    Q k (localAt (Braid.queueGates P s) (Braid.queueGates P s).keys k) := by
  have hfold : ∀ (l : List ℕ) (s : Sim), Inv P s l s.keys → (∀ k, Q k (localAt s s.keys k)) →
      ∀ k, Q k
        (localAt (l.foldl (Braid.queueGate P) s) (l.foldl (Braid.queueGate P) s).keys k) := by
    intro l
    induction l with
    | nil => exact fun s _ h ↦ h
    | cons g l ih =>
      intro s hinv h
      refine ih _ hinv.queueGate ?_
      exact LocalStep.forall_localAt hstep (fun k hk ↦ localAt_queueGate hk)
        hinv.localStep_queueGate h
  exact hfold s.ready_gates {s with ready_gates := []} (hinv.congr rfl rfl rfl) h k

theorem Inv.forall_localAt_increment_clock
    (hstep : ∀ g v v', LocalStep P A g v v' → Q g v → Q g v')
    (hinv : Inv P s ready s.keys) (h : ∀ k, Q k (localAt s s.keys k)) (k : ℕ) :
    Q k (localAt (Braid.increment_clock P s) (Braid.increment_clock P s).keys k) := by
  have hfold : ∀ (l : List ℕ) (s : Sim), Inv P s ready s.keys → (∀ k, Q k (localAt s s.keys k)) →
      ∀ k, Q k (localAt (l.foldl Braid.tickQueue s) (l.foldl Braid.tickQueue s).keys k) := by
    intro l
    induction l with
    | nil => exact fun s _ h ↦ h
    | cons g l ih =>
      intro s hinv h
      refine ih _ (hinv.tickQueue g) ?_
      exact LocalStep.forall_localAt hstep (fun k hk ↦ localAt_tickQueue hinv hk)
        hinv.localStep_tickQueue h
  exact hfold _ {s with clk := s.clk + 1} (hinv.congr rfl rfl rfl) h k

theorem Inv.forall_localAt_foldl_tryEvent
    (hstep : ∀ g v v', LocalStep P A g v v' → Q g v → Q g v') {l : List Event} {t : Trying}
    (hinv : Inv P t.sim t.sim.ready_gates ((t.sim.ready_events ++ l).map Event.key))
    (hok : Allowed P A t l)
    (h : ∀ k, Q k (localAt t.sim ((t.sim.ready_events ++ l).map Event.key) k)) (k : ℕ) :
    Q k (localAt (l.foldl (Braid.tryEvent P) t).sim (l.foldl (Braid.tryEvent P) t).sim.keys k) := by
  induction l generalizing t with
  | nil =>
    rw [List.append_nil] at h
    exact h k
  | cons e l ih =>
    refine ih hinv.tryEvent hok.2 ?_
    exact LocalStep.forall_localAt hstep (fun k hk ↦ localAt_tryEvent hk)
      (hinv.localStep_tryEvent hok.1) h

theorem perm_pending : (pending P s).Perm s.ready_events := by
  rw [pending]
  split
  · exact P.order.perm _ _
  · exact .refl _

theorem Inv.pending (hinv : Inv P s s.ready_gates s.keys) :
    Inv P {s with ready_events := []} s.ready_gates
      (([] ++ Braid.pending P s).map Event.key) :=
  (hinv.perm (perm_pending.map Event.key).symm).congr rfl rfl rfl

theorem localAt_pending : localAt {s with ready_events := []}
    (([] ++ pending P s).map Event.key) k = localAt s s.keys k := by
  refine Local.ext rfl rfl (Set.ext fun t ↦ ?_)
  exact (perm_pending.map Event.key).mem_iff

/-- The state in which the events of a round are tried. -/
theorem Inv.ticked (hinv : Inv P s s.ready_gates s.keys) :
    Inv P (Braid.increment_clock P (Braid.queueGates P s))
      (Braid.increment_clock P (Braid.queueGates P s)).ready_gates
      (Braid.increment_clock P (Braid.queueGates P s)).keys := by
  rw [ready_gates_increment_clock]
  exact hinv.queueGates.increment_clock

/-- **A round keeps what every step of a gate keeps.** -/
theorem Inv.forall_localAt_round (hstep : ∀ g v v', LocalStep P A g v v' → Q g v → Q g v')
    (hinv : Inv P s s.ready_gates s.keys) (hok : AllowedRound P A s)
    (h : ∀ k, Q k (localAt s s.keys k)) (k : ℕ) :
    Q k (localAt (Braid.round P s) (Braid.round P s).keys k) := by
  refine Inv.forall_localAt_foldl_tryEvent hstep hinv.ticked.pending hok (fun k ↦ ?_) k
  exact localAt_pending ▸ Inv.forall_localAt_increment_clock hstep hinv.queueGates
    (Inv.forall_localAt_queueGates hstep hinv h) k

/-- What holds at the start and is kept by every step of a gate holds in every state reached. -/
theorem Reachable.forall_localAt (hstep : ∀ g v v', LocalStep P A g v v' → Q g v → Q g v')
    (hstart : ∀ k, Q k ⟨[], False, ∅⟩)
    (hok : ∀ s, Reachable P s → Running s → AllowedRound P A s) (h : Reachable P s) (k : ℕ) :
    Q k (localAt s s.keys k) := by
  induction h generalizing k with
  | start =>
    have hempty : localAt (Braid.start P) (Braid.start P).keys k = ⟨[], False, ∅⟩ :=
      Local.ext rfl rfl (setOf_mem_eq_empty List.not_mem_nil)
    rw [hempty]
    exact hstart k
  | round hs hrun ih => exact Inv.forall_localAt_round hstep hs.inv (hok _ hs hrun) ih k

/-! ## What holds of each gate -/

/-- A gate with anything queued or ready has started. -/
def Begun (v : Local) : Prop := v.queue ≠ [] ∨ v.events.Nonempty → v.started

theorem LocalStep.begun {v v' : Local} (h : LocalStep P A g v v') (hv : Begun v) : Begun v' := by
  cases h with
  | idle => exact hv
  | queued => exact fun _ ↦ trivial
  | counted => exact fun _ ↦ hv (.inl (List.cons_ne_nil _ _))
  | lapsed => exact fun _ ↦ hv (.inl (List.cons_ne_nil _ _))
  | advanced => exact fun _ ↦ hv (.inr ⟨_, rfl⟩)
  | stayed => exact fun _ ↦ hv (.inr ⟨_, rfl⟩)
  | ended =>
    rintro (hne | hne)
    · exact hne rfl
    · exact Set.not_nonempty_empty hne

/-- The types of the events up to the one that gets stuck. -/
def EventType.early : EventType → Bool
  | .cnot5 | .cnot6 | .cnot7 => false
  | _ => true

theorem EventType.early_of_suffix {t t' : EventType} {l : List EventType}
    (h : t :: t' :: l <:+ P.typesAt g) (ht : t.early) (hne : t ≠ .cnot4) : t'.early := by
  rw [Setting.typesAt] at h
  cases hop : P.opAt g with
  | none =>
    rw [hop] at h
    cases List.suffix_nil.mp h
  | some op =>
    rw [hop, Option.map_some, Option.getD_some] at h
    cases op with
    | CNOT src dest =>
      simp only [Op.eventTypes, List.suffix_cons_iff, List.cons.injEq, List.suffix_nil,
        List.cons_ne_nil, and_false, or_false] at h
      rcases h with h | h | h | h | h | h <;> obtain ⟨rfl, rfl, -⟩ := h <;>
        first | rfl | exact absurd rfl hne | cases ht
    | H q =>
      simp only [Op.eventTypes, List.suffix_cons_iff, List.cons.injEq, List.suffix_nil,
        List.cons_ne_nil, and_false, or_false] at h
      obtain ⟨rfl, rfl, -⟩ := h
      rfl
    | _ => cases List.suffix_nil.mp h

theorem EventType.early_head {t : EventType} {l : List EventType} (h : t :: l = P.typesAt g) :
    t.early := by
  rw [Setting.typesAt] at h
  cases hop : P.opAt g with
  | none =>
    rw [hop] at h
    cases h
  | some op =>
    rw [hop, Option.map_some, Option.getD_some] at h
    cases op <;> cases h <;> rfl

theorem event_timers_nonneg {d : ℕ} {t : EventType} (h : t.early) : 0 ≤ event_timers d t := by
  cases t with
  | cnot5 | cnot6 | cnot7 => cases h
  | h2 =>
    rw [event_timers]
    omega
  | _ => exact Int.one_nonneg

/-- A gate that has started is attended, and neither its ready event nor a next event that counts
down is one after the one that gets stuck. -/
structure Tended (P : Setting) (g : ℕ) (v : Local) : Prop where
  attended : P.typesAt g ≠ [] → v.started →
    v.events.Nonempty ∨ ∃ e rest, v.queue = e :: rest ∧ 0 ≤ e.timer
  early_head : ∀ e rest, v.queue = e :: rest → 0 ≤ e.timer → e.type.early
  early_event : ∀ t ∈ v.events, t.early

theorem LocalStep.tended {v v' : Local} (h : LocalStep P (· ≠ .cnot4) g v v') (hv : Tended P g v) :
    Tended P g v' := by
  cases h with
  | idle => exact hv
  | @queued _ queue types timer =>
    refine ⟨fun htypes _ ↦ .inr ?_, ?_, fun t ht ↦ absurd ht (Set.notMem_empty t)⟩
    · cases queue with
      | nil => exact absurd types.symm htypes
      | cons e rest => exact ⟨e, rest, rfl, (timer e rest rfl).symm ▸ Int.one_nonneg⟩
    · rintro e rest rfl -
      exact EventType.early_head types
  | @counted e rest _ _ pos =>
    refine ⟨fun _ _ ↦ .inr ⟨_, rest, rfl, Int.sub_nonneg_of_le pos⟩, ?_, hv.early_event⟩
    rintro e' rest' heq -
    rw [List.cons.injEq] at heq
    rw [← heq.1]
    exact hv.early_head e rest rfl pos.le
  | @lapsed e rest _ nonneg waiting =>
    refine ⟨fun _ _ ↦ .inl ⟨_, rfl⟩, ?_, ?_⟩
    · rintro e' rest' rfl hnonneg
      rw [waiting e' List.mem_cons_self] at hnonneg
      omega
    · rintro t rfl
      exact hv.early_head e rest rfl nonneg
  | @advanced t next next' rest _ ht types type timer =>
    -- what follows an early type other than `cnot4` is early
    have hearly := EventType.early_of_suffix types (hv.early_event t rfl) ht
    refine ⟨fun _ _ ↦ .inr ⟨next', rest, rfl, timer.symm ▸ event_timers_nonneg hearly⟩, ?_,
      fun t ht ↦ absurd ht (Set.notMem_empty t)⟩
    rintro e rest' heq -
    rw [List.cons.injEq] at heq
    rw [← heq.1, type]
    exact hearly
  | @stayed t queue queue' _ same =>
    refine ⟨fun _ _ ↦ .inl ⟨_, rfl⟩, ?_, hv.early_event⟩
    rintro e rest rfl hnonneg
    cases queue with
    | nil => cases same
    | cons e' rest' =>
      rw [List.map_cons, List.map_cons, List.cons.injEq, Prod.mk.injEq] at same
      rw [same.1.1]
      exact hv.early_head e' rest' rfl (same.1.2 ▸ hnonneg)
  | ended =>
    exact ⟨fun _ hs ↦ hs.elim, fun e rest h ↦ absurd h (List.cons_ne_nil _ _).symm,
      fun t ht ↦ absurd ht (Set.notMem_empty t)⟩

/-! ## Counting down -/

theorem lt_length_of_typesAt (h : P.typesAt g ≠ []) : g < P.gates.length := by
  by_contra hg
  rw [Setting.typesAt, Setting.opAt, List.getElem?_eq_none (not_lt.mp hg)] at h
  exact h rfl

theorem Inv.localAt_foldl_tickQueue {l : List ℕ} (hinv : Inv P s ready s.keys) (hg : g ∉ l) :
    localAt (l.foldl Braid.tickQueue s) (l.foldl Braid.tickQueue s).keys g =
      localAt s s.keys g := by
  induction l generalizing s with
  | nil => rfl
  | cons k l ih =>
    rw [List.mem_cons, not_or] at hg
    exact (ih (hinv.tickQueue k) hg.2).trans (localAt_tickQueue hinv hg.1)

theorem mem_gates_iff :
    g ∈ s.ready_events.map Event.gate ↔ (localAt s s.keys g).events.Nonempty := by
  rw [List.mem_map]
  constructor
  · rintro ⟨e, he, rfl⟩
    exact ⟨e.type, List.mem_map.mpr ⟨e, he, rfl⟩⟩
  · rintro ⟨t, ht⟩
    obtain ⟨e, he, hkey⟩ := List.mem_map.mp ht
    exact ⟨e, he, congrArg Prod.fst hkey⟩

theorem Inv.increment_clock_gate {e : Event} {rest : List Event} (hinv : Inv P s ready s.keys)
    (hg : g < P.gates.length) (hq : s.event_queues g = e :: rest) (hnonneg : 0 ≤ e.timer) :
    g ∈ (Braid.increment_clock P s).ready_events.map Event.gate ∨
      1 < e.timer ∧ (Braid.increment_clock P s).event_queues g =
        {e with timer := e.timer - 1} :: rest := by
  obtain ⟨l₁, l₂, hl⟩ := List.append_of_mem (List.mem_range.mpr hg)
  have hnodup : (l₁ ++ g :: l₂).Nodup := hl ▸ List.nodup_range
  have hg₁ : g ∉ l₁ := fun h ↦
    (List.nodup_append.mp hnodup).2.2 g h g List.mem_cons_self rfl
  have hg₂ : g ∉ l₂ := (List.nodup_cons.mp (List.nodup_append.mp hnodup).2.1).1
  have hinv : Inv P {s with clk := s.clk + 1} ready {s with clk := s.clk + 1}.keys :=
    hinv.congr rfl rfl rfl
  have hbefore := hinv.localAt_foldl_tickQueue hg₁
  have hinv₁ := hinv.foldl_tickQueue l₁
  have hafter := (hinv₁.tickQueue g).localAt_foldl_tickQueue hg₂
  have hq₁ : (l₁.foldl Braid.tickQueue {s with clk := s.clk + 1}).event_queues g = e :: rest :=
    (congrArg Local.queue hbefore).trans hq
  rw [mem_gates_iff, Braid.increment_clock, hl, List.foldl_append, List.foldl_cons, hafter,
    ← mem_gates_iff]
  have hqueue := congrArg Local.queue hafter
  dsimp only [localAt] at hqueue
  rw [hqueue, Braid.tickQueue, hq₁]
  dsimp only
  rw [if_neg (not_lt.mpr hnonneg)]
  have hgate : e.gate = g := hinv₁.queue_gate g e (hq₁ ▸ List.mem_cons_self)
  by_cases hone : 1 < e.timer
  · have hne : e.timer ≠ 0 := by omega
    have hne' : e.timer - 1 ≠ 0 := by omega
    rw [if_pos hne, if_neg hne']
    exact .inr ⟨hone, Function.update_self ..⟩
  · have hzero : (if e.timer ≠ 0 then e.timer - 1 else e.timer) = 0 := by
      split_ifs <;> omega
    rw [if_pos hzero, List.map_append, List.mem_append]
    exact .inl (.inr (List.mem_singleton.mpr hgate.symm))

/-- **An attended gate has a ready event after finitely many increments of the clock.** -/
theorem Inv.exists_ready (hinv : Inv P s ready s.keys) (hg : g < P.gates.length)
    (h : Attended s g) :
    ∃ n, g ∈ ((Braid.increment_clock P)^[n] s).ready_events.map Event.gate := by
  rcases h with h | ⟨e, rest, hq, hnonneg⟩
  · exact ⟨0, h⟩
  -- the induction is on the timer
  induction hn : e.timer.toNat using Nat.strong_induction_on generalizing s e with
  | _ n ih =>
    rcases hinv.increment_clock_gate hg hq hnonneg with hready | ⟨hone, hq'⟩
    · exact ⟨1, hready⟩
    · obtain ⟨m, hm⟩ := ih (n - 1) (by omega) hinv.increment_clock _ hq'
        (Int.sub_nonneg_of_le hone.le) (by dsimp only; omega)
      exact ⟨m + 1, hm⟩

/-! ## Exactly when -/

/-- A gate that has started and will never go on. -/
def Stuck (v : Local) : Prop :=
  v.started ∧ v.events = ∅ ∧ ∃ e rest, v.queue = e :: rest ∧ e.timer < 0

theorem eq_of_cnot4_suffix {l : List EventType} (h : .cnot4 :: l <:+ P.typesAt g) :
    l = [.cnot5, .cnot6, .cnot7] := by
  rw [Setting.typesAt] at h
  cases hop : P.opAt g with
  | none =>
    rw [hop] at h
    cases List.suffix_nil.mp h
  | some op =>
    rw [hop, Option.map_some, Option.getD_some] at h
    cases op with
    | CNOT src dest => simpa [Op.eventTypes, List.suffix_cons_iff] using h
    | _ => exact absurd h (by simp [Op.eventTypes, List.suffix_cons_iff])

/-- **When a `cnot4` succeeds, its gate is stuck.** -/
theorem stuck_tryEvent {t : Trying} {e : Event} {rest : List Event} (hd : P.code_distance = 0)
    (hinv : Inv P t.sim t.sim.ready_gates ((t.sim.ready_events ++ e :: rest).map Event.key))
    (hbegun : Begun (localAt t.sim ((t.sim.ready_events ++ e :: rest).map Event.key) e.gate))
    (htype : e.type = .cnot4) (hsucc : (do_event t.sim.mesh (P.seqAt e.gate) e).isSome) :
    Stuck (localAt (tryEvent P t e).sim
      (((tryEvent P t e).sim.ready_events ++ rest).map Event.key) e.gate) := by
  have hcons : Inv P t.sim t.sim.ready_gates
      (e.key :: (t.sim.ready_events ++ rest).map Event.key) :=
    hinv.perm (List.perm_middle.map Event.key)
  have hmem : (e.gate, e.type) ∈ (t.sim.ready_events ++ e :: rest).map Event.key :=
    List.mem_map.mpr ⟨e, List.mem_append_right _ List.mem_cons_self, rfl⟩
  have hstarted : Started t.sim.log e.gate := hbegun (.inr ⟨e.type, hmem⟩)
  have htypes := hcons.of_cons.2.2.2.2
  rw [htype] at htypes
  have hrest := eq_of_cnot4_suffix htypes
  obtain ⟨mesh, hmesh⟩ := Option.isSome_iff_exists.mp hsucc
  cases hq : t.sim.event_queues e.gate with
  | nil =>
    rw [hq] at hrest
    cases hrest
  | cons next rest' =>
    rw [hq, List.map_cons, List.cons.injEq] at hrest
    rw [tryEvent, hmesh]
    dsimp only
    rw [succeed]
    dsimp only
    rw [hq]
    refine ⟨hstarted, setOf_mem_eq_empty hcons.of_cons.1, _, rest', Function.update_self .., ?_⟩
    dsimp only
    rw [hrest.1, hd]
    decide

theorem stuck_foldl {t : Trying} {l : List Event} (hg : g ∉ l.map Event.gate)
    (h : Stuck (localAt t.sim ((t.sim.ready_events ++ l).map Event.key) g)) :
    Stuck (localAt (l.foldl (tryEvent P) t).sim (l.foldl (tryEvent P) t).sim.keys g) := by
  induction l generalizing t with
  | nil =>
    rw [List.append_nil] at h
    exact h
  | cons e l ih =>
    rw [List.map_cons, List.mem_cons, not_or] at hg
    refine ih hg.2 ?_
    rw [localAt_tryEvent hg.1]
    exact h

theorem exists_stuck_of_not_allowed {t : Trying} {l : List Event} (hd : P.code_distance = 0)
    (hinv : Inv P t.sim t.sim.ready_gates ((t.sim.ready_events ++ l).map Event.key))
    (hbegun : ∀ k, Begun (localAt t.sim ((t.sim.ready_events ++ l).map Event.key) k))
    (h : ¬ Allowed P (· ≠ .cnot4) t l) :
    ∃ g, P.typesAt g ≠ [] ∧
      Stuck (localAt (l.foldl (tryEvent P) t).sim (l.foldl (tryEvent P) t).sim.keys g) := by
  induction l generalizing t with
  | nil => exact absurd trivial h
  | cons e l ih =>
    rw [Allowed, not_and_or] at h
    rw [List.foldl_cons]
    by_cases hnow : (do_event t.sim.mesh (P.seqAt e.gate) e).isSome ∧ e.type = .cnot4
    · have hcons := (hinv.perm (List.perm_middle.map Event.key)).of_cons
      refine ⟨e.gate, fun hnil ↦ ?_, stuck_foldl (fun hmem ↦ hcons.1 ?_)
        (stuck_tryEvent hd hinv (hbegun _) hnow.2 hnow.1)⟩
      · rw [hnil] at hcons
        exact absurd (List.suffix_nil.mp hcons.2.2.2.2) (List.cons_ne_nil _ _)
      · obtain ⟨e', he', hgate⟩ := List.mem_map.mp hmem
        exact List.mem_map.mpr
          ⟨e'.key, List.mem_map.mpr ⟨e', List.mem_append_right _ he', rfl⟩, hgate⟩
    · refine ih hinv.tryEvent ?_
        (h.resolve_left fun hno ↦ hno fun hsucc htype ↦ hnow ⟨hsucc, htype⟩)
      exact LocalStep.forall_localAt (A := fun _ ↦ True) (Q := fun _ v ↦ Begun v)
        (fun _ _ _ hstep ↦ hstep.begun) (fun k hk ↦ localAt_tryEvent hk)
        (hinv.localStep_tryEvent fun _ ↦ trivial) hbegun

theorem set_code_distance_eq {code_distance distance d : ℕ}
    (h : set_code_distance code_distance distance = some d) : d = code_distance := by
  rw [set_code_distance] at h
  split_ifs at h
  exact (Option.some.inj h).symm

theorem allowed_true {t : Trying} : ∀ {l : List Event}, Allowed P (fun _ ↦ True) t l := by
  intro l
  induction l generalizing t with
  | nil => trivial
  | cons e l ih => exact ⟨fun _ ↦ trivial, ih⟩

/-- Every gate with anything queued or ready has started. -/
theorem Reachable.begun (h : Reachable P s) (k : ℕ) : Begun (localAt s s.keys k) := by
  refine Reachable.forall_localAt (A := fun _ ↦ True) (Q := fun _ v ↦ Begun v)
    (fun _ _ _ hstep ↦ hstep.begun) (fun k ↦ ?_) (fun _ _ _ ↦ allowed_true) h k
  rintro (hne | hne)
  · exact hne rfl
  · exact Set.not_nonempty_empty hne

/-- **With the distance that is returned, no gate is orphaned in any state reached exactly when no
`cnot4` succeeds in any round.** -/
theorem noOrphan_iff {distance : ℕ} (hd : set_code_distance 0 distance = some P.code_distance) :
    (∀ s, Reachable P s → NoOrphan P s) ↔
      ∀ s, Reachable P s → Running s → AllowedRound P (· ≠ .cnot4) s := by
  constructor
  · intro h s hs hrun
    by_contra hno
    have hqueue := Inv.forall_localAt_queueGates (A := fun _ ↦ True) (Q := fun _ v ↦ Begun v)
      (fun _ _ _ hstep ↦ hstep.begun) hs.inv hs.begun
    have htick := Inv.forall_localAt_increment_clock (A := fun _ ↦ True)
      (Q := fun _ v ↦ Begun v) (fun _ _ _ hstep ↦ hstep.begun) hs.inv.queueGates hqueue
    obtain ⟨g, htypes, hstarted, hempty, e, rest, hq, hneg⟩ :=
      exists_stuck_of_not_allowed (set_code_distance_eq hd) hs.inv.ticked.pending
        (fun k ↦ localAt_pending ▸ htick k) hno
    -- it is stuck in the state that the round ends in
    rcases (h _ (.round hs hrun) g htypes hstarted).1 with hev | ⟨e', rest', hq', hnonneg⟩
    · exact (mem_gates_iff.mp hev).ne_empty hempty
    · obtain ⟨rfl, -⟩ := List.cons.inj (hq'.symm.trans hq)
      omega
  · intro h s hs g htypes hstarted
    have htended := Reachable.forall_localAt (A := (· ≠ .cnot4)) (Q := Tended P)
      (fun _ _ _ hstep ↦ hstep.tended) (fun k ↦ ?_) h hs g
    · have hattended : Attended s g := by
        rcases htended.attended htypes hstarted with hev | hhead
        · exact .inl (mem_gates_iff.mpr hev)
        · exact .inr hhead
      exact ⟨hattended, hs.inv.exists_ready (lt_length_of_typesAt htypes) hattended⟩
    · exact ⟨fun _ hs ↦ hs.elim, fun e rest h ↦ absurd h (List.cons_ne_nil _ _).symm,
        fun t ht ↦ absurd ht (Set.notMem_empty t)⟩

/-- One `CNOT` of two qubits, one above the other. -/
def oneCNOT : Setting where
  gates := [⟨1, .CNOT 0 1⟩]
  routing := meshRouting 1
  code_distance := 0
  attempt_th_yx := 8
  attempt_th_drop := 20
  priority_policy := 0
  order := ⟨fun _ l ↦ l, fun _ _ ↦ .refl _⟩

theorem noOrphan_iff_oneCNOT :
    (∀ s, Reachable oneCNOT s → NoOrphan oneCNOT s) ↔
      ∀ s, Reachable oneCNOT s → Running s → AllowedRound oneCNOT (· ≠ .cnot4) s :=
  noOrphan_iff (show set_code_distance 0 3 = some oneCNOT.code_distance from rfl)

/-- After four rounds the gate waits for ever. -/
theorem not_noOrphan_oneCNOT : ¬ ∀ s, Reachable oneCNOT s → NoOrphan oneCNOT s := by
  intro h
  have hqueue : ∀ n < 4, n = 0 ∨ (run oneCNOT n).event_queues 0 ≠ [] := by decide +kernel
  have hready : (run oneCNOT 0).ready_gates ≠ [] := by decide +kernel
  have hreach : Reachable oneCNOT (run oneCNOT 4) := by
    refine reachable_run oneCNOT fun n hn ↦ ?_
    rcases hqueue n hn with rfl | hne
    · exact .inr (.inr (.inr hready))
    · exact .inl ⟨0, hne⟩
  have hstarted : Started (run oneCNOT 4).log 0 := by
    have hlog : (run oneCNOT 4).log = [.tried 0 .cnot4 true, .tried 0 .cnot3 true,
        .tried 0 .cnot2 true, .tried 0 .cnot1 true, .queued 0] := by decide +kernel
    rw [hlog]
    exact .inl rfl
  have hstuck : (run oneCNOT 4).ready_events = [] ∧
      ((run oneCNOT 4).event_queues 0).map Event.timer = [-1, -1, -1] := by decide +kernel
  rcases (h _ hreach 0 (by decide) hstarted).1 with hev | ⟨e, rest, hq, hnonneg⟩
  · rw [hstuck.1] at hev
    cases hev
  · rw [hq, List.map_cons, List.cons.injEq] at hstuck
    omega

end ScaffCC.Braid
