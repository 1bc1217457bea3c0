import Mathlib.Data.List.Nodup
import ScaffCC.Braid.Loop

/-!
# The order of events

A gate that is waiting has an edge from a gate that is not completed. Every other gate is ready, or
has its next event either among the ready ones or at the head of its queue, or is completed, and
then all gates it depends on are completed. This is kept by every part of a round: a dropped gate
only goes back to the ready ones, and another route changes no queue. So whenever something happens
to a gate, the gates before it that it shares a qubit with are completed.
-/

namespace ScaffCC.Braid

variable {P : Setting} {s : Sim} {ready : List ℕ} {evs : List (ℕ × EventType)} {g i j : ℕ}

/-- The types of the events of the gate at a position. -/
def Setting.typesAt (P : Setting) (g : ℕ) : List EventType :=
  ((P.opAt g).map Op.eventTypes).getD []

/-- The gate and the type of an event. -/
def Event.key (e : Event) : ℕ × EventType := (e.gate, e.type)

/-- When something happens to a gate, the gates before it that it shares a qubit with are
completed. -/
def Ordered (gates : List Gate) : List Entry → Prop
  | [] => True
  | entry :: older =>
    (∀ i, SharesBefore gates i entry.gate → .completed i ∈ older) ∧ Ordered gates older

/-- A gate that waits for no other one. -/
def Released (s : Sim) (ready : List ℕ) (evs : List (ℕ × EventType)) (g : ℕ) : Prop :=
  g ∈ ready ∨ s.event_queues g ≠ [] ∨ g ∈ evs.map Prod.fst ∨ .completed g ∈ s.log

/-- What holds during the simulation, with the gates that are ready and the events that are. -/
structure Inv (P : Setting) (s : Sim) (ready : List ℕ) (evs : List (ℕ × EventType)) : Prop where
  ready_nodup : ready.Nodup
  evs_nodup : (evs.map Prod.fst).Nodup
  edge : ∀ i j, s.edge i j ↔ dagEdge P.gates i j ∧ .completed i ∉ s.log
  released : ∀ g i, Released s ready evs g → dagEdge P.gates i g → .completed i ∈ s.log
  idle : ∀ g, g ∈ ready ∨ .completed g ∈ s.log → s.event_queues g = [] ∧ g ∉ evs.map Prod.fst
  ready_new : ∀ g ∈ ready, .completed g ∉ s.log
  queue_gate : ∀ g, ∀ e ∈ s.event_queues g, e.gate = g
  queue_types : ∀ g, (s.event_queues g).map Event.type <:+ P.typesAt g
  ev_types : ∀ x ∈ evs, x.2 :: (s.event_queues x.1).map Event.type <:+ P.typesAt x.1
  waiting : ∀ g ∈ evs.map Prod.fst, ∀ e ∈ s.event_queues g, e.timer = -1
  tail : ∀ g e rest, s.event_queues g = e :: rest → ∀ e' ∈ rest, e'.timer = -1
  ordered : Ordered P.gates s.log
  counts : ∀ g last, (P.typesAt g).getLast? = some last →
    s.log.count (.completed g) = s.log.count (.tried g last true)
  once : ∀ g, s.log.count (.completed g) ≤ 1

/-! ## What the invariant says -/

/-- The gates that a released gate shares a qubit with, and that are before it, are completed. -/
theorem Inv.completed (h : Inv P s ready evs) (hg : Released s ready evs g)
    (hi : SharesBefore P.gates i g) : .completed i ∈ s.log := by
  have hchain : ∀ g, Relation.TransGen (fun i j ↦ dagEdge P.gates i j) i g →
      Released s ready evs g → .completed i ∈ s.log := by
    intro g hig
    induction hig with
    | single hedge => exact fun hg ↦ h.released _ _ hg hedge
    | tail _ hedge ih => exact fun hg ↦ ih (.inr (.inr (.inr (h.released _ _ hg hedge))))
  exact hchain g (transGen_of_sharesBefore hi) hg

theorem nodup_typesAt : (P.typesAt g).Nodup := by
  rw [Setting.typesAt]
  cases P.opAt g with
  | none => exact List.nodup_nil
  | some op => exact nodup_eventTypes

theorem Inv.eq_getLast_iff (h : Inv P s ready evs) {t last : EventType} (ht : (g, t) ∈ evs)
    (hlast : (P.typesAt g).getLast? = some last) : t = last ↔ s.event_queues g = [] := by
  obtain ⟨pre, hpre⟩ := h.ev_types _ ht
  dsimp only at hpre
  rw [← hpre] at hlast
  have hnodup : (pre ++ t :: (s.event_queues g).map Event.type).Nodup := hpre ▸ nodup_typesAt
  cases hq : s.event_queues g with
  | nil =>
    rw [hq, List.map_nil, List.getLast?_concat, Option.some.injEq] at hlast
    exact iff_of_true hlast rfl
  | cons e rest =>
    rw [hq] at hlast hnodup
    refine iff_of_false ?_ (List.cons_ne_nil _ _)
    rintro rfl
    rw [List.map_cons, List.getLast?_append_cons, List.getLast?_cons_cons] at hlast
    have hmem := List.mem_of_getLast? hlast
    rw [List.map_cons] at hnodup
    exact (List.nodup_cons.mp (List.nodup_append.mp hnodup).2.1).1 hmem

/-! ## Steps of one gate -/

theorem released_of_ne {s' : Sim} {ready' : List ℕ} {evs' : List (ℕ × EventType)} {k : ℕ}
    (hready : k ∈ ready' ↔ k ∈ ready) (hevs : k ∈ evs'.map Prod.fst ↔ k ∈ evs.map Prod.fst)
    (hqueue : s'.event_queues k = s.event_queues k)
    (hlog : .completed k ∈ s'.log ↔ .completed k ∈ s.log) :
    Released s' ready' evs' k ↔ Released s ready evs k := by
  rw [Released, Released, hready, hevs, hqueue, hlog]

/-- What has to be checked for a step that completes no gate and changes one only: its queue, its
places among the ready gates and the ready events, and what is logged. -/
structure Touches (P : Setting) (s : Sim) (ready : List ℕ) (evs : List (ℕ × EventType)) (g : ℕ)
    (s' : Sim) (ready' : List ℕ) (evs' : List (ℕ × EventType)) : Prop where
  edge : s'.edge = s.edge
  queues : ∀ k, k ≠ g → s'.event_queues k = s.event_queues k
  log : ∃ pre, s'.log = pre ++ s.log ∧ ∀ entry ∈ pre, entry.gate = g ∧ entry ≠ .completed g ∧
    ∀ last, (P.typesAt g).getLast? = some last → entry ≠ .tried g last true
  ready_nodup : ready'.Nodup
  evs_nodup : (evs'.map Prod.fst).Nodup
  ready_iff : ∀ k, k ≠ g → (k ∈ ready' ↔ k ∈ ready)
  evs_iff : ∀ x : ℕ × EventType, x.1 ≠ g → (x ∈ evs' ↔ x ∈ evs)
  idle : g ∈ ready' → s'.event_queues g = [] ∧ g ∉ evs'.map Prod.fst
  queue_gate : ∀ e ∈ s'.event_queues g, e.gate = g
  queue_types : (s'.event_queues g).map Event.type <:+ P.typesAt g
  ev_types : ∀ t, (g, t) ∈ evs' → t :: (s'.event_queues g).map Event.type <:+ P.typesAt g
  waiting : g ∈ evs'.map Prod.fst → ∀ e ∈ s'.event_queues g, e.timer = -1
  tail : ∀ e rest, s'.event_queues g = e :: rest → ∀ e' ∈ rest, e'.timer = -1

/-- **A step that completes no gate keeps the invariant.** -/
theorem Inv.touch {s' : Sim} {ready' : List ℕ} {evs' : List (ℕ × EventType)}
    (h : Inv P s ready evs) (ht : Touches P s ready evs g s' ready' evs')
    (hg : Released s ready evs g) (hnew : .completed g ∉ s.log) : Inv P s' ready' evs' := by
  obtain ⟨pre, hlog, hpre⟩ := ht.log
  -- what is logged is no completion, so the same gates are complete
  have hcompleted : ∀ k, .completed k ∈ s'.log ↔ .completed k ∈ s.log := by
    intro k
    rw [hlog, List.mem_append, or_iff_right]
    intro hk
    obtain ⟨rfl, hne, -⟩ := hpre _ hk
    exact hne rfl
  have hfst : ∀ k, k ≠ g → (k ∈ evs'.map Prod.fst ↔ k ∈ evs.map Prod.fst) := by
    intro k hk
    simp only [List.mem_map]
    exact ⟨fun ⟨x, hx, hxk⟩ ↦ ⟨x, (ht.evs_iff x (hxk ▸ hk)).mp hx, hxk⟩,
      fun ⟨x, hx, hxk⟩ ↦ ⟨x, (ht.evs_iff x (hxk ▸ hk)).mpr hx, hxk⟩⟩
  -- only the gate itself can come to be released, and it was released before
  have hrel : ∀ k, Released s' ready' evs' k → Released s ready evs k := by
    intro k hk
    by_cases hkg : k = g
    · exact hkg ▸ hg
    · exact (released_of_ne (ht.ready_iff k hkg) (hfst k hkg) (ht.queues k hkg)
        (hcompleted k)).mp hk
  refine ⟨ht.ready_nodup, ht.evs_nodup, fun i j ↦ ?_, fun k i hk hik ↦ ?_, fun k hk ↦ ?_,
    fun k hk ↦ ?_, fun k e he ↦ ?_, fun k ↦ ?_, fun x hx ↦ ?_, fun k hk e he ↦ ?_,
    fun k e rest hk ↦ ?_, ?_, fun k last hlast ↦ ?_, fun k ↦ ?_⟩
  · rw [ht.edge, hcompleted]
    exact h.edge i j
  · rw [hcompleted]
    exact h.released k i (hrel k hk) hik
  · by_cases hkg : k = g
    · subst hkg
      refine ht.idle (hk.resolve_right fun hc ↦ hnew ((hcompleted k).mp hc))
    · rw [ht.queues k hkg, hfst k hkg]
      rw [ht.ready_iff k hkg, hcompleted] at hk
      exact h.idle k hk
  · rw [hcompleted]
    by_cases hkg : k = g
    · exact hkg ▸ hnew
    · exact h.ready_new k ((ht.ready_iff k hkg).mp hk)
  · by_cases hkg : k = g
    · subst hkg
      exact ht.queue_gate e he
    · rw [ht.queues k hkg] at he
      exact h.queue_gate k e he
  · by_cases hkg : k = g
    · subst hkg
      exact ht.queue_types
    · rw [ht.queues k hkg]
      exact h.queue_types k
  · by_cases hxg : x.1 = g
    · subst hxg
      exact ht.ev_types x.2 hx
    · rw [ht.queues _ hxg]
      exact h.ev_types x ((ht.evs_iff x hxg).mp hx)
  · by_cases hkg : k = g
    · subst hkg
      exact ht.waiting hk e he
    · rw [ht.queues k hkg] at he
      exact h.waiting k ((hfst k hkg).mp hk) e he
  · by_cases hkg : k = g
    · subst hkg
      exact ht.tail e rest hk
    · rw [ht.queues k hkg] at hk
      exact h.tail k e rest hk
  · rw [hlog]
    -- nothing new is logged but for a gate that is released
    have hall : ∀ pre : List Entry, (∀ entry ∈ pre, entry.gate = g) →
        Ordered P.gates (pre ++ s.log) := by
      intro pre
      induction pre with
      | nil => exact fun _ ↦ h.ordered
      | cons entry pre ih =>
        intro hpre
        obtain ⟨hentry, hpre⟩ := List.forall_mem_cons.mp hpre
        refine ⟨fun i hi ↦ List.mem_append_right _ ?_, ih hpre⟩
        exact h.completed (hentry ▸ hg) hi
    exact hall pre fun entry hentry ↦ (hpre entry hentry).1
  · -- none of the new entries is counted
    have hno : ∀ entry, (entry = .completed k ∨ entry = .tried k last true) →
        pre.count entry = 0 := by
      rintro entry hentry
      refine List.count_eq_zero.mpr fun hmem ↦ ?_
      obtain ⟨hkg, hne, htried⟩ := hpre entry hmem
      rcases hentry with rfl | rfl
      · exact hne (congrArg Entry.completed hkg)
      · obtain rfl : k = g := hkg
        exact htried last hlast rfl
    rw [hlog, List.count_append, List.count_append, hno _ (.inl rfl), hno _ (.inr rfl)]
    simpa only [Nat.zero_add] using h.counts k last hlast
  · have hno : pre.count (.completed k) = 0 := by
      refine List.count_eq_zero.mpr fun hmem ↦ ?_
      obtain ⟨hkg, hne, -⟩ := hpre _ hmem
      exact hne (congrArg Entry.completed hkg)
    rw [hlog, List.count_append, hno, Nat.zero_add]
    exact h.once k

/-! ## Queueing and the clock -/

theorem Inv.queueGate (h : Inv P s (g :: ready) evs) : Inv P (queueGate P s g) ready evs := by
  obtain ⟨-, hev⟩ := h.idle g (.inl List.mem_cons_self)
  have hqueue : (Braid.queueGate P s g).event_queues g =
      ((P.opAt g).map fun op ↦ events P.routing op g).getD [] :=
    Function.update_self ..
  have hready := List.nodup_cons.mp h.ready_nodup
  refine h.touch (g := g) ⟨rfl, fun k hk ↦ Function.update_of_ne hk .., ?_, hready.2, h.evs_nodup,
    fun k hk ↦ ?_, fun _ _ ↦ Iff.rfl, fun hg ↦ absurd hg hready.1, ?_, ?_, fun t ht ↦ ?_,
    fun hg ↦ absurd hg hev, ?_⟩ (.inl List.mem_cons_self) (h.ready_new g List.mem_cons_self)
  · refine ⟨[.queued g], rfl, fun entry hentry ↦ ?_⟩
    rw [List.mem_singleton.mp hentry]
    exact ⟨rfl, by simp, by simp⟩
  · rw [List.mem_cons, or_iff_right hk]
  · rw [hqueue]
    cases P.opAt g with
    | none => exact fun e he ↦ absurd he List.not_mem_nil
    | some op => exact fun e he ↦ gate_of_mem_events he
  · rw [hqueue, Setting.typesAt]
    cases P.opAt g with
    | none => exact List.suffix_refl _
    | some op => exact map_type_events ▸ List.suffix_refl _
  · exact absurd (List.mem_map_of_mem (f := Prod.fst) ht) hev
  · rw [hqueue]
    cases P.opAt g with
    | none => exact fun e rest hnil ↦ absurd hnil (List.cons_ne_nil _ _).symm
    | some op => exact fun e rest hcons ↦ (timer_events hcons).2

theorem Inv.not_completed (h : Inv P s ready evs) (hq : s.event_queues g ≠ []) :
    .completed g ∉ s.log :=
  fun hmem ↦ hq (h.idle g (.inr hmem)).1

theorem Inv.not_ready (h : Inv P s ready evs) (hq : s.event_queues g ≠ []) : g ∉ ready :=
  fun hmem ↦ hq (h.idle g (.inl hmem)).1

theorem Inv.popHead (h : Inv P s ready evs) {s' : Sim} {e : Event} {rest : List Event}
    (hq : s.event_queues g = e :: rest) (hneg : ¬ e.timer < 0) (hedge : s'.edge = s.edge)
    (hqueue : s'.event_queues = Function.update s.event_queues g rest) (hlog : s'.log = s.log) :
    Inv P s' ready (evs ++ [(g, e.type)]) := by
  have hne : s.event_queues g ≠ [] := hq ▸ List.cons_ne_nil _ _
  -- a gate with a ready event waits for it
  have hev : g ∉ evs.map Prod.fst := by
    intro hmem
    have htimer := h.waiting g hmem e (hq ▸ List.mem_cons_self)
    omega
  have hself : s'.event_queues g = rest := by rw [hqueue, Function.update_self]
  have htypes := h.queue_types g
  have hgates := h.queue_gate g
  have htail := h.tail g e rest hq
  rw [hq] at htypes hgates
  refine h.touch (g := g) ⟨hedge, fun k hk ↦ by rw [hqueue, Function.update_of_ne hk],
    ⟨[], hlog, fun _ hmem ↦ absurd hmem List.not_mem_nil⟩, h.ready_nodup, ?_, fun _ _ ↦ Iff.rfl,
    fun x hx ↦ ?_, fun hg ↦ absurd hg (h.not_ready hne), ?_, ?_, fun t ht ↦ ?_, fun _ ↦ ?_,
    fun e' rest' hcons ↦ ?_⟩ (.inr (.inl hne)) (h.not_completed hne)
  · rw [List.map_append, List.map_singleton]
    refine h.evs_nodup.append (List.nodup_singleton _) fun k hk hkg ↦ ?_
    rw [List.mem_singleton] at hkg
    rw [hkg] at hk
    exact hev hk
  · rw [List.mem_append, List.mem_singleton, or_iff_left]
    rintro rfl
    exact hx rfl
  · rw [hself]
    exact (List.forall_mem_cons.mp hgates).2
  · rw [hself]
    exact (List.suffix_cons _ _).trans htypes
  · rw [hself]
    rw [List.mem_append, List.mem_singleton, Prod.mk.injEq] at ht
    rcases ht with ht | ⟨-, rfl⟩
    · exact absurd (List.mem_map_of_mem (f := Prod.fst) ht) hev
    · exact htypes
  · rw [hself]
    exact htail
  · rw [hself] at hcons
    exact fun e'' he'' ↦ htail e'' (hcons ▸ List.mem_cons_of_mem _ he'')

theorem Inv.setHead (h : Inv P s ready evs) {s' : Sim} {e e' : Event} {rest : List Event}
    (hq : s.event_queues g = e :: rest) (htype : e'.type = e.type) (hgate : e'.gate = e.gate)
    (htimer : g ∈ evs.map Prod.fst → e'.timer = -1) (hedge : s'.edge = s.edge)
    (hqueue : s'.event_queues = Function.update s.event_queues g (e' :: rest))
    (hlog : s'.log = s.log) : Inv P s' ready evs := by
  have hne : s.event_queues g ≠ [] := hq ▸ List.cons_ne_nil _ _
  have hself : s'.event_queues g = e' :: rest := by rw [hqueue, Function.update_self]
  have htypes := h.queue_types g
  have hgates := h.queue_gate g
  rw [hq] at htypes hgates
  obtain ⟨hgate', hgates⟩ := List.forall_mem_cons.mp hgates
  have hmap : (e' :: rest).map Event.type = (e :: rest).map Event.type := by
    rw [List.map_cons, List.map_cons, htype]
  refine h.touch (g := g) ⟨hedge, fun k hk ↦ by rw [hqueue, Function.update_of_ne hk],
    ⟨[], hlog, fun _ hmem ↦ absurd hmem List.not_mem_nil⟩, h.ready_nodup, h.evs_nodup,
    fun _ _ ↦ Iff.rfl, fun _ _ ↦ Iff.rfl, fun hg ↦ absurd hg (h.not_ready hne), ?_, ?_,
    fun t ht ↦ ?_, fun hmem ↦ ?_, fun e'' rest' hcons ↦ ?_⟩ (.inr (.inl hne)) (h.not_completed hne)
  · rw [hself]
    exact List.forall_mem_cons.mpr ⟨hgate.trans hgate', hgates⟩
  · rw [hself, hmap]
    exact htypes
  · rw [hself, hmap, ← hq]
    exact h.ev_types _ ht
  · rw [hself]
    refine List.forall_mem_cons.mpr ⟨htimer hmem, fun e'' he'' ↦ ?_⟩
    exact h.waiting g hmem e'' (hq ▸ List.mem_cons_of_mem _ he'')
  · rw [hself, List.cons.injEq] at hcons
    rw [← hcons.2]
    exact h.tail g e rest hq

theorem Inv.tickQueue (h : Inv P s ready (s.ready_events.map Event.key)) (g : ℕ) :
    Inv P (tickQueue s g) ready ((tickQueue s g).ready_events.map Event.key) := by
  rw [Braid.tickQueue]
  split
  · exact h
  · next e rest hq =>
    by_cases hneg : e.timer < 0
    · rw [if_pos hneg]
      exact h
    · rw [if_neg hneg]
      have hgate : e.gate = g := h.queue_gate g e (hq ▸ List.mem_cons_self)
      have hev : g ∉ (s.ready_events.map Event.key).map Prod.fst := by
        intro hmem
        have htimer := h.waiting g hmem e (hq ▸ List.mem_cons_self)
        omega
      dsimp only
      by_cases hzero : (if e.timer ≠ 0 then e.timer - 1 else e.timer) = 0
      · rw [if_pos hzero, List.map_append, List.map_singleton, Event.key, hgate]
        have hpop : ∀ s' : Sim, s'.edge = s.edge →
            s'.event_queues = Function.update s.event_queues g rest → s'.log = s.log →
            Inv P s' ready (s.ready_events.map Event.key ++ [(g, e.type)]) :=
          fun _ ↦ h.popHead hq hneg
        exact hpop _ rfl rfl rfl
      · rw [if_neg hzero]
        refine h.setHead hq ?_ ?_ (fun hmem ↦ absurd hmem hev) rfl rfl rfl <;> rfl

theorem ready_gates_tickQueue : (tickQueue s g).ready_gates = s.ready_gates := by
  simp only [tickQueue]
  split
  · rfl
  · split_ifs <;> rfl

theorem ready_gates_increment_clock : (increment_clock P s).ready_gates = s.ready_gates := by
  have hfold : ∀ (l : List ℕ) (s : Sim), (l.foldl tickQueue s).ready_gates = s.ready_gates := by
    intro l
    induction l with
    | nil => exact fun s ↦ rfl
    | cons g l ih =>
      intro s
      rw [List.foldl_cons, ih]
      exact ready_gates_tickQueue
  exact hfold _ _

theorem Inv.foldl_tickQueue (l : List ℕ) (h : Inv P s ready (s.ready_events.map Event.key)) :
    Inv P (l.foldl Braid.tickQueue s) ready
      ((l.foldl Braid.tickQueue s).ready_events.map Event.key) := by
  induction l generalizing s with
  | nil => exact h
  | cons g l ih => exact ih (h.tickQueue g)

theorem Inv.increment_clock (h : Inv P s ready (s.ready_events.map Event.key)) :
    Inv P (increment_clock P s) ready ((increment_clock P s).ready_events.map Event.key) := by
  refine Inv.foldl_tickQueue _ ?_
  exact ⟨h.ready_nodup, h.evs_nodup, h.edge, h.released, h.idle, h.ready_new, h.queue_gate,
    h.queue_types, h.ev_types, h.waiting, h.tail, h.ordered, h.counts, h.once⟩

/-! ## Trying an event -/

variable {t : EventType}

theorem Inv.perm {evs' : List (ℕ × EventType)} (h : Inv P s ready evs) (hp : evs.Perm evs') :
    Inv P s ready evs' := by
  have hfst : ∀ k, k ∈ evs'.map Prod.fst ↔ k ∈ evs.map Prod.fst :=
    fun k ↦ (hp.map Prod.fst).mem_iff.symm
  refine ⟨h.ready_nodup, (hp.map Prod.fst).nodup_iff.mp h.evs_nodup, h.edge, fun k i hk ↦ ?_,
    fun k hk ↦ ?_, h.ready_new, h.queue_gate, h.queue_types,
    fun x hx ↦ h.ev_types x (hp.mem_iff.mpr hx), fun k hk ↦ h.waiting k ((hfst k).mp hk), h.tail,
    h.ordered, h.counts, h.once⟩
  · rw [Released, hfst] at hk
    exact h.released k i hk
  · rw [hfst]
    exact h.idle k hk

theorem Inv.congr {s' : Sim} (h : Inv P s ready evs) (hedge : s'.edge = s.edge)
    (hqueue : s'.event_queues = s.event_queues) (hlog : s'.log = s.log) : Inv P s' ready evs := by
  refine ⟨h.ready_nodup, h.evs_nodup, ?_, ?_, ?_, ?_, ?_, ?_, ?_, ?_, ?_, ?_, ?_, ?_⟩
  all_goals try unfold Released
  all_goals simp only [hedge, hqueue, hlog]
  · exact h.edge
  · exact h.released
  · exact h.idle
  · exact h.ready_new
  · exact h.queue_gate
  · exact h.queue_types
  · exact h.ev_types
  · exact h.waiting
  · exact h.tail
  · exact h.ordered
  · exact h.counts
  · exact h.once

/-- What is known of the gate whose event is tried. -/
theorem Inv.of_cons (h : Inv P s ready ((g, t) :: evs)) :
    g ∉ evs.map Prod.fst ∧ Released s ready ((g, t) :: evs) g ∧ .completed g ∉ s.log ∧
      g ∉ ready ∧ t :: (s.event_queues g).map Event.type <:+ P.typesAt g := by
  have hmem : g ∈ ((g, t) :: evs).map Prod.fst := List.mem_cons_self
  exact ⟨(List.nodup_cons.mp h.evs_nodup).1, .inr (.inr (.inl hmem)),
    fun hc ↦ (h.idle g (.inr hc)).2 hmem, fun hr ↦ (h.idle g (.inl hr)).2 hmem,
    h.ev_types _ List.mem_cons_self⟩

theorem Inv.tried (h : Inv P s ready ((g, t) :: evs)) {s' : Sim} (hedge : s'.edge = s.edge)
    (hqueue : s'.event_queues = s.event_queues) (hlog : s'.log = .tried g t false :: s.log) :
    Inv P s' ready ((g, t) :: evs) := by
  obtain ⟨-, hrel, hnew, hready, -⟩ := h.of_cons
  refine h.touch (g := g) ⟨hedge, fun k _ ↦ by rw [hqueue], ⟨[.tried g t false], hlog, ?_⟩,
    h.ready_nodup, h.evs_nodup, fun _ _ ↦ Iff.rfl, fun _ _ ↦ Iff.rfl,
    fun hg ↦ absurd hg hready, ?_, ?_, fun t' ht' ↦ ?_, ?_, ?_⟩ hrel hnew
  · rintro entry hentry
    rw [List.mem_singleton.mp hentry]
    exact ⟨rfl, by simp, by simp⟩
  all_goals rw [hqueue]
  · exact h.queue_gate g
  · exact h.queue_types g
  · exact h.ev_types _ ht'
  · exact h.waiting g
  · exact h.tail g

theorem Inv.drop (h : Inv P s ready ((g, t) :: evs)) {s' : Sim} (hedge : s'.edge = s.edge)
    (hqueue : s'.event_queues = Function.update s.event_queues g [])
    (hlog : s'.log = .dropped g :: s.log) : Inv P s' (ready ++ [g]) evs := by
  obtain ⟨hev, hrel, hnew, hready, -⟩ := h.of_cons
  have hself : s'.event_queues g = [] := by rw [hqueue, Function.update_self]
  refine h.touch (g := g) ⟨hedge, fun k hk ↦ by rw [hqueue, Function.update_of_ne hk],
    ⟨[.dropped g], hlog, ?_⟩, ?_, (List.nodup_cons.mp h.evs_nodup).2, fun k hk ↦ ?_,
    fun x hx ↦ ?_, fun _ ↦ ⟨hself, hev⟩, ?_, ?_, fun t' ht' ↦ ?_, fun hmem ↦ absurd hmem hev,
    ?_⟩ hrel hnew
  · rintro entry hentry
    rw [List.mem_singleton.mp hentry]
    exact ⟨rfl, by simp, by simp⟩
  · refine h.ready_nodup.append (List.nodup_singleton _) fun k hk hkg ↦ ?_
    rw [List.mem_singleton] at hkg
    rw [hkg] at hk
    exact hready hk
  · rw [List.mem_append, List.mem_singleton, or_iff_left hk]
  · rw [List.mem_cons, or_iff_right]
    rintro rfl
    exact hx rfl
  · rw [hself]
    exact fun e he ↦ absurd he List.not_mem_nil
  · rw [hself]
    exact List.nil_suffix
  · exact absurd (List.mem_map_of_mem (f := Prod.fst) ht') hev
  · rw [hself]
    exact fun e rest hnil ↦ absurd hnil (List.cons_ne_nil _ _).symm

theorem Inv.advance (h : Inv P s ready ((g, t) :: evs)) {s' : Sim} {next next' : Event}
    {rest : List Event} (hq : s.event_queues g = next :: rest) (htype : next'.type = next.type)
    (hgate : next'.gate = next.gate) (hedge : s'.edge = s.edge)
    (hqueue : s'.event_queues = Function.update s.event_queues g (next' :: rest))
    (hlog : s'.log = .tried g t true :: s.log) : Inv P s' ready evs := by
  obtain ⟨hev, hrel, hnew, hready, -⟩ := h.of_cons
  have hself : s'.event_queues g = next' :: rest := by rw [hqueue, Function.update_self]
  have htypes := h.queue_types g
  have hgates := h.queue_gate g
  rw [hq] at htypes hgates
  obtain ⟨hgate', hgates⟩ := List.forall_mem_cons.mp hgates
  have hmap : (next' :: rest).map Event.type = (next :: rest).map Event.type := by
    rw [List.map_cons, List.map_cons, htype]
  refine h.touch (g := g) ⟨hedge, fun k hk ↦ by rw [hqueue, Function.update_of_ne hk],
    ⟨[.tried g t true], hlog, ?_⟩, h.ready_nodup, (List.nodup_cons.mp h.evs_nodup).2,
    fun _ _ ↦ Iff.rfl, fun x hx ↦ ?_, fun hg ↦ absurd hg hready, ?_, ?_, fun t' ht' ↦ ?_,
    fun hmem ↦ absurd hmem hev, fun e rest' hcons ↦ ?_⟩ hrel hnew
  · rintro entry hentry
    rw [List.mem_singleton.mp hentry]
    refine ⟨rfl, by simp, fun last hlast heq ↦ ?_⟩
    -- it is not the last one, as the queue is not empty
    have ht : t = last := (Entry.tried.inj heq).2.1
    rw [h.eq_getLast_iff List.mem_cons_self hlast, hq] at ht
    exact List.cons_ne_nil _ _ ht
  · rw [List.mem_cons, or_iff_right]
    rintro rfl
    exact hx rfl
  · rw [hself]
    exact List.forall_mem_cons.mpr ⟨hgate.trans hgate', hgates⟩
  · rw [hself, hmap]
    exact htypes
  · exact absurd (List.mem_map_of_mem (f := Prod.fst) ht') hev
  · rw [hself, List.cons.injEq] at hcons
    rw [← hcons.2]
    exact h.tail g next rest hq

/-- The gates that become ready when a gate is completed: it is the only one they wait for. -/
def newlyReady (P : Setting) (edge : ℕ → ℕ → Bool) (g : ℕ) : List ℕ :=
  (adjacent_vertices P edge g).filter fun g_out ↦ in_degree P edge g_out = 1

theorem eq_of_mem_newlyReady {edge : ℕ → ℕ → Bool} {k : ℕ} (hg : g < P.gates.length)
    (hk : k ∈ newlyReady P edge g) :
    edge g k ∧ ∀ i, i < P.gates.length → edge i k → i = g := by
  obtain ⟨hadj, hone⟩ := List.mem_filter.mp hk
  have hedge := (List.mem_filter.mp hadj).2
  refine ⟨hedge, fun i hi hik ↦ ?_⟩
  rw [decide_eq_true_eq, in_degree, List.countP_eq_length_filter, List.length_eq_one_iff] at hone
  obtain ⟨a, ha⟩ := hone
  have hmem : ∀ i, i < P.gates.length → edge i k → i = a := by
    intro i hi hik
    have him : i ∈ (List.range P.gates.length).filter fun i ↦ edge i k :=
      List.mem_filter.mpr ⟨List.mem_range.mpr hi, hik⟩
    rw [ha] at him
    exact List.mem_singleton.mp him
  rw [hmem i hi hik, hmem g hg hedge]

theorem lt_length_of_dagEdge (h : dagEdge P.gates i j) : i < P.gates.length := by
  obtain ⟨q, hq, -⟩ := List.any_eq_true.mp h
  exact lt_length_of_mem_qidAt hq

/-- **The last event of a gate succeeds.** -/
theorem Inv.complete (h : Inv P s ready ((g, t) :: evs)) (hq : s.event_queues g = []) {s' : Sim}
    (hedge : s'.edge = clear_out_edges s.edge g) (hqueue : s'.event_queues = s.event_queues)
    (hlog : s'.log = .completed g :: .tried g t true :: s.log) :
    Inv P s' (ready ++ newlyReady P s.edge g) evs := by
  obtain ⟨hev, hrel, hnew, hready, htypes⟩ := h.of_cons
  -- the gate is complete now, the others as before
  have hcompleted : ∀ k, .completed k ∈ s'.log ↔ k = g ∨ .completed k ∈ s.log := by
    intro k
    rw [hlog]
    simp
  have hsub : ∀ k, k ∈ evs.map Prod.fst → k ∈ ((g, t) :: evs).map Prod.fst :=
    fun k ↦ List.mem_cons_of_mem _
  have hlt : ∀ k ∈ newlyReady P s.edge g, g < P.gates.length := by
    intro k hk
    have hadj := List.mem_filter.mp (List.mem_filter.mp hk).1
    exact lt_length_of_dagEdge ((h.edge g k).mp hadj.2).1
  have hwait : ∀ k ∈ newlyReady P s.edge g, ¬ Released s ready ((g, t) :: evs) k := by
    -- the edge from the gate to it is still there
    intro k hk hkrel
    have hgk := (eq_of_mem_newlyReady (hlt k hk) hk).1
    exact hnew (h.released k g hkrel ((h.edge g k).mp hgk).1)
  -- a gate is released that was so before, or whose last parent this is
  have hrel' : ∀ k, Released s' (ready ++ newlyReady P s.edge g) evs k →
      k ∈ newlyReady P s.edge g ∨ Released s ready ((g, t) :: evs) k := by
    intro k hk
    rw [Released, List.mem_append, hqueue, hcompleted] at hk
    rcases hk with (hk | hk) | hk | hk | rfl | hk
    · exact .inr (.inl hk)
    · exact .inl hk
    · exact .inr (.inr (.inl hk))
    · exact .inr (.inr (.inr (.inl (hsub k hk))))
    · exact .inr hrel
    · exact .inr (.inr (.inr (.inr hk)))
  refine ⟨?_, (List.nodup_cons.mp h.evs_nodup).2, fun i j ↦ ?_, fun k i hk hik ↦ ?_, fun k hk ↦ ?_,
    fun k hk ↦ ?_, fun k ↦ ?_, fun k ↦ ?_, fun x hx ↦ ?_, fun k hk ↦ ?_, fun k ↦ ?_, ?_,
    fun k last hlast ↦ ?_, fun k ↦ ?_⟩
  · refine h.ready_nodup.append ?_ fun k hk hkn ↦ hwait k hkn (.inl hk)
    exact (List.nodup_range.filter _).filter _
  · rw [hedge, clear_out_edges, Bool.and_eq_true, h.edge, bne_iff_ne, hcompleted, not_or]
    exact ⟨fun ⟨⟨hd, hc⟩, hi⟩ ↦ ⟨hd, hi, hc⟩, fun ⟨hd, hi, hc⟩ ↦ ⟨⟨hd, hc⟩, hi⟩⟩
  · rw [hcompleted]
    rcases hrel' k hk with hkn | hk
    · -- an edge from a parent that is not complete would keep it from the ready list
      by_contra hno
      rw [not_or] at hno
      exact hno.1 ((eq_of_mem_newlyReady (hlt k hkn) hkn).2 i (lt_length_of_dagEdge hik)
        ((h.edge i k).mpr ⟨hik, hno.2⟩))
    · exact .inr (h.released k i hk hik)
  · rw [hqueue]
    rw [List.mem_append, hcompleted] at hk
    rcases hk with (hk | hk) | rfl | hk
    · exact (h.idle k (.inl hk)).imp_right fun hn hmem ↦ hn (hsub k hmem)
    · have hno := hwait k hk
      rw [Released, not_or, not_or, not_or, not_ne_iff] at hno
      exact ⟨hno.2.1, fun hmem ↦ hno.2.2.1 (hsub k hmem)⟩
    · exact ⟨hq, hev⟩
    · exact (h.idle k (.inr hk)).imp_right fun hn hmem ↦ hn (hsub k hmem)
  · rw [hcompleted, not_or]
    rcases List.mem_append.mp hk with hk | hk
    · exact ⟨fun hkg ↦ hready (hkg ▸ hk), h.ready_new k hk⟩
    · refine ⟨fun hkg ↦ hwait k hk (hkg ▸ hrel), fun hc ↦ hwait k hk (.inr (.inr (.inr hc)))⟩
  · rw [hqueue]
    exact h.queue_gate k
  · rw [hqueue]
    exact h.queue_types k
  · rw [hqueue]
    exact h.ev_types x (List.mem_cons_of_mem _ hx)
  · rw [hqueue]
    exact h.waiting k (hsub k hk)
  · rw [hqueue]
    exact h.tail k
  · rw [hlog]
    refine ⟨fun i hi ↦ List.mem_cons_of_mem _ (h.completed hrel hi), fun i hi ↦ h.completed hrel hi,
      h.ordered⟩
  · rw [hlog]
    by_cases hkg : k = g
    · subst hkg
      -- the queue is empty, so this was the last event of the gate
      have ht : t = last := (h.eq_getLast_iff List.mem_cons_self hlast).mpr hq
      subst ht
      have hcount := h.counts k t hlast
      simp only [List.count_cons, reduceCtorEq, beq_iff_eq, if_false, if_true, hcount, Nat.add_zero]
    · have hcount := h.counts k last hlast
      have hgk : g ≠ k := Ne.symm hkg
      simp only [List.count_cons, beq_iff_eq, Entry.completed.injEq, Entry.tried.injEq, hgk,
        reduceCtorEq, if_false, hcount, false_and, Nat.add_zero]
  · rw [hlog]
    by_cases hkg : k = g
    · subst hkg
      rw [List.count_cons_self, List.count_cons_of_ne (by simp), List.count_eq_zero.mpr hnew]
    · rw [List.count_cons_of_ne (by simp [Ne.symm hkg]), List.count_cons_of_ne (by simp)]
      exact h.once k

/-- Another route changes no queue but for its braids. -/
theorem Inv.rerouted {e : Event} {x : Sim × Event} (h : Inv P s ready (e.key :: evs))
    (hx : Rerouted s e x) : Inv P x.1 ready (x.2.key :: evs) ∧
      x.1.ready_events = s.ready_events ∧ x.1.ready_gates = s.ready_gates := by
  cases hx with
  | same => exact ⟨h, rfl, rfl⟩
  | other hq he hhead =>
    obtain ⟨htype, hgate, htimer⟩ := hhead
    rw [Event.key, he.1, he.2]
    refine ⟨h.setHead hq htype hgate (fun hmem ↦ ?_) rfl rfl rfl, rfl, rfl⟩
    rw [htimer]
    exact h.waiting _ hmem _ (hq ▸ List.mem_cons_self)

/-- What follows the failure of an event, with the events that are still to be tried after it. -/
theorem Inv.fail {t : Trying} {e : Event} {rest : List Event}
    (h : Inv P t.sim t.sim.ready_gates
      (e.key :: (t.sim.ready_events ++ rest).map Event.key)) :
    Inv P (fail P t e).sim (fail P t e).sim.ready_gates
      (((fail P t e).sim.ready_events ++ rest).map Event.key) := by
  obtain ⟨⟨s, e'⟩, YX_flag, hx, heq⟩ := fail_cases P t e
  obtain ⟨hinv, hready, hgates⟩ := Inv.rerouted (e := {e with attempts := e.attempts + 1}) h hx
  rw [← hready, ← hgates] at hinv
  rcases heq with heq | heq <;> rw [heq]
  · -- the gate is dropped
    have hdrop : ∀ s' : Sim, s'.edge = s.edge →
        s'.event_queues = Function.update s.event_queues e'.gate [] →
        s'.log = .dropped e'.gate :: s.log →
        Inv P s' (s.ready_gates ++ [e'.gate]) ((s.ready_events ++ rest).map Event.key) :=
      fun _ ↦ hinv.drop
    exact hdrop _ rfl rfl rfl
  · -- the event stays
    have hperm : (e'.key :: (s.ready_events ++ rest).map Event.key).Perm
        ((s.ready_events ++ [e'] ++ rest).map Event.key) := by
      rw [List.append_assoc]
      exact (List.perm_middle.map Event.key).symm
    exact (hinv.perm hperm).congr rfl rfl rfl

theorem Inv.tryEvent {tr : Trying} {e : Event} {rest : List Event}
    (h : Inv P tr.sim tr.sim.ready_gates ((tr.sim.ready_events ++ e :: rest).map Event.key)) :
    Inv P (tryEvent P tr e).sim (tryEvent P tr e).sim.ready_gates
      (((tryEvent P tr e).sim.ready_events ++ rest).map Event.key) := by
  have hcons : Inv P tr.sim tr.sim.ready_gates
      (e.key :: (tr.sim.ready_events ++ rest).map Event.key) :=
    h.perm (List.perm_middle.map Event.key)
  rw [Braid.tryEvent]
  split
  · -- the event succeeds
    dsimp only
    rw [succeed]
    split
    · next hq => exact hcons.complete hq rfl rfl rfl
    · next next rest' hq => refine hcons.advance hq ?_ ?_ rfl rfl rfl <;> rfl
  · -- the event fails
    have htried : ∀ s' : Sim, s'.edge = tr.sim.edge → s'.event_queues = tr.sim.event_queues →
        s'.log = .tried e.gate e.type false :: tr.sim.log →
        Inv P s' tr.sim.ready_gates (e.key :: (tr.sim.ready_events ++ rest).map Event.key) :=
      fun _ ↦ hcons.tried
    refine Inv.fail (t := {tr with sim := _}) ?_
    exact htried _ rfl rfl rfl

theorem Inv.tryEvents (h : Inv P s s.ready_gates (s.ready_events.map Event.key)) :
    Inv P (tryEvents P s) (tryEvents P s).ready_gates
      ((tryEvents P s).ready_events.map Event.key) := by
  have hfold : ∀ (l : List Event) (tr : Trying),
      Inv P tr.sim tr.sim.ready_gates ((tr.sim.ready_events ++ l).map Event.key) →
      Inv P (l.foldl (Braid.tryEvent P) tr).sim (l.foldl (Braid.tryEvent P) tr).sim.ready_gates
        ((l.foldl (Braid.tryEvent P) tr).sim.ready_events.map Event.key) := by
    intro l
    induction l with
    | nil =>
      intro tr htr
      rwa [List.append_nil] at htr
    | cons e l ih => exact fun tr htr ↦ ih _ htr.tryEvent
  rw [Braid.tryEvents]
  refine hfold _ _ ?_
  dsimp only
  rw [List.nil_append]
  -- they are sorted first, or not
  split
  · exact (h.perm ((P.order.perm _ _).map Event.key).symm).congr rfl rfl rfl
  · exact h.congr rfl rfl rfl

/-! ## Runs -/

theorem Inv.queueGates (h : Inv P s s.ready_gates (s.ready_events.map Event.key)) :
    Inv P (queueGates P s) (queueGates P s).ready_gates
      ((queueGates P s).ready_events.map Event.key) := by
  have hfold : ∀ (l : List ℕ) (s : Sim), s.ready_gates = [] →
      Inv P s l (s.ready_events.map Event.key) →
      (l.foldl (Braid.queueGate P) s).ready_gates = [] ∧
        Inv P (l.foldl (Braid.queueGate P) s) []
          ((l.foldl (Braid.queueGate P) s).ready_events.map Event.key) := by
    intro l
    induction l with
    | nil => exact fun s hs h ↦ ⟨hs, h⟩
    | cons g l ih => exact fun s hs h ↦ ih _ hs h.queueGate
  obtain ⟨hnil, hinv⟩ :=
    hfold s.ready_gates {s with ready_gates := []} rfl (h.congr rfl rfl rfl)
  rw [Braid.queueGates, hnil]
  exact hinv

/-- **A round keeps the invariant.** -/
theorem Inv.round (h : Inv P s s.ready_gates (s.ready_events.map Event.key)) :
    Inv P (round P s) (round P s).ready_gates ((round P s).ready_events.map Event.key) := by
  rw [Braid.round]
  refine Inv.tryEvents ?_
  rw [ready_gates_increment_clock]
  exact h.queueGates.increment_clock

theorem mem_ready_gates_start :
    g ∈ (start P).ready_gates ↔
      g < P.gates.length ∧ ∀ i < P.gates.length, ¬ dagEdge P.gates i g := by
  rw [start, List.mem_filter, List.mem_range, decide_eq_true_eq, in_degree, List.countP_eq_zero]
  simp only [List.mem_range]

/-- **The invariant holds at the start.** -/
theorem Inv.start :
    Inv P (start P) (start P).ready_gates ((start P).ready_events.map Event.key) := by
  refine ⟨List.nodup_range.filter _, List.nodup_nil, fun i j ↦ ?_, fun k i hk hik ↦ ?_,
    fun k _ ↦ ⟨rfl, List.not_mem_nil⟩, fun k _ ↦ List.not_mem_nil,
    fun k e he ↦ absurd he List.not_mem_nil, fun k ↦ List.nil_suffix,
    fun x hx ↦ absurd hx List.not_mem_nil, fun k hk ↦ absurd hk List.not_mem_nil,
    fun k e rest hk ↦ absurd hk (List.cons_ne_nil _ _).symm, trivial, fun _ _ _ ↦ rfl,
    fun _ ↦ Nat.zero_le _⟩
  · exact (and_iff_left List.not_mem_nil).symm
  · rcases hk with hk | hk | hk | hk
    · exact absurd hik ((mem_ready_gates_start.mp hk).2 i (lt_length_of_dagEdge hik))
    · exact absurd rfl hk
    · exact absurd hk List.not_mem_nil
    · exact absurd hk List.not_mem_nil

/-- **The invariant holds in every state reached.** -/
theorem Reachable.inv (h : Reachable P s) :
    Inv P s s.ready_gates (s.ready_events.map Event.key) := by
  induction h with
  | start => exact Inv.start
  | round _ _ ih => exact ih.round

theorem Ordered.of_append {gates : List Gate} {entry : Entry} {older : List Entry} :
    ∀ {newer : List Entry}, Ordered gates (newer ++ entry :: older) →
      ∀ i, SharesBefore gates i entry.gate → .completed i ∈ older
  | [], h => h.1
  | _ :: _, h => Ordered.of_append h.2

/-- **In every run nothing happens to a gate before the gates before it that it shares a qubit with
are completed, and a gate is completed once for the success of its last event.** -/
theorem Reachable.ordered (h : Reachable P s) :
    (∀ newer entry older, s.log = newer ++ entry :: older →
      ∀ i, SharesBefore P.gates i entry.gate → .completed i ∈ older) ∧
    ∀ g last, (P.typesAt g).getLast? = some last →
      s.log.count (.completed g) = s.log.count (.tried g last true) ∧
        s.log.count (.completed g) ≤ 1 := by
  refine ⟨fun newer entry older hlog ↦ ?_, fun g last hlast ↦ ?_⟩
  · have hordered := h.inv.ordered
    rw [hlog] at hordered
    exact hordered.of_append
  · exact ⟨h.inv.counts g last hlast, h.inv.once g⟩

/-- Two `H` gates on the same qubit. -/
def twoH : Setting where
  gates := [⟨1, .H 0⟩, ⟨2, .H 0⟩]
  routing := ⟨fun _ _ ↦ (0, 0), fun _ _ ↦ (0, 0), fun _ _ _ ↦ (⟨[], []⟩, ⟨[], []⟩), fun _ _ ↦ false⟩
  code_distance := 0
  attempt_th_yx := 8
  attempt_th_drop := 20
  priority_policy := 0
  order := ⟨fun _ l ↦ l, fun _ _ ↦ .refl _⟩

theorem running_twoH {n : ℕ} (h : n < 9) : Running (run twoH n) := by
  have hedge : ∀ n < 9, (run twoH n).edge 0 1 := by decide +kernel
  exact .inr (.inr (.inl ⟨0, 1, hedge n h⟩))

/-- The first one is completed, and only then the second one is queued. -/
theorem ordered_twoH :
    (∀ newer entry older, (run twoH 10).log = newer ++ entry :: older →
      ∀ i, SharesBefore twoH.gates i entry.gate → .completed i ∈ older) ∧
    ∀ g last, (twoH.typesAt g).getLast? = some last →
      (run twoH 10).log.count (.completed g) = (run twoH 10).log.count (.tried g last true) ∧
        (run twoH 10).log.count (.completed g) ≤ 1 := by
  have hready : Running (run twoH 9) :=
    .inr (.inr (.inr (by decide +kernel : (run twoH 9).ready_gates ≠ [])))
  refine Reachable.ordered (reachable_run twoH fun k hk ↦ ?_)
  rcases Nat.lt_succ_iff_lt_or_eq.mp hk with hk | rfl
  · exact running_twoH hk
  · exact hready

example : .completed 0 ∈ (run twoH 9).log ∧ .queued 1 ∉ (run twoH 9).log ∧
    .queued 1 ∈ (run twoH 10).log := by
  decide +kernel

end ScaffCC.Braid
