import ScaffCC.Braid.Held
import ScaffCC.Braid.Orphan

/-!
# No braid is left open

What a gate holds of the mesh is bounded by the events it has left, in every state of the
simulation. So a gate holds nothing when its last event has succeeded, and nothing before the events
that open its first braid and its first route.
-/

namespace ScaffCC.Braid

/-! ## Numbered gates -/

/-- The gates have different sequence numbers, none of which is zero. -/
structure Numbered (gates : List Gate) : Prop where
  nodup : (gates.map Gate.seq).Nodup
  ne_zero : ∀ g ∈ gates, g.seq ≠ 0

variable {P : Setting} {s : Sim} {ready : List ℕ} {evs evs' : List Event} {g k n : ℕ} {e : Event}

theorem Numbered.seqAt_ne_zero (h : Numbered P.gates) (hg : g < P.gates.length) :
    P.seqAt g ≠ 0 := by
  rw [Setting.seqAt, List.getElem?_eq_getElem hg]
  exact h.ne_zero _ (List.getElem_mem hg)

theorem Numbered.seqAt_ne (h : Numbered P.gates) (hg : g < P.gates.length)
    (hk : k < P.gates.length) (hne : k ≠ g) : P.seqAt k ≠ P.seqAt g := by
  rw [Setting.seqAt, Setting.seqAt, List.getElem?_eq_getElem hg, List.getElem?_eq_getElem hk]
  intro heq
  have hseq : (P.gates.map Gate.seq)[k]? = (P.gates.map Gate.seq)[g]? := by
    simpa [hg, hk] using heq
  exact hne ((List.getElem?_inj (by simpa using hk) h.nodup).mp hseq)

/-! ## The invariant -/

/-- The events of a gate that are left: the one that is ready, and those in its queue. -/
def remaining (s : Sim) (evs : List Event) (g : ℕ) : List Event :=
  evs.filter (fun e ↦ e.gate = g) ++ s.event_queues g

/-- An owner is a gate, or none. -/
def IsOwner (P : Setting) (owner : ℕ) : Prop :=
  owner = 0 ∨ ∃ g < P.gates.length, owner = P.seqAt g

/-- What holds of the mesh during the simulation, with the events that are ready. -/
structure HeldInv (P : Setting) (s : Sim) (evs : List Event) : Prop where
  holds : ∀ g < P.gates.length, Holds P s.mesh g (remaining s evs g)
  node : ∀ n, IsOwner P (s.mesh.node n)
  link : ∀ l, IsOwner P (s.mesh.link l)

theorem Event.map_key_fst (evs : List Event) :
    (evs.map Event.key).map Prod.fst = evs.map Event.gate := by
  rw [List.map_map]
  rfl

/-- A gate without a ready event has only its queue left. -/
theorem remaining_eq_queue (h : g ∉ (evs.map Event.key).map Prod.fst) :
    remaining s evs g = s.event_queues g := by
  rw [Event.map_key_fst] at h
  have hnil : evs.filter (fun e ↦ e.gate = g) = [] :=
    List.filter_eq_nil_iff.mpr fun e he ↦ by
      simpa using fun heq ↦ h (List.mem_map.mpr ⟨e, he, heq⟩)
  rw [remaining, hnil, List.nil_append]

/-- A gate with a ready event has this one left, and its queue. -/
theorem remaining_cons (h : ((e :: evs).map Event.key).map Prod.fst |>.Nodup) :
    remaining s (e :: evs) e.gate = e :: s.event_queues e.gate := by
  rw [List.map_cons, List.map_cons] at h
  have hrest := remaining_eq_queue (s := s) (List.nodup_cons.mp h).1
  rw [remaining, List.filter_cons_of_pos (by simp), List.cons_append, ← remaining]
  exact congrArg _ hrest

theorem remaining_cons_of_ne (h : k ≠ e.gate) : remaining s (e :: evs) k = remaining s evs k := by
  rw [remaining, remaining, List.filter_cons_of_neg (by simpa using h.symm)]

theorem remaining_perm (hp : evs.Perm evs') (h : ((evs.map Event.key).map Prod.fst).Nodup) (g : ℕ) :
    remaining s evs g = remaining s evs' g := by
  rw [Event.map_key_fst] at h
  -- there is at most one such event
  have hle : (evs.filter fun e ↦ e.gate = g).length ≤ 1 := by
    have hrep : (evs.filter fun e ↦ e.gate = g).map Event.gate
        = List.replicate (evs.filter fun e ↦ e.gate = g).length g := by
      rw [List.eq_replicate_iff]
      refine ⟨List.length_map _, fun a ha ↦ ?_⟩
      obtain ⟨e, he, rfl⟩ := List.mem_map.mp ha
      exact of_decide_eq_true (List.mem_filter.mp he).2
    have hnodup : ((evs.filter fun e ↦ e.gate = g).map Event.gate).Nodup :=
      h.sublist (List.filter_sublist.map _)
    rwa [hrep, List.nodup_replicate] at hnodup
  have hfilter := hp.filter fun e ↦ e.gate = g
  rw [remaining, remaining]
  congr 1
  rcases Nat.le_one_iff_eq_zero_or_eq_one.mp hle with hlen | hlen
  · have hnil := List.length_eq_zero_iff.mp hlen
    rw [hnil] at hfilter ⊢
    exact (List.nil_perm.mp hfilter).symm
  · obtain ⟨e, he⟩ := List.length_eq_one_iff.mp hlen
    rw [he] at hfilter ⊢
    exact (List.perm_singleton.mp hfilter.symm).symm

/-- Only the mesh and what the events that are left do matter. -/
theorem HeldInv.congr {s' : Sim} (h : HeldInv P s evs) (hmesh : s'.mesh = s.mesh)
    (hshape : ∀ g, (remaining s' evs' g).map Event.shape = (remaining s evs g).map Event.shape) :
    HeldInv P s' evs' := by
  refine ⟨fun g hg ↦ ?_, ?_, ?_⟩ <;> rw [hmesh]
  · exact (h.holds g hg).congr (hshape g)
  · exact h.node
  · exact h.link

/-! ## Queueing and the clock -/

theorem HeldInv.queueGate (h : HeldInv P s evs) (hinv : Inv P s (g :: ready) (evs.map Event.key)) :
    HeldInv P (queueGate P s g) evs := by
  obtain ⟨hnil, hev⟩ := hinv.idle g (.inl List.mem_cons_self)
  have hqueue : (Braid.queueGate P s g).event_queues =
      Function.update s.event_queues g (((P.opAt g).map fun op ↦ events P.routing op g).getD []) :=
    rfl
  refine ⟨fun k hk ↦ ?_, h.node, h.link⟩
  have hold := h.holds k hk
  by_cases hkg : k = g
  · subst hkg
    rw [remaining_eq_queue hev] at hold ⊢
    rw [hnil] at hold
    rw [hqueue, Function.update_self]
    cases hop : P.opAt k with
    | none => exact hold
    | some op => exact hold.queue hop
  · rwa [remaining, hqueue, Function.update_of_ne hkg]

theorem HeldInv.tickQueue (h : HeldInv P s s.ready_events)
    (hinv : Inv P s ready (s.ready_events.map Event.key)) (g : ℕ) :
    HeldInv P (tickQueue s g) (tickQueue s g).ready_events := by
  rw [Braid.tickQueue]
  split
  · exact h
  · next e rest hq =>
    by_cases hneg : e.timer < 0
    · rwa [if_pos hneg]
    rw [if_neg hneg]
    have hgate : e.gate = g := hinv.queue_gate g e (hq ▸ List.mem_cons_self)
    have hev : g ∉ (s.ready_events.map Event.key).map Prod.fst := by
      intro hmem
      have htimer := hinv.waiting g hmem e (hq ▸ List.mem_cons_self)
      omega
    have hrem := remaining_eq_queue (s := s) hev
    dsimp only
    by_cases hzero : (if e.timer ≠ 0 then e.timer - 1 else e.timer) = 0
    · rw [if_pos hzero]
      refine h.congr rfl fun k ↦ ?_
      by_cases hkg : k = g
      · subst hkg
        rw [remaining, List.append_left_eq_self] at hrem
        simp [remaining, hrem, hq, hgate, Event.shape]
      · have hne : ¬ g = k := fun heq ↦ hkg heq.symm
        simp [remaining, hgate, hne, Function.update_of_ne hkg]
    · rw [if_neg hzero]
      refine h.congr rfl fun k ↦ ?_
      by_cases hkg : k = g
      · subst hkg
        simp [remaining, hq, Event.shape]
      · simp [remaining, Function.update_of_ne hkg]

/-! ## Trying an event -/

variable {t : Trying} {rest : List Event} {M' : Mesh} {s' : Sim}

theorem IsOwner.do_event (hg : g < P.gates.length) (hdo : do_event s.mesh (P.seqAt g) e = some M')
    (hnode : ∀ n, IsOwner P (s.mesh.node n)) (hlink : ∀ l, IsOwner P (s.mesh.link l)) :
    (∀ n, IsOwner P (M'.node n)) ∧ ∀ l, IsOwner P (M'.link l) := by
  have hset := (do_event_eq_some hdo).2.2
  have howner : IsOwner P (if e.close_open then P.seqAt g else 0) := by
    split_ifs
    · exact .inr ⟨g, hg, rfl⟩
    · exact .inl rfl
  refine ⟨fun n ↦ ?_, fun l ↦ ?_⟩
  · rw [hset.node]
    by_cases hn : n ∈ e.braid.nodes
    · rwa [if_pos hn]
    · rw [if_neg hn]
      exact hnode n
  · rw [hset.link]
    by_cases hl : l ∈ e.braid.links
    · rwa [if_pos hl]
    · rw [if_neg hl]
      exact hlink l

theorem IsOwner.purge (hnode : ∀ n, IsOwner P (s.mesh.node n))
    (hlink : ∀ l, IsOwner P (s.mesh.link l)) (k : ℕ) :
    (∀ n, IsOwner P ((purge_gate_from_mesh s.mesh k).node n)) ∧
      ∀ l, IsOwner P ((purge_gate_from_mesh s.mesh k).link l) := by
  simp only [purge_gate_from_mesh]
  refine ⟨fun n ↦ ?_, fun l ↦ ?_⟩ <;> split_ifs
  · exact .inl rfl
  · exact hnode n
  · exact .inl rfl
  · exact hlink l

theorem Inv.gate_lt (hinv : Inv P s ready ((e :: evs).map Event.key)) :
    e.gate < P.gates.length :=
  lt_length_of_typesAt fun hnil ↦ by
    have htypes := hinv.of_cons.2.2.2.2
    rw [hnil] at htypes
    exact List.cons_ne_nil _ _ (List.suffix_nil.mp htypes)

theorem HeldInv.succeed (h : HeldInv P s (e :: evs)) (hnum : Numbered P.gates)
    (hends : SameEnds P.routing) (hinv : Inv P s ready ((e :: evs).map Event.key))
    (hdo : do_event s.mesh (P.seqAt e.gate) e = some M') (hmesh : s'.mesh = M')
    (hqueue : ∀ k, (s'.event_queues k).map Event.shape = (s.event_queues k).map Event.shape) :
    HeldInv P s' evs := by
  have hg := hinv.gate_lt
  have hseq := hnum.seqAt_ne_zero hg
  have howner := IsOwner.do_event hg hdo h.node h.link
  refine ⟨fun k hk ↦ ?_, hmesh ▸ howner.1, hmesh ▸ howner.2⟩
  have hold := h.holds k hk
  have hshape : (remaining s' evs k).map Event.shape = (remaining s evs k).map Event.shape := by
    rw [remaining, remaining, List.map_append, List.map_append, hqueue]
  refine Holds.congr ?_ hshape
  rw [hmesh]
  by_cases hkg : k = e.gate
  · subst hkg
    rw [remaining_cons hinv.evs_nodup] at hold
    rw [remaining_eq_queue hinv.of_cons.1]
    exact hold.succeed hends hinv.of_cons.2.2.2.2 hseq hdo
  · rw [remaining_cons_of_ne hkg] at hold
    exact hold.ownsLess (ownsLess_do_event (hnum.seqAt_ne hg hk hkg) (hnum.seqAt_ne_zero hk) hdo)

theorem HeldInv.drop (h : HeldInv P s (e :: evs)) (hnum : Numbered P.gates)
    (hinv : Inv P s ready ((e :: evs).map Event.key)) : HeldInv P (drop P s e.gate) evs := by
  have hg := hinv.gate_lt
  have howner := IsOwner.purge h.node h.link (P.seqAt e.gate)
  refine ⟨fun k hk ↦ ?_, howner.1, howner.2⟩
  have hold := h.holds k hk
  by_cases hkg : k = e.gate
  · subst hkg
    have hnil : remaining (Braid.drop P s e.gate) evs e.gate = [] :=
      (remaining_eq_queue hinv.of_cons.1).trans (Function.update_self ..)
    rw [hnil]
    exact holds_purge (hnum.seqAt_ne_zero hg)
  · have hsame : remaining (Braid.drop P s e.gate) evs k = remaining s evs k := by
      rw [remaining, remaining]
      exact congrArg _ (Function.update_of_ne hkg ..)
    rw [remaining_cons_of_ne hkg] at hold
    rw [hsame]
    exact hold.ownsLess (ownsLess_purge (hnum.seqAt_ne_zero hk))

theorem HeldInv.replace {next e' next' : Event} (h : HeldInv P s (e :: evs))
    (hinv : Inv P s ready ((e :: evs).map Event.key)) (hq : s.event_queues e.gate = next :: rest)
    (hgate : e'.gate = e.gate)
    (hholds : Holds P s.mesh e.gate (e :: next :: rest) →
      Holds P s.mesh e.gate (e' :: next' :: rest))
    (hmesh : s'.mesh = s.mesh)
    (hqueue : s'.event_queues = Function.update s.event_queues e.gate (next' :: rest)) :
    HeldInv P s' (e' :: evs) := by
  refine ⟨fun k hk ↦ ?_, hmesh ▸ h.node, hmesh ▸ h.link⟩
  have hold := h.holds k hk
  rw [hmesh]
  by_cases hkg : k = e.gate
  · subst hkg
    rw [remaining_cons hinv.evs_nodup, hq] at hold
    have hrem : remaining s' (e' :: evs) e.gate = e' :: next' :: rest := by
      have hfst : ((e' :: evs).map Event.key).map Prod.fst
          = ((e :: evs).map Event.key).map Prod.fst := by
        simp only [List.map_cons, Event.key, hgate]
      rw [← hgate, remaining_cons (hfst ▸ hinv.evs_nodup), hgate, hqueue, Function.update_self]
    rw [hrem]
    exact hholds hold
  · have hsame : remaining s' (e' :: evs) k = remaining s (e :: evs) k := by
      rw [remaining_cons_of_ne hkg, remaining_cons_of_ne (hgate.symm ▸ hkg), remaining, remaining,
        hqueue, Function.update_of_ne hkg]
    exact hsame ▸ hold

theorem HeldInv.reroute (h : HeldInv P s (e :: evs)) (hends : SameEnds P.routing)
    (hinv : Inv P s ready ((e :: evs).map Event.key))
    (htype : e.type = .cnot3 ∨ e.type = .cnot5) :
    HeldInv P (reroute P s e).1 ((reroute P s e).2 :: evs) := by
  rw [Braid.reroute]
  split
  · next op next rest hop hq =>
    have htypes := hinv.of_cons.2.2.2.2
    rw [hq] at htypes
    exact h.replace hinv hq resolve_cnot_fst.2.1
      (fun hold ↦ hold.resolve hends hop htypes htype) rfl rfl
  · exact h

/-- An event that fails has its route changed or not, and then its gate is dropped or it stays. -/
theorem exists_fail_eq (t : Trying) (e : Event) : ∃ x YX_flag,
    (x = (t.sim, {e with attempts := e.attempts + 1}) ∨ (e.type = .cnot3 ∨ e.type = .cnot5) ∧
        x = reroute P t.sim {e with attempts := e.attempts + 1}) ∧
      (fail P t e = ⟨Braid.drop P x.1 x.2.gate, YX_flag, true⟩ ∨
        fail P t e = ⟨{x.1 with ready_events := x.1.ready_events ++ [x.2]}, YX_flag,
          t.drop_flag⟩) := by
  obtain ⟨change, hchange⟩ : ∃ change, change = (P.attempt_th_yx < e.attempts + 1 && !t.YX_flag &&
    (e.type = .cnot3 || e.type = .cnot5)) := ⟨_, rfl⟩
  refine ⟨if change then reroute P t.sim {e with attempts := e.attempts + 1}
    else (t.sim, {e with attempts := e.attempts + 1}), t.YX_flag || change, ?_, ?_⟩
  · cases change with
    | false => exact .inl rfl
    | true =>
      have htype := (Bool.and_eq_true_iff.mp hchange.symm).2
      rw [Bool.or_eq_true, decide_eq_true_eq, decide_eq_true_eq] at htype
      exact .inr ⟨htype, rfl⟩
  · subst hchange
    exact ite_eq_or_eq _ _ _

theorem HeldInv.fail (h : HeldInv P t.sim (e :: (t.sim.ready_events ++ rest)))
    (hnum : Numbered P.gates) (hends : SameEnds P.routing)
    (hinv : Inv P t.sim t.sim.ready_gates ((e :: (t.sim.ready_events ++ rest)).map Event.key)) :
    HeldInv P (fail P t e).sim ((fail P t e).sim.ready_events ++ rest) := by
  have hattempt : HeldInv P t.sim
      ({e with attempts := e.attempts + 1} :: (t.sim.ready_events ++ rest)) := by
    refine h.congr rfl fun k ↦ ?_
    by_cases hk : e.gate = k <;> simp [remaining, hk, Event.shape]
  obtain ⟨⟨s, e'⟩, YX_flag, hx, heq⟩ := exists_fail_eq t e
  have hrerouted : Rerouted t.sim {e with attempts := e.attempts + 1} (s, e') := by
    rcases hx with hx | ⟨-, hx⟩
    · exact hx ▸ .same
    · exact hx ▸ rerouted_reroute P
  obtain ⟨hinv', hready, -⟩ := Inv.rerouted (e := {e with attempts := e.attempts + 1}) hinv
    hrerouted
  have hheld : HeldInv P s (e' :: (s.ready_events ++ rest)) := by
    rw [hready]
    rcases hx with hx | ⟨htype, hx⟩
    · obtain ⟨rfl, rfl⟩ := Prod.mk.inj hx
      exact hattempt
    · have hreroute := hattempt.reroute hends hinv htype
      rwa [← hx] at hreroute
  rw [← hready] at hinv'
  rcases heq with heq | heq <;> rw [heq]
  · exact hheld.drop hnum hinv'
  · refine hheld.congr rfl fun k ↦ ?_
    have hperm : (e' :: (s.ready_events ++ rest)).Perm (s.ready_events ++ [e'] ++ rest) := by
      rw [List.append_assoc]
      exact List.perm_middle.symm
    rw [remaining_perm hperm hinv'.evs_nodup]
    rfl

/-- **An event is tried.** -/
theorem HeldInv.tryEvent (h : HeldInv P t.sim (t.sim.ready_events ++ e :: rest))
    (hnum : Numbered P.gates) (hends : SameEnds P.routing)
    (hinv : Inv P t.sim t.sim.ready_gates ((t.sim.ready_events ++ e :: rest).map Event.key)) :
    HeldInv P (tryEvent P t e).sim ((tryEvent P t e).sim.ready_events ++ rest) := by
  have hcons : Inv P t.sim t.sim.ready_gates ((e :: (t.sim.ready_events ++ rest)).map Event.key) :=
    hinv.perm (List.perm_middle.map Event.key)
  have hheld : HeldInv P t.sim (e :: (t.sim.ready_events ++ rest)) :=
    h.congr rfl fun k ↦ by rw [remaining_perm List.perm_middle hinv.evs_nodup]
  rw [Braid.tryEvent]
  split
  · next M' hdo =>
    dsimp only
    rw [Braid.succeed]
    split
    · exact hheld.succeed hnum hends hcons hdo rfl fun _ ↦ rfl
    · next next rest' hq =>
      refine hheld.succeed hnum hends hcons hdo rfl fun k ↦ ?_
      by_cases hkg : k = e.gate
      · subst hkg
        dsimp only at hq ⊢
        rw [Function.update_self, hq]
        rfl
      · dsimp only
        rw [Function.update_of_ne hkg]
  · have htried : Inv P {t.sim with log := .tried e.gate e.type false :: t.sim.log}
        t.sim.ready_gates ((e :: (t.sim.ready_events ++ rest)).map Event.key) :=
      hcons.tried rfl rfl rfl
    refine HeldInv.fail (t := {t with sim := _}) ?_ hnum hends htried
    exact hheld.congr rfl fun _ ↦ rfl

/-! ## Runs -/

theorem HeldInv.queueGates (h : HeldInv P s s.ready_events)
    (hinv : Inv P s s.ready_gates (s.ready_events.map Event.key)) :
    HeldInv P (queueGates P s) (queueGates P s).ready_events := by
  have hfold : ∀ (l : List ℕ) (s : Sim), Inv P s l (s.ready_events.map Event.key) →
      HeldInv P s s.ready_events →
      HeldInv P (l.foldl (Braid.queueGate P) s) (l.foldl (Braid.queueGate P) s).ready_events := by
    intro l
    induction l with
    | nil => exact fun _ _ h ↦ h
    | cons g l ih => exact fun s hinv h ↦ ih _ hinv.queueGate (h.queueGate hinv)
  exact hfold s.ready_gates {s with ready_gates := []} (hinv.congr rfl rfl rfl)
    (h.congr rfl fun _ ↦ rfl)

theorem HeldInv.increment_clock (h : HeldInv P s s.ready_events)
    (hinv : Inv P s ready (s.ready_events.map Event.key)) :
    HeldInv P (increment_clock P s) (increment_clock P s).ready_events := by
  have hfold : ∀ (l : List ℕ) (s : Sim), Inv P s ready (s.ready_events.map Event.key) →
      HeldInv P s s.ready_events →
      HeldInv P (l.foldl Braid.tickQueue s) (l.foldl Braid.tickQueue s).ready_events := by
    intro l
    induction l with
    | nil => exact fun _ _ h ↦ h
    | cons g l ih => exact fun s hinv h ↦ ih _ (hinv.tickQueue g) (h.tickQueue hinv g)
  exact hfold _ {s with clk := s.clk + 1} (hinv.congr rfl rfl rfl) (h.congr rfl fun _ ↦ rfl)

/-- The state in which the events of a round start to be tried. -/
def trying (P : Setting) (s : Sim) : Trying :=
  ⟨{Braid.increment_clock P (Braid.queueGates P s) with ready_events := []}, false, false⟩

/-- The events of a round, in the order in which they are tried. -/
def roundEvents (P : Setting) (s : Sim) : List Event :=
  pending P (Braid.increment_clock P (Braid.queueGates P s))

/-- An event is tried in a state, after some others of its round. -/
def Tries (P : Setting) (t : Trying) (e : Event) : Prop :=
  ∃ s, Reachable P s ∧ Running s ∧ ∃ pre rest, roundEvents P s = pre ++ e :: rest ∧
    t = pre.foldl (Braid.tryEvent P) (trying P s)

/-- What holds while the events of a list are tried. -/
def TryInv (P : Setting) (t : Trying) (l : List Event) : Prop :=
  Inv P t.sim t.sim.ready_gates ((t.sim.ready_events ++ l).map Event.key) ∧
    HeldInv P t.sim (t.sim.ready_events ++ l)

theorem TryInv.foldl_tryEvent (hnum : Numbered P.gates) (hends : SameEnds P.routing)
    {pre : List Event} (h : TryInv P t (pre ++ rest)) :
    TryInv P (pre.foldl (Braid.tryEvent P) t) rest := by
  induction pre generalizing t with
  | nil => exact h
  | cons e pre ih => exact ih ⟨h.1.tryEvent, h.2.tryEvent hnum hends h.1⟩

theorem tryInv_trying (hinv : Inv P s s.ready_gates s.keys) (h : HeldInv P s s.ready_events) :
    TryInv P (trying P s) (roundEvents P s) := by
  have hheld := (h.queueGates hinv).increment_clock hinv.queueGates
  refine ⟨hinv.ticked.pending, hheld.congr rfl fun k ↦ ?_⟩
  have hnodup := hinv.ticked.evs_nodup
  rw [Sim.keys] at hnodup
  rw [remaining_perm perm_pending.symm hnodup]
  rfl

/-- **What a gate holds is bounded in every state reached.** -/
theorem Reachable.heldInv (h : Reachable P s) (hnum : Numbered P.gates)
    (hends : SameEnds P.routing) : HeldInv P s s.ready_events := by
  induction h with
  | start =>
    refine ⟨fun g hg ↦ ?_, fun _ ↦ .inl rfl, fun _ ↦ .inl rfl⟩
    have hseq := hnum.seqAt_ne_zero hg
    exact ⟨false, false, fun _ ↦ ⟨rfl, rfl⟩, fun e he ↦ absurd he List.not_mem_nil,
      fun n hn ↦ absurd hn.symm hseq, fun l hl ↦ absurd hl.symm hseq⟩
  | @round s hs _ ih =>
    have hstart : TryInv P (trying P s) (roundEvents P s ++ []) := by
      rw [List.append_nil]
      exact tryInv_trying hs.inv ih
    have hheld := (hstart.foldl_tryEvent hnum hends).2
    rw [List.append_nil] at hheld
    exact hheld

theorem Tries.tryInv (h : Tries P t e) (hnum : Numbered P.gates) (hends : SameEnds P.routing) :
    ∃ rest, TryInv P t (e :: rest) := by
  obtain ⟨s, hs, -, pre, rest, heq, rfl⟩ := h
  exact ⟨rest, TryInv.foldl_tryEvent hnum hends
    (heq ▸ tryInv_trying hs.inv (hs.heldInv hnum hends))⟩

/-! ## Simulations on a mesh -/

/-- A simulation of gates that were numbered one after the other, on a mesh with a number of
columns. -/
structure MeshSetting extends Setting where
  num_cols : ℕ
  routing_eq : routing = meshRouting num_cols
  numbered : Numbered gates

theorem MeshSetting.sameEnds (P : MeshSetting) : SameEnds P.routing :=
  P.routing_eq ▸ sameEnds_meshRouting P.num_cols

theorem map_seq_gadget (L : Layout) (seq : ℕ) (g : Gate) :
    (gadget L seq g).map Gate.seq = List.range' (seq + 1) (gadget L seq g).length := by
  rcases g with ⟨_, _ | _⟩ <;> rfl

theorem map_seq_collect (L : Layout) (seq : ℕ) (gs : List Gate) :
    (collect L seq gs).1.map Gate.seq = gs.map Gate.seq ∧
      (collect L seq gs).2.map Gate.seq
        = List.range' (seq + 1) (collect L seq gs).2.length := by
  induction gs generalizing seq with
  | nil => exact ⟨rfl, rfl⟩
  | cons g gs ih =>
    obtain ⟨hfst, hsnd⟩ := ih (seq + (gadget L seq (remap L g)).length)
    simp only [collect, List.map_cons, List.map_append, hfst, hsnd, map_seq_gadget,
      List.length_append]
    refine ⟨rfl, ?_⟩
    rw [← List.range'_append_1]
    congr 2
    omega

theorem numbered_expand (L : Layout) (M : ModuleGates) : Numbered (expand L M) := by
  obtain ⟨hfst, hsnd⟩ := map_seq_collect L M.gates.length M.gates
  have hseq : ((collect L M.gates.length M.gates).1 ++
      (collect L M.gates.length M.gates).2).map Gate.seq
        = List.range' 1 (M.gates.length + (collect L M.gates.length M.gates).2.length) := by
    rw [List.map_append, hfst, hsnd, M.seq_eq, ← List.range'_append_1]
    congr 2
    omega
  refine ⟨?_, fun g hg ↦ ?_⟩
  · exact (hseq ▸ List.nodup_range').sublist (List.filter_sublist.map _)
  · have hmem := List.mem_map_of_mem (f := Gate.seq) (List.mem_of_mem_filter hg)
    rw [hseq, List.mem_range'_1] at hmem
    omega

/-- The simulation of a module, after its gates that use magic states have been expanded. -/
def MeshSetting.ofModule (L : Layout) (M : ModuleGates)
    (code_distance attempt_th_yx attempt_th_drop priority_policy : ℕ) (order : EventSort) :
    MeshSetting where
  gates := expand L M
  routing := meshRouting L.num_cols
  code_distance := code_distance
  attempt_th_yx := attempt_th_yx
  attempt_th_drop := attempt_th_drop
  priority_policy := priority_policy
  order := order
  num_cols := L.num_cols
  routing_eq := rfl
  numbered := numbered_expand L M

/-! ## When the last event has succeeded -/

/-- **No braid is left open**: a gate holds nothing of the mesh when its last event has succeeded,
whichever of its events failed or got another route before. -/
theorem Tries.not_owned (P : MeshSetting) (h : Tries P.toSetting t e) (htype : e.type = .cnot7)
    (hdo : do_event t.sim.mesh (P.seqAt e.gate) e = some M') :
    (∀ n, M'.node n ≠ P.seqAt e.gate) ∧ ∀ l, M'.link l ≠ P.seqAt e.gate := by
  obtain ⟨rest, hinv, hheld⟩ := h.tryInv P.numbered P.sameEnds
  have hcons := hinv.perm (List.perm_middle.map Event.key)
  have hg := hcons.gate_lt
  have htypes := hcons.of_cons.2.2.2.2
  have hhold := hheld.holds e.gate hg
  rw [remaining_perm List.perm_middle hinv.evs_nodup, remaining_cons hcons.evs_nodup] at hhold
  -- no event is left
  have hnil : t.sim.event_queues e.gate = [] := by
    have hhead := head_type_of_suffix htypes
    rw [htype, List.head?_map, EventType.next, Option.map_eq_none_iff, List.head?_eq_none_iff]
      at hhead
    exact hhead
  have hdone := hhold.succeed P.sameEnds htypes (P.numbered.seqAt_ne_zero hg) hdo
  rw [hnil] at hdone
  obtain ⟨YX3, YX5, -, -, hnode, hlink⟩ := hdone
  exact ⟨fun n hn ↦ List.not_mem_nil (hnode n hn), fun l hl ↦ List.not_mem_nil (hlink l hl)⟩

/-- One `CNOT` of two qubits that touch at a corner. -/
def cornerCNOT : MeshSetting where
  gates := [⟨1, .CNOT 0 3⟩]
  routing := meshRouting 2
  code_distance := 1
  attempt_th_yx := 8
  attempt_th_drop := 20
  priority_policy := 0
  order := ⟨fun _ l ↦ l, fun _ _ ↦ .refl _⟩
  num_cols := 2
  routing_eq := rfl
  numbered := ⟨by simp, by simp⟩

/-- In the seventh round its last event is tried and succeeds. -/
theorem not_owned_cornerCNOT : ∃ t e M', Tries cornerCNOT.toSetting t e ∧ e.type = .cnot7 ∧
    do_event t.sim.mesh (cornerCNOT.seqAt e.gate) e = some M' ∧
    (∀ n, M'.node n ≠ cornerCNOT.seqAt e.gate) ∧ ∀ l, M'.link l ≠ cornerCNOT.seqAt e.gate := by
  have hqueue : ∀ n < 7, n = 0 ∨ (run cornerCNOT.toSetting n).event_queues 0 ≠ [] := by
    decide +kernel
  have hready : (run cornerCNOT.toSetting 0).ready_gates ≠ [] := by decide +kernel
  have hrun : ∀ n < 7, Running (run cornerCNOT.toSetting n) := fun n hn ↦ by
    rcases hqueue n hn with rfl | hne
    · exact .inr (.inr (.inr hready))
    · exact .inl ⟨0, hne⟩
  have hevents : roundEvents cornerCNOT.toSetting (run cornerCNOT.toSetting 6)
      = [⟨⟨[0, 1], [(0, 3)]⟩, false, 0, .cnot7, 0, 0⟩] := by decide +kernel
  have htries : Tries cornerCNOT.toSetting
      (trying cornerCNOT.toSetting (run cornerCNOT.toSetting 6))
      ⟨⟨[0, 1], [(0, 3)]⟩, false, 0, .cnot7, 0, 0⟩ :=
    ⟨_, reachable_run _ fun n hn ↦ hrun n (by omega), hrun 6 (by omega), [], [], hevents, rfl⟩
  have hsome : (do_event (trying cornerCNOT.toSetting (run cornerCNOT.toSetting 6)).sim.mesh
      (cornerCNOT.seqAt 0) ⟨⟨[0, 1], [(0, 3)]⟩, false, 0, .cnot7, 0, 0⟩).isSome := by
    decide +kernel
  obtain ⟨M', hM'⟩ := Option.isSome_iff_exists.mp hsome
  exact ⟨_, _, M', htries, rfl, hM', htries.not_owned cornerCNOT rfl hM'⟩

/-! ## When an event fails -/

/-- Before the event that opens its second route a gate never waits for one that has a timer, and
after it there is none, as the timer of this event is set to `-1`. -/
def EarlyOnly (v : Local) : Prop :=
  (∀ t ∈ v.events, t.early) ∧ ∀ e rest, v.queue = e :: rest → e.type.early ∨ e.timer < 0

variable {A : EventType → Prop}

theorem LocalStep.earlyOnly {v v' : Local} (hd : P.code_distance = 0)
    (h : LocalStep P A g v v') (hv : EarlyOnly v) : EarlyOnly v' := by
  obtain ⟨hev, hqueue⟩ := hv
  cases h with
  | idle => exact ⟨hev, hqueue⟩
  | queued types timer =>
    refine ⟨fun t ht ↦ absurd ht (Set.notMem_empty t), fun e rest hq ↦ ?_⟩
    subst hq
    exact .inl (EventType.early_head types)
  | counted pos =>
    refine ⟨hev, fun e rest hq ↦ ?_⟩
    obtain ⟨rfl, rfl⟩ := List.cons.inj hq
    exact .inl ((hqueue _ _ rfl).resolve_right (by omega))
  | @lapsed e' rest' _ nonneg waiting =>
    refine ⟨fun t ht ↦ ?_, fun e rest hq ↦ ?_⟩
    · rw [Set.mem_singleton_iff.mp ht]
      exact (hqueue _ _ rfl).resolve_right (by omega)
    · change rest' = e :: rest at hq
      have htimer := waiting e (hq ▸ List.mem_cons_self)
      exact .inr (by omega)
  | @advanced t next next' rest _ _ types type timer =>
    refine ⟨fun t ht ↦ absurd ht (Set.notMem_empty t), fun e rest' hq ↦ ?_⟩
    obtain ⟨rfl, rfl⟩ := List.cons.inj hq
    have hearly := hev t rfl
    by_cases ht : t = .cnot4
    · -- the timer of the next event is set to a negative number
      subst ht
      have hnext := head_type_of_suffix types
      rw [List.head?_cons, EventType.next, Option.some.injEq] at hnext
      rw [timer, hnext, hd]
      exact .inr (by decide)
    · exact .inl (type ▸ EventType.early_of_suffix types hearly ht)
  | @stayed t queue queue' _ same =>
    refine ⟨hev, fun e rest hq ↦ ?_⟩
    change queue' = e :: rest at hq
    subst hq
    cases queue with
    | nil => cases same
    | cons e' rest' =>
      obtain ⟨heq, -⟩ := List.cons.inj same
      obtain ⟨htype, htimer⟩ := Prod.mk.inj heq
      rw [htype, htimer]
      exact hqueue e' rest' rfl
  | ended => exact ⟨fun t ht ↦ absurd ht (Set.notMem_empty t),
      fun e rest hq ↦ absurd hq (List.cons_ne_nil _ _).symm⟩

theorem Tries.early (h : Tries P t e) (hd : P.code_distance = 0) : e.type.early := by
  obtain ⟨s, hs, -, pre, rest, heq, -⟩ := h
  have hstart : ∀ k, EarlyOnly (localAt s s.keys k) := fun k ↦
    Reachable.forall_localAt (A := fun _ ↦ True) (Q := fun _ v ↦ EarlyOnly v)
      (fun _ _ _ hstep hv ↦ hstep.earlyOnly hd hv)
      (fun _ ↦ ⟨fun t ht ↦ absurd ht (Set.notMem_empty t),
        fun e rest hq ↦ absurd hq (List.cons_ne_nil _ _).symm⟩)
      (fun _ _ _ ↦ allowed_true) hs k
  have hstep : ∀ (g : ℕ) (v v' : Local), LocalStep P (fun _ ↦ True) g v v' →
      EarlyOnly v → EarlyOnly v' := fun _ _ _ hstep hv ↦ hstep.earlyOnly hd hv
  have hround := Inv.forall_localAt_increment_clock (Q := fun _ v ↦ EarlyOnly v) hstep
    hs.inv.queueGates (Inv.forall_localAt_queueGates (Q := fun _ v ↦ EarlyOnly v) hstep hs.inv
      hstart) e.gate
  have hmem : e ∈ (Braid.increment_clock P (Braid.queueGates P s)).ready_events :=
    perm_pending.mem_iff.mp (show e ∈ roundEvents P s from heq ▸ by simp)
  exact hround.1 e.type (List.mem_map.mpr ⟨e, hmem, rfl⟩)

theorem do_event_eq_none {M : Mesh} {seq : ℕ} (h : do_event M seq e = none) :
    (∃ n ∈ e.braid.nodes, conflict e seq (M.node n)) ∨
      ∃ l ∈ e.braid.links, conflict e seq (M.link l) := by
  rw [do_event_eq, ite_eq_right_iff] at h
  by_contra! hno
  refine absurd (h ?_) (Option.some_ne_none _)
  rw [Bool.and_eq_true, List.all_eq_true, List.all_eq_true]
  exact ⟨fun n hn ↦ by simpa using hno.1 n hn, fun l hl ↦ by simpa using hno.2 l hl⟩

/-- A gate holds nothing before the events that open its ancillas and its first route. -/
theorem held_eq_nil (R : Routing) (src dest : ℕ) (YX3 YX5 : Bool) {t : EventType}
    (hopen : t.opens) (hne : t ≠ .cnot5) : held R src dest YX3 YX5 (some t) = ⟨[], []⟩ := by
  cases t <;> first | rfl | exact absurd hopen (by decide) | exact absurd rfl hne

/-- Part of the braid of an event belongs to another gate. -/
def BlockedByOther (P : Setting) (M : Mesh) (e : Event) : Prop :=
  (∃ n ∈ e.braid.nodes, ∃ k < P.gates.length, k ≠ e.gate ∧ M.node n = P.seqAt k) ∨
    ∃ l ∈ e.braid.links, ∃ k < P.gates.length, k ≠ e.gate ∧ M.link l = P.seqAt k

/-- When an event fails that does not open a second route, part of its braid belongs to another
gate. -/
theorem Tries.blockedByOther_of_ne (P : MeshSetting) (h : Tries P.toSetting t e)
    (hne : e.type ≠ .cnot5) (hfail : do_event t.sim.mesh (P.seqAt e.gate) e = none) :
    BlockedByOther P.toSetting t.sim.mesh e := by
  obtain ⟨rest, hinv, hheld⟩ := h.tryInv P.numbered P.sameEnds
  have hcons := hinv.perm (List.perm_middle.map Event.key)
  have hg := hcons.gate_lt
  have hhold := hheld.holds e.gate hg
  rw [remaining_perm List.perm_middle hinv.evs_nodup, remaining_cons hcons.evs_nodup] at hhold
  obtain ⟨YX3, YX5, -, hbraid, hnode, hlink⟩ := hhold
  have hopen := (hbraid e List.mem_cons_self).2
  -- what stands in the way belongs to a gate, and not to this one
  have hother : ∀ owner, IsOwner P.toSetting owner → conflict e (P.seqAt e.gate) owner →
      (e.close_open → owner ≠ P.seqAt e.gate) →
      ∃ k < P.gates.length, k ≠ e.gate ∧ owner = P.seqAt k := by
    intro owner howner hconflict hopens
    rw [conflict, Bool.and_eq_true, Bool.or_eq_true, decide_eq_true_eq, decide_eq_true_eq]
      at hconflict
    obtain ⟨k, hk, rfl⟩ := howner.resolve_left hconflict.1
    have hne : P.seqAt k ≠ P.seqAt e.gate := hconflict.2.elim hopens id
    exact ⟨k, hk, fun heq ↦ hne (heq ▸ rfl), rfl⟩
  have hnone : e.close_open → (∀ n, t.sim.mesh.node n ≠ P.seqAt e.gate) ∧
      ∀ l, t.sim.mesh.link l ≠ P.seqAt e.gate := by
    intro hclose
    have hnil := held_eq_nil P.routing (P.argsAt e.gate).1 (P.argsAt e.gate).2 YX3 YX5
      (hopen ▸ hclose) hne
    rw [List.head?_cons, Option.map_some, hnil] at hnode hlink
    exact ⟨fun n hn ↦ List.not_mem_nil (hnode n hn), fun l hl ↦ List.not_mem_nil (hlink l hl)⟩
  rcases do_event_eq_none hfail with ⟨n, hn, hconflict⟩ | ⟨l, hl, hconflict⟩
  · exact .inl ⟨n, hn, hother _ (hheld.node n) hconflict fun hclose ↦ (hnone hclose).1 n⟩
  · exact .inr ⟨l, hl, hother _ (hheld.link l) hconflict fun hclose ↦ (hnone hclose).2 l⟩

/-- **A gate never waits for its own braid**: with the distance that is returned, whenever an event
fails, part of its braid belongs to another gate. -/
theorem Tries.blockedByOther (P : MeshSetting) {distance : ℕ}
    (hd : set_code_distance 0 distance = some P.code_distance) (h : Tries P.toSetting t e)
    (hfail : do_event t.sim.mesh (P.seqAt e.gate) e = none) :
    BlockedByOther P.toSetting t.sim.mesh e := by
  refine h.blockedByOther_of_ne P (fun htype ↦ ?_) hfail
  have hearly := h.early (set_code_distance_eq hd)
  rw [htype] at hearly
  cases hearly

/-- Two `CNOT`s whose routes cross. -/
def crossingCNOTs : MeshSetting where
  gates := [⟨1, .CNOT 0 8⟩, ⟨2, .CNOT 2 6⟩]
  routing := meshRouting 3
  code_distance := 0
  attempt_th_yx := 8
  attempt_th_drop := 20
  priority_policy := 0
  order := ⟨fun _ l ↦ l, fun _ _ ↦ .refl _⟩
  num_cols := 3
  routing_eq := rfl
  numbered := ⟨by simp, by simp⟩

/-- The third event of each of them, when it is ready. -/
def crossingEvents : Event × Event :=
  (⟨⟨[4, 8, 9, 10, 15, 1], [(1, 5), (0, 4), (4, 8), (8, 9), (9, 10), (10, 14), (11, 15)]⟩, true, 0,
    .cnot3, 0, 0⟩,
  ⟨⟨[6, 10, 9, 12, 3], [(3, 7), (2, 6), (6, 10), (9, 10), (9, 13), (8, 12)]⟩, true, 1, .cnot3, 0,
    0⟩)

/-- In the third round the second of them fails. -/
theorem blockedByOther_crossingCNOTs : ∃ t e, Tries crossingCNOTs.toSetting t e ∧
    do_event t.sim.mesh (crossingCNOTs.seqAt e.gate) e = none ∧
    BlockedByOther crossingCNOTs.toSetting t.sim.mesh e := by
  have hrun : ∀ n < 3, Running (run crossingCNOTs.toSetting n) := by
    have hqueue : ∀ n < 3, n = 0 ∨ (run crossingCNOTs.toSetting n).event_queues 0 ≠ [] := by
      decide +kernel
    have hready : (run crossingCNOTs.toSetting 0).ready_gates ≠ [] := by decide +kernel
    intro n hn
    rcases hqueue n hn with rfl | hne
    · exact .inr (.inr (.inr hready))
    · exact .inl ⟨0, hne⟩
  have hevents : roundEvents crossingCNOTs.toSetting (run crossingCNOTs.toSetting 2)
      = [crossingEvents.1] ++ [crossingEvents.2] := by decide +kernel
  have htries : Tries crossingCNOTs.toSetting (tryEvent crossingCNOTs.toSetting
      (trying crossingCNOTs.toSetting (run crossingCNOTs.toSetting 2)) crossingEvents.1)
      crossingEvents.2 :=
    ⟨_, reachable_run _ fun n hn ↦ hrun n (by omega), hrun 2 (by omega), _, [], hevents, rfl⟩
  have hnone : (do_event (tryEvent crossingCNOTs.toSetting
      (trying crossingCNOTs.toSetting (run crossingCNOTs.toSetting 2)) crossingEvents.1).sim.mesh
      (crossingCNOTs.seqAt 1) crossingEvents.2).isNone := by decide +kernel
  have hfail := Option.isNone_iff_eq_none.mp hnone
  exact ⟨_, _, htries, hfail, htries.blockedByOther crossingCNOTs
    (show set_code_distance 0 3 = some crossingCNOTs.code_distance from rfl) hfail⟩

end ScaffCC.Braid
