import ScaffCC.Braid.Event

/-!
# The simulation loop

In one round of the loop the events of every ready gate are queued, the clock is incremented, and
the ready events are tried one after the other. An event that succeeds sets the timer of the next
one, or completes its gate if there is none, which takes the edges to its successors out of the
graph; a successor with no other edge becomes ready. An event that fails stays. If it has failed too
often, another route is tried, or the gate is dropped and starts all over.

The ready events are sorted by a comparison that may not even be an order, so any rearrangement is
possible. The log says what happened; it is not part of the simulation.
-/

namespace ScaffCC.Braid

/-- What happens to the gate at a position: its events are queued, one of them is tried, with or
without success, the gate is dropped, or completed. -/
inductive Entry
  | queued (gate : ℕ)
  | tried (gate : ℕ) (type : EventType) (success : Bool)
  | dropped (gate : ℕ)
  | completed (gate : ℕ)
  deriving DecidableEq, Repr

def Entry.gate : Entry → ℕ
  | .queued g | .tried g _ _ | .dropped g | .completed g => g

/-- The order in which the ready events are tried at a time of the clock. -/
structure EventSort where
  sort : ℕ → List Event → List Event
  perm : ∀ clk l, (sort clk l).Perm l

/-- What does not change during a simulation: the gates, the routing, the code distance, the
thresholds and the policy. -/
structure Setting where
  gates : List Gate
  routing : Routing
  code_distance : ℕ
  attempt_th_yx : ℕ
  attempt_th_drop : ℕ
  priority_policy : ℕ
  order : EventSort

/-- The state of the simulation. The log has the latest entry first. -/
structure Sim where
  clk : ℕ
  edge : ℕ → ℕ → Bool
  mesh : Mesh
  ready_gates : List ℕ
  event_queues : ℕ → List Event
  ready_events : List Event
  log : List Entry

variable (P : Setting)

/-- The operation of the gate at a position. There is none beyond the last gate. -/
def Setting.opAt (g : ℕ) : Option Op := P.gates[g]?.map Gate.op

/-- The sequence number of the gate at a position. -/
def Setting.seqAt (g : ℕ) : ℕ := (P.gates[g]?.map Gate.seq).getD 0

/-- The number of edges that go to a gate. -/
def in_degree (edge : ℕ → ℕ → Bool) (g : ℕ) : ℕ :=
  (List.range P.gates.length).countP fun i ↦ edge i g

/-- The gates that a gate has edges to. -/
def adjacent_vertices (edge : ℕ → ℕ → Bool) (g : ℕ) : List ℕ :=
  (List.range P.gates.length).filter fun j ↦ edge g j

/-- The edges without those that start at a gate. -/
def clear_out_edges (edge : ℕ → ℕ → Bool) (g : ℕ) : ℕ → ℕ → Bool :=
  fun i j ↦ edge i j && i != g

/-! ## Queueing -/

def queueGate (s : Sim) (g : ℕ) : Sim :=
  {s with
    event_queues := Function.update s.event_queues g
      (((P.opAt g).map fun op ↦ events P.routing op g).getD [])
    log := .queued g :: s.log}

def queueGates (s : Sim) : Sim :=
  s.ready_gates.foldl (queueGate P) {s with ready_gates := []}

/-! ## The clock -/

/-- The timer of the first event of a queue counts down, unless the event before it has not
succeeded yet. When it is zero the event becomes ready. -/
def tickQueue (s : Sim) (g : ℕ) : Sim :=
  match s.event_queues g with
  | [] => s
  | e :: rest =>
    if e.timer < 0 then s
    else
      let timer := if e.timer ≠ 0 then e.timer - 1 else e.timer
      let e := {e with timer := timer}
      if timer = 0 then
        {s with
          ready_events := s.ready_events ++ [e]
          event_queues := Function.update s.event_queues g rest}
      else {s with event_queues := Function.update s.event_queues g (e :: rest)}

def increment_clock (s : Sim) : Sim :=
  (List.range P.gates.length).foldl tickQueue {s with clk := s.clk + 1}

/-! ## Trying events -/

/-- The state while the ready events are tried: those that stay are collected, and there is at most
one change of route and one drop. -/
structure Trying where
  sim : Sim
  YX_flag : Bool
  drop_flag : Bool

/-- A gate is completed: its edges are taken out, and the gates that only waited for it are
ready. -/
def complete (s : Sim) (g : ℕ) : Sim :=
  {s with
    ready_gates := s.ready_gates ++
      (adjacent_vertices P s.edge g).filter fun g_out ↦ in_degree P s.edge g_out = 1
    edge := clear_out_edges s.edge g
    log := .completed g :: s.log}

/-- What follows the success of an event: the next one gets its timer, or the gate is completed. -/
def succeed (s : Sim) (e : Event) : Sim :=
  match s.event_queues e.gate with
  | [] => complete P s e.gate
  | next :: rest =>
    let next := {next with timer := event_timers P.code_distance next.type}
    {s with event_queues := Function.update s.event_queues e.gate (next :: rest)}

/-- The route of an opening event, and of the closing event after it, is changed. -/
def reroute (s : Sim) (e : Event) : Sim × Event :=
  match P.opAt e.gate, s.event_queues e.gate with
  | some op, next :: rest =>
    let (e', next') := resolve_cnot P.routing op e next
    ({s with event_queues := Function.update s.event_queues e.gate (next' :: rest)}, e')
  | _, _ => (s, e)

/-- A gate is dropped: what it opened is closed, and its events are queued again later. -/
def drop (s : Sim) (g : ℕ) : Sim :=
  {s with
    mesh := purge_gate_from_mesh s.mesh (P.seqAt g)
    ready_gates := s.ready_gates ++ [g]
    event_queues := Function.update s.event_queues g []
    log := .dropped g :: s.log}

/-- What follows the failure of an event. -/
def fail (t : Trying) (e : Event) : Trying :=
  let e := {e with attempts := e.attempts + 1}
  let change := P.attempt_th_yx < e.attempts && !t.YX_flag && (e.type = .cnot3 || e.type = .cnot5)
  let (s, e) := if change then reroute P t.sim e else (t.sim, e)
  let YX_flag := t.YX_flag || change
  if P.attempt_th_drop < e.attempts && !t.drop_flag then
    ⟨drop P s e.gate, YX_flag, true⟩
  else ⟨{s with ready_events := s.ready_events ++ [e]}, YX_flag, t.drop_flag⟩

/-- What may become of the state and of an event when another route is looked for: only the braids
of the event and of the next one change. -/
inductive Rerouted (s : Sim) (e : Event) : Sim × Event → Prop
  | same : Rerouted s e (s, e)
  | other {next next' e' : Event} {rest : List Event}
      (queue : s.event_queues e.gate = next :: rest)
      (event : e'.type = e.type ∧ e'.gate = e.gate)
      (head : next'.type = next.type ∧ next'.gate = next.gate ∧ next'.timer = next.timer) :
      Rerouted s e
        ({s with event_queues := Function.update s.event_queues e.gate (next' :: rest)}, e')

theorem rerouted_reroute {s : Sim} {e : Event} : Rerouted s e (reroute P s e) := by
  rw [reroute]
  split
  · next op next rest _ hq =>
    obtain ⟨htype, hgate, -⟩ :
        (resolve_cnot P.routing op e next).1.type = e.type ∧
          (resolve_cnot P.routing op e next).1.gate = e.gate ∧
          (resolve_cnot P.routing op e next).1.attempts = e.attempts := resolve_cnot_fst
    exact .other hq ⟨htype, hgate⟩ resolve_cnot_snd
  · exact .same

/-- An event that fails gets another route or not, and then its gate is dropped or it stays. -/
theorem fail_cases (t : Trying) (e : Event) : ∃ x YX_flag,
    Rerouted t.sim {e with attempts := e.attempts + 1} x ∧
      (fail P t e = ⟨drop P x.1 x.2.gate, YX_flag, true⟩ ∨
        fail P t e = ⟨{x.1 with ready_events := x.1.ready_events ++ [x.2]}, YX_flag,
          t.drop_flag⟩) := by
  have hpair : ∀ change : Bool, Rerouted t.sim {e with attempts := e.attempts + 1}
      (if change then reroute P t.sim {e with attempts := e.attempts + 1}
        else (t.sim, {e with attempts := e.attempts + 1})) := by
    intro change
    cases change with
    | true => exact rerouted_reroute P
    | false => exact .same
  obtain ⟨change, hchange⟩ : ∃ change, change = (P.attempt_th_yx < e.attempts + 1 && !t.YX_flag &&
    (e.type = .cnot3 || e.type = .cnot5)) := ⟨_, rfl⟩
  refine ⟨_, t.YX_flag || change, hpair change, ?_⟩
  subst hchange
  exact ite_eq_or_eq _ _ _

/-- A ready event is tried. -/
def tryEvent (t : Trying) (e : Event) : Trying :=
  match do_event t.sim.mesh (P.seqAt e.gate) e with
  | some mesh =>
    let s := {t.sim with mesh := mesh, log := .tried e.gate e.type true :: t.sim.log}
    {t with sim := succeed P s e}
  | none =>
    let s := {t.sim with log := .tried e.gate e.type false :: t.sim.log}
    fail P {t with sim := s} e

/-- The ready events are tried one after the other. -/
def tryEvents (s : Sim) : Sim :=
  let pending := if P.priority_policy ≠ 0 then P.order.sort s.clk s.ready_events else s.ready_events
  (pending.foldl (tryEvent P) ⟨{s with ready_events := []}, false, false⟩).sim

/-! ## Runs -/

def round (s : Sim) : Sim := tryEvents P (increment_clock P (queueGates P s))

/-- The start: the gates without edges to them are ready. -/
def start : Sim where
  clk := 0
  edge := dagEdge P.gates
  mesh := .closed
  ready_gates := (List.range P.gates.length).filter fun g ↦ in_degree P (dagEdge P.gates) g = 0
  event_queues _ := []
  ready_events := []
  log := []

/-- Whether the loop goes on. -/
def Running (s : Sim) : Prop :=
  (∃ g, s.event_queues g ≠ []) ∨ s.ready_events ≠ [] ∨ (∃ i j, s.edge i j) ∨ s.ready_gates ≠ []

/-- The states in which a round of the loop starts, or the loop ends. -/
inductive Reachable : Sim → Prop
  | start : Reachable (start P)
  | round {s : Sim} : Reachable s → Running s → Reachable (round P s)

/-- The state after a number of rounds. -/
def run : ℕ → Sim
  | 0 => start P
  | n + 1 => round P (run n)

theorem reachable_run : ∀ {n : ℕ}, (∀ k < n, Running (run P k)) → Reachable P (run P n)
  | 0, _ => .start
  | n + 1, h => .round (reachable_run fun k hk ↦ h k (hk.trans n.lt_succ_self)) (h n n.lt_succ_self)

end ScaffCC.Braid
