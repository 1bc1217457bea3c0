import ScaffCC.Braid.Dag

/-!
# Events on the mesh

A gate is simulated as a queue of events, each of which opens or closes a braid, some nodes and
links of the mesh. An open braid belongs to its gate. An event fails when it would open something
that is open, or close something that belongs to another gate. The first event of a queue starts
with a timer of one clock, the others get theirs when the event before them has succeeded.

Where the braids of a `CNOT` run is a parameter. The simulation does the same for every routing.
-/

namespace ScaffCC.Braid

/-- The nodes and links of the mesh that an event opens or closes. -/
structure Route where
  nodes : List ℕ
  links : List (ℕ × ℕ)
  deriving DecidableEq, Repr

/-- The types of event, in the order in which a gate has them. -/
inductive EventType
  | cnot1
  | cnot2
  | cnot3
  | cnot4
  | cnot5
  | cnot6
  | cnot7
  | h1
  | h2
  deriving DecidableEq, Repr

/-- An event of the gate at a position. -/
structure Event where
  braid : Route
  close_open : Bool
  gate : ℕ
  type : EventType
  timer : ℤ
  attempts : ℕ
  deriving DecidableEq, Repr

/-- Where the braids of two qubits run: the two ancillas and their link, and the two routes, with
either the row or the column first. Adjacent qubits have one pair of routes only. -/
structure Routing where
  cnot_ancillas : ℕ → ℕ → ℕ × ℕ
  anc_link : ℕ → ℕ → ℕ × ℕ
  cnot_routes : ℕ → ℕ → Bool → Route × Route
  are_adjacent : ℕ → ℕ → Bool

/-! ## Queues of events -/

def events_cnot (R : Routing) (src dest gate : ℕ) : List Event :=
  let (anc1, anc2) := R.cnot_ancillas src dest
  let cnot_anc_route : Route := ⟨[anc2, anc1], [R.anc_link src dest]⟩
  let (cnot_route_1, cnot_route_2) := R.cnot_routes src dest false
  let n_last := cnot_route_1.nodes.getLast?.toList
  let l_anc := cnot_route_2.links.getLast?.toList
  let with_anc : Route := ⟨cnot_route_1.nodes ++ [anc1], cnot_route_1.links⟩
  let with_last : Route := ⟨cnot_route_2.nodes ++ n_last, cnot_route_2.links⟩
  [⟨cnot_anc_route, true, gate, .cnot1, 1, 0⟩,
    ⟨cnot_anc_route, false, gate, .cnot2, -1, 0⟩,
    ⟨with_anc, true, gate, .cnot3, -1, 0⟩,
    ⟨with_anc, false, gate, .cnot4, -1, 0⟩,
    ⟨with_last, true, gate, .cnot5, -1, 0⟩,
    ⟨⟨with_last.nodes, cnot_route_2.links.dropLast⟩, false, gate, .cnot6, -1, 0⟩,
    ⟨⟨cnot_anc_route.nodes, l_anc⟩, false, gate, .cnot7, -1, 0⟩]

/-- The events of an `H`, which take nothing of the mesh. -/
def events_h (gate : ℕ) : List Event :=
  [⟨⟨[], []⟩, true, gate, .h1, 1, 0⟩, ⟨⟨[], []⟩, false, gate, .h2, -1, 0⟩]

/-- The events of the gate at a position. There are none for a `T`, as it is a local measurement. -/
def events (R : Routing) (op : Op) (gate : ℕ) : List Event :=
  match op with
  | .CNOT src dest => events_cnot R src dest gate
  | .H _ => events_h gate
  | _ => []

def Op.eventTypes : Op → List EventType
  | .CNOT _ _ => [.cnot1, .cnot2, .cnot3, .cnot4, .cnot5, .cnot6, .cnot7]
  | .H _ => [.h1, .h2]
  | _ => []

/-! ## Timers -/

/-- The code distance is computed, but the value that is returned is the one the variable had
before, which is zero. There is no result when the computed distance is too small. -/
def set_code_distance (code_distance distance : ℕ) : Option ℕ :=
  if distance < 1 then none else some code_distance

/-- The timers that events get when the event before them has succeeded. -/
def event_timers (code_distance : ℕ) : EventType → ℤ
  | .cnot5 | .cnot7 => code_distance - 1
  | .h2 => 8 + code_distance
  | _ => 1

/-! ## The mesh -/

/-- To which gate the nodes and the links belong, by its sequence number. What is closed belongs to
the gate zero. -/
structure Mesh where
  node : ℕ → ℕ
  link : ℕ × ℕ → ℕ

def Mesh.closed : Mesh := ⟨fun _ ↦ 0, fun _ ↦ 0⟩

/-- Whether an owner stands in the way of an event of a gate. -/
def conflict (e : Event) (seq owner : ℕ) : Bool := owner ≠ 0 && (e.close_open || owner ≠ seq)

/-- The braid of an event is opened or closed, unless there is a conflict. -/
def do_event (M : Mesh) (seq : ℕ) (e : Event) : Option Mesh :=
  if e.braid.nodes.any (fun n ↦ conflict e seq (M.node n)) ||
      e.braid.links.any (fun l ↦ conflict e seq (M.link l)) then none
  else
    let owner := if e.close_open then seq else 0
    some ⟨fun n ↦ if n ∈ e.braid.nodes then owner else M.node n,
      fun l ↦ if l ∈ e.braid.links then owner else M.link l⟩

/-- Whatever belongs to a gate is closed. -/
def purge_gate_from_mesh (M : Mesh) (seq : ℕ) : Mesh :=
  ⟨fun n ↦ if M.node n = seq then 0 else M.node n, fun l ↦ if M.link l = seq then 0 else M.link l⟩

/-- The other route for the opening event of a `CNOT`, and for the closing event that follows it. -/
def resolve_cnot (R : Routing) (op : Op) (e next : Event) : Event × Event :=
  match op with
  | .CNOT src dest =>
    -- adjacent qubits have one route only
    if R.are_adjacent src dest then (e, next)
    else
      let (anc1, _) := R.cnot_ancillas src dest
      let (cnot_route_1, cnot_route_2) := R.cnot_routes src dest true
      if e.type = .cnot3 then
        ({e with braid := cnot_route_1},
          {next with braid := ⟨cnot_route_1.nodes.dropLast ++ [anc1], cnot_route_1.links⟩})
      else
        let n_last := next.braid.nodes.getLast?.toList
        ({e with braid := ⟨cnot_route_2.nodes.dropLast, cnot_route_2.links⟩},
          {next with braid :=
            ⟨cnot_route_2.nodes.dropLast ++ n_last, cnot_route_2.links.dropLast⟩})
  | _ => (e, next)

/-! ## What the queues look like -/

variable {R : Routing} {op : Op} {gate : ℕ}

theorem map_type_events : (events R op gate).map Event.type = op.eventTypes := by
  cases op <;> rfl

theorem gate_of_mem_events {e : Event} (h : e ∈ events R op gate) : e.gate = gate := by
  cases op <;> simp only [events, events_cnot, events_h, List.not_mem_nil, List.mem_cons,
    or_false] at h
  · rcases h with rfl | rfl | rfl | rfl | rfl | rfl | rfl <;> rfl
  · rcases h with rfl | rfl <;> rfl

theorem timer_events {e : Event} {rest : List Event} (h : events R op gate = e :: rest) :
    e.timer = 1 ∧ ∀ e' ∈ rest, e'.timer = -1 := by
  cases op <;> simp only [events, events_cnot, events_h, List.cons.injEq, reduceCtorEq] at h
  · obtain ⟨rfl, rfl⟩ := h
    simp
  · obtain ⟨rfl, rfl⟩ := h
    simp

theorem nodup_eventTypes : op.eventTypes.Nodup := by
  cases op <;> dsimp only [Op.eventTypes] <;> decide

theorem resolve_cnot_fst {e next : Event} :
    (resolve_cnot R op e next).1.type = e.type ∧ (resolve_cnot R op e next).1.gate = e.gate ∧
      (resolve_cnot R op e next).1.attempts = e.attempts := by
  cases op with
  | CNOT src dest =>
    simp only [resolve_cnot]
    split_ifs <;> simp
  | _ => exact ⟨rfl, rfl, rfl⟩

theorem resolve_cnot_snd {e next : Event} :
    (resolve_cnot R op e next).2.type = next.type ∧ (resolve_cnot R op e next).2.gate = next.gate ∧
      (resolve_cnot R op e next).2.timer = next.timer := by
  cases op with
  | CNOT src dest =>
    simp only [resolve_cnot]
    split_ifs <;> simp
  | _ => exact ⟨rfl, rfl, rfl⟩

end ScaffCC.Braid
