import ScaffCC.Braid.Order
import ScaffCC.Braid.Route

/-!
# What a gate holds of the mesh

The events of a `CNOT` open and close braids that overlap, and the third and the fifth event may get
another route, together with the event after each of them. Which of the two routes they have, and
which event comes next, bounds what the gate holds of the mesh: nothing before the first and the
third event, the braid that was opened last before the second, fourth and sixth, the end of the
other route before the fifth if the third event had that route, and a link before the last event.

This is kept by every step of the simulation. The events of other gates only ever take something
away from the gate.
-/

namespace ScaffCC.Braid

/-! ## The braids of a `CNOT` -/

/-- The qubits of a `CNOT`. -/
def Op.args : Op → ℕ × ℕ
  | .CNOT src dest => (src, dest)
  | _ => (0, 0)

def EventType.next : EventType → Option EventType
  | .cnot1 => some .cnot2
  | .cnot2 => some .cnot3
  | .cnot3 => some .cnot4
  | .cnot4 => some .cnot5
  | .cnot5 => some .cnot6
  | .cnot6 => some .cnot7
  | .h1 => some .h2
  | .cnot7 | .h2 => none

def EventType.opens : EventType → Bool
  | .cnot1 | .cnot3 | .cnot5 | .h1 => true
  | _ => false

section Braids

variable (R : Routing) (src dest : ℕ) (YX3 YX5 : Bool)

/-- The ancillas and their link. -/
def ancRoute : Route :=
  ⟨[(R.cnot_ancillas src dest).2, (R.cnot_ancillas src dest).1], [R.anc_link src dest]⟩

/-- The first route, which ends with the first ancilla. -/
def route1 : Route :=
  ⟨(R.cnot_routes src dest false).1.nodes ++ [(R.cnot_ancillas src dest).1],
    (R.cnot_routes src dest false).1.links⟩

def lastNode : List ℕ := (R.cnot_routes src dest false).1.nodes.getLast?.toList

/-- The braid of each event, if the third and the fifth have the other route or not. -/
def braidOf : EventType → Route
  | .cnot1 | .cnot2 => ancRoute R src dest
  | .cnot3 => if YX3 then (R.cnot_routes src dest true).1 else route1 R src dest
  | .cnot4 =>
    if YX3 then
      ⟨(R.cnot_routes src dest true).1.nodes.dropLast ++ [(R.cnot_ancillas src dest).1],
        (R.cnot_routes src dest true).1.links⟩
    else route1 R src dest
  | .cnot5 =>
    if YX5 then
      ⟨(R.cnot_routes src dest true).2.nodes.dropLast, (R.cnot_routes src dest true).2.links⟩
    else ⟨(R.cnot_routes src dest false).2.nodes ++ lastNode R src dest,
      (R.cnot_routes src dest false).2.links⟩
  | .cnot6 =>
    if YX5 then
      ⟨(R.cnot_routes src dest true).2.nodes.dropLast ++ lastNode R src dest,
        (R.cnot_routes src dest true).2.links.dropLast⟩
    else ⟨(R.cnot_routes src dest false).2.nodes ++ lastNode R src dest,
      (R.cnot_routes src dest false).2.links.dropLast⟩
  | .cnot7 =>
    ⟨(ancRoute R src dest).nodes, (R.cnot_routes src dest false).2.links.getLast?.toList⟩
  | .h1 | .h2 => ⟨[], []⟩

/-- What the gate may hold before each event, and at the end. -/
def held : Option EventType → Route
  | some .cnot2 => ancRoute R src dest
  | some .cnot4 => braidOf R src dest YX3 YX5 .cnot3
  | some .cnot5 => ⟨if YX3 then lastNode R src dest else [], []⟩
  | some .cnot6 =>
    ⟨lastNode R src dest ++ (braidOf R src dest YX3 YX5 .cnot5).nodes,
      (braidOf R src dest YX3 YX5 .cnot5).links⟩
  | some .cnot7 => ⟨[], (R.cnot_routes src dest false).2.links.getLast?.toList⟩
  | _ => ⟨[], []⟩

end Braids

variable {R : Routing} {src dest : ℕ} {YX3 YX5 : Bool} {t : EventType}

theorem braid_of_mem_events_cnot {gate : ℕ} {e : Event} (h : e ∈ events_cnot R src dest gate) :
    e.braid = braidOf R src dest false false e.type ∧ e.close_open = e.type.opens := by
  simp only [events_cnot, List.mem_cons, List.not_mem_nil, or_false] at h
  rcases h with rfl | rfl | rfl | rfl | rfl | rfl | rfl <;> exact ⟨rfl, rfl⟩

theorem mem_getLast_of_not_mem_dropLast {α : Type*} {a : α} {l : List α} (h : a ∈ l)
    (hdrop : a ∉ l.dropLast) : a ∈ l.getLast?.toList := by
  have hne : l ≠ [] := List.ne_nil_of_mem h
  rw [← List.dropLast_append_getLast hne, List.mem_append] at h
  rw [List.getLast?_eq_some_getLast hne]
  exact h.resolve_left hdrop

theorem mem_held_next_of_opens (R : Routing) (src dest : ℕ) (YX3 YX5 : Bool) (ht : t.opens) :
    (∀ n, n ∈ (braidOf R src dest YX3 YX5 t).nodes ∨
        n ∈ (held R src dest YX3 YX5 (some t)).nodes →
      n ∈ (held R src dest YX3 YX5 t.next).nodes) ∧
    ∀ l, l ∈ (braidOf R src dest YX3 YX5 t).links ∨
        l ∈ (held R src dest YX3 YX5 (some t)).links →
      l ∈ (held R src dest YX3 YX5 t.next).links := by
  cases t <;> cases ht
  case cnot5 =>
    refine ⟨fun n hn ↦ ?_, fun l hl ↦ hl.resolve_right List.not_mem_nil⟩
    refine List.mem_append.mpr (hn.symm.imp_left fun hn ↦ ?_)
    rw [held] at hn
    split_ifs at hn
    · exact hn
    · cases hn
  all_goals
    exact ⟨fun n hn ↦ hn.resolve_right List.not_mem_nil,
      fun l hl ↦ hl.resolve_right List.not_mem_nil⟩

theorem mem_held_next_of_closes (hends : SameEnds R)
    (hadj : R.are_adjacent src dest → YX3 = false ∧ YX5 = false) (ht : t.opens = false) :
    (∀ n, n ∈ (held R src dest YX3 YX5 (some t)).nodes →
        n ∉ (braidOf R src dest YX3 YX5 t).nodes →
      n ∈ (held R src dest YX3 YX5 t.next).nodes) ∧
    ∀ l, l ∈ (held R src dest YX3 YX5 (some t)).links →
        l ∉ (braidOf R src dest YX3 YX5 t).links →
      l ∈ (held R src dest YX3 YX5 t.next).links := by
  -- another route is taken between qubits that are not adjacent only
  have hnadj : YX3 ∨ YX5 → R.are_adjacent src dest = false := fun h ↦ by
    by_contra hne
    obtain ⟨h3, h5⟩ := hadj (Bool.eq_true_of_not_eq_false hne)
    rw [h3, h5] at h
    simp at h
  cases t <;> cases ht
  case cnot2 => exact ⟨fun n hn hnot ↦ absurd hn hnot, fun l hl hnot ↦ absurd hl hnot⟩
  case cnot4 =>
    cases YX3 with
    | false => exact ⟨fun n hn hnot ↦ absurd hn hnot, fun l hl hnot ↦ absurd hl hnot⟩
    | true =>
      refine ⟨fun n hn hnot ↦ ?_, fun l hl hnot ↦ absurd hl hnot⟩
      have hlast : n ∈ (R.cnot_routes src dest true).1.nodes.getLast?.toList :=
        mem_getLast_of_not_mem_dropLast hn fun hdrop ↦ hnot (List.mem_append_left _ hdrop)
      rw [hends.node src dest (hnadj (.inl rfl))] at hlast
      exact hlast
  case cnot6 =>
    cases YX5 with
    | false =>
      refine ⟨fun n hn hnot ↦ ?_, fun l hl hnot ↦ mem_getLast_of_not_mem_dropLast hl hnot⟩
      rcases List.mem_append.mp hn with hn | hn
      · exact absurd (List.mem_append_right _ hn) hnot
      · exact absurd hn hnot
    | true =>
      refine ⟨fun n hn hnot ↦ ?_, fun l hl hnot ↦ ?_⟩
      · rcases List.mem_append.mp hn with hn | hn
        · exact absurd (List.mem_append_right _ hn) hnot
        · exact absurd (List.mem_append_left _ hn) hnot
      · have hlast : l ∈ (R.cnot_routes src dest true).2.links.getLast?.toList :=
          mem_getLast_of_not_mem_dropLast hl hnot
        rw [hends.link src dest (hnadj (.inr rfl))] at hlast
        exact hlast
  case cnot7 =>
    exact ⟨fun n hn _ ↦ absurd hn List.not_mem_nil, fun l hl hnot ↦ absurd hl hnot⟩
  case h2 =>
    exact ⟨fun n hn _ ↦ absurd hn List.not_mem_nil, fun l hl _ ↦ absurd hl List.not_mem_nil⟩

/-! ## The events of one gate that are left -/

variable {P : Setting} {M M' : Mesh} {g k seq : ℕ} {e next : Event} {rem rem' rest : List Event}

/-- The qubits of the gate at a position. -/
def Setting.argsAt (P : Setting) (g : ℕ) : ℕ × ℕ := ((P.opAt g).map Op.args).getD (0, 0)

/-- Whatever belongs to a gate is part of a braid. -/
def OwnsOnly (M : Mesh) (seq : ℕ) (r : Route) : Prop :=
  (∀ n, M.node n = seq → n ∈ r.nodes) ∧ ∀ l, M.link l = seq → l ∈ r.links

/-- An event has the braid of its type, and opens or closes it like its type. -/
def HasBraid (P : Setting) (g : ℕ) (YX3 YX5 : Bool) (e : Event) : Prop :=
  e.braid = braidOf P.routing (P.argsAt g).1 (P.argsAt g).2 YX3 YX5 e.type ∧
    e.close_open = e.type.opens

/-- The events of a gate that are left have their braids, and the gate holds no more of the mesh
than it may before the next of them. -/
def Holds (P : Setting) (M : Mesh) (g : ℕ) (rem : List Event) : Prop :=
  ∃ YX3 YX5, (P.routing.are_adjacent (P.argsAt g).1 (P.argsAt g).2 → YX3 = false ∧ YX5 = false) ∧
    (∀ e ∈ rem, HasBraid P g YX3 YX5 e) ∧
    OwnsOnly M (P.seqAt g)
      (held P.routing (P.argsAt g).1 (P.argsAt g).2 YX3 YX5 (rem.head?.map Event.type))

/-- Nothing more belongs to a gate than before. -/
def OwnsLess (seq : ℕ) (M M' : Mesh) : Prop :=
  (∀ n, M'.node n = seq → M.node n = seq) ∧ ∀ l, M'.link l = seq → M.link l = seq

theorem Holds.ownsLess (h : Holds P M g rem) (hless : OwnsLess (P.seqAt g) M M') :
    Holds P M' g rem := by
  obtain ⟨YX3, YX5, hadj, hbraid, hnode, hlink⟩ := h
  exact ⟨YX3, YX5, hadj, hbraid, fun n hn ↦ hnode n (hless.1 n hn),
    fun l hl ↦ hlink l (hless.2 l hl)⟩

/-- What an event does to the mesh. -/
def Event.shape (e : Event) : EventType × Bool × Route := (e.type, e.close_open, e.braid)

/-- Only the types and braids of the events matter. -/
theorem Holds.congr (h : Holds P M g rem) (hmap : rem'.map Event.shape = rem.map Event.shape) :
    Holds P M g rem' := by
  obtain ⟨YX3, YX5, hadj, hbraid, howns⟩ := h
  refine ⟨YX3, YX5, hadj, fun e he ↦ ?_, ?_⟩
  · have hmem := List.mem_map_of_mem (f := Event.shape) he
    rw [hmap, List.mem_map] at hmem
    obtain ⟨e', he', heq⟩ := hmem
    obtain ⟨htype, hclose, hbr⟩ : e'.type = e.type ∧ e'.close_open = e.close_open ∧
        e'.braid = e.braid := by simpa [Event.shape] using heq
    have he'' := hbraid e' he'
    rwa [HasBraid, htype, hclose, hbr] at he''
  · have hhead : rem'.head?.map Event.type = rem.head?.map Event.type := by
      have hfst := congrArg (fun l ↦ l.head?.map Prod.fst) hmap
      simp only [List.head?_map, Option.map_map] at hfst
      exact hfst
    rwa [hhead]

theorem head_type_of_suffix {l : List EventType} (h : t :: l <:+ P.typesAt g) :
    l.head? = t.next := by
  rw [Setting.typesAt] at h
  cases hop : P.opAt g with
  | none =>
    rw [hop] at h
    cases List.suffix_nil.mp h
  | some op =>
    rw [hop, Option.map_some, Option.getD_some] at h
    cases op with
    | CNOT src dest =>
      simp only [Op.eventTypes, List.suffix_cons_iff, List.cons.injEq, List.suffix_nil,
        List.cons_ne_nil, or_false] at h
      rcases h with h | h | h | h | h | h | h <;> obtain ⟨rfl, rfl⟩ := h <;> rfl
    | H q =>
      simp only [Op.eventTypes, List.suffix_cons_iff, List.cons.injEq, List.suffix_nil,
        List.cons_ne_nil, or_false] at h
      rcases h with h | h <;> obtain ⟨rfl, rfl⟩ := h <;> rfl
    | _ => cases List.suffix_nil.mp h

/-- **An event of the gate succeeds.** -/
theorem Holds.succeed (h : Holds P M g (e :: rem)) (hends : SameEnds P.routing)
    (htypes : (e :: rem).map Event.type <:+ P.typesAt g) (hseq : P.seqAt g ≠ 0)
    (hdo : do_event M (P.seqAt g) e = some M') : Holds P M' g rem := by
  obtain ⟨YX3, YX5, hadj, hbraid, hnode, hlink⟩ := h
  obtain ⟨⟨hbr, hopen⟩, hrem⟩ := List.forall_mem_cons.mp hbraid
  have hset := (do_event_eq_some hdo).2.2
  have hnext : rem.head?.map Event.type = e.type.next := by
    rw [List.map_cons] at htypes
    rw [← head_type_of_suffix htypes, List.head?_map]
  refine ⟨YX3, YX5, hadj, hrem, ?_⟩
  rw [hnext]
  simp only [List.head?_cons, Option.map_some] at hnode hlink
  cases ht : e.type.opens with
  | true =>
    obtain ⟨hn, hl⟩ := mem_held_next_of_opens P.routing (P.argsAt g).1 (P.argsAt g).2 YX3 YX5 ht
    rw [← hbr] at hn hl
    refine ⟨fun n hown ↦ hn n ?_, fun l hown ↦ hl l ?_⟩
    · by_cases hmem : n ∈ e.braid.nodes
      · exact .inl hmem
      · rw [hset.node, if_neg hmem] at hown
        exact .inr (hnode n hown)
    · by_cases hmem : l ∈ e.braid.links
      · exact .inl hmem
      · rw [hset.link, if_neg hmem] at hown
        exact .inr (hlink l hown)
  | false =>
    obtain ⟨hn, hl⟩ := mem_held_next_of_closes hends hadj ht
    rw [← hbr] at hn hl
    rw [hopen, ht, if_neg (by decide)] at hset
    refine ⟨fun n hown ↦ ?_, fun l hown ↦ ?_⟩
    · rw [hset.node] at hown
      split_ifs at hown with hmem
      · exact absurd hown.symm hseq
      · exact hn n (hnode n hown) hmem
    · rw [hset.link] at hown
      split_ifs at hown with hmem
      · exact absurd hown.symm hseq
      · exact hl l (hlink l hown) hmem

/-- The sixth event has the last node of the first route at its end. -/
theorem getLast_braidOf_cnot6 (hends : SameEnds R) :
    (braidOf R src dest YX3 YX5 .cnot6).nodes.getLast?.toList = lastNode R src dest := by
  obtain ⟨n, hn⟩ : ∃ n, (R.cnot_routes src dest false).1.nodes.getLast? = some n :=
    ⟨_, List.getLast?_eq_some_getLast (hends.ne_nil src dest)⟩
  have hlast : lastNode R src dest = [n] := by rw [lastNode, hn]; rfl
  cases YX5 <;> simp [braidOf, hlast]

/-- The other version of one route changes only the braids of two events. -/
theorem braidOf_congr (YX3' YX5' : Bool)
    (h3 : YX3 = YX3' ∨ t ≠ .cnot3 ∧ t ≠ .cnot4) (h5 : YX5 = YX5' ∨ t ≠ .cnot5 ∧ t ≠ .cnot6) :
    braidOf R src dest YX3 YX5 t = braidOf R src dest YX3' YX5' t := by
  cases t <;> simp_all [braidOf]

theorem types_of_suffix {t' : EventType} {l : List EventType}
    (h : t :: t' :: l <:+ P.typesAt g) : t.next = some t' ∧ ∀ x ∈ l, x ≠ t ∧ x ≠ t' := by
  have hnodup := nodup_typesAt.sublist h.sublist
  rw [List.nodup_cons, List.nodup_cons] at hnodup
  refine ⟨(head_type_of_suffix h).symm, fun x hx ↦ ⟨?_, ?_⟩⟩
  · rintro rfl
    exact hnodup.1 (List.mem_cons_of_mem _ hx)
  · rintro rfl
    exact hnodup.2.1 hx

/-- **The route of an event of the gate is changed.** -/
theorem Holds.resolve {op : Op} (h : Holds P M g (e :: next :: rest))
    (hends : SameEnds P.routing) (hop : P.opAt g = some op)
    (htypes : (e :: next :: rest).map Event.type <:+ P.typesAt g)
    (htype : e.type = .cnot3 ∨ e.type = .cnot5) :
    Holds P M g ((resolve_cnot P.routing op e next).1 ::
      (resolve_cnot P.routing op e next).2 :: rest) := by
  cases op with
  | CNOT src dest =>
    have hargs : P.argsAt g = (src, dest) := by rw [Setting.argsAt, hop]; rfl
    obtain ⟨hnext, hother⟩ := types_of_suffix htypes
    have hother : ∀ e' ∈ rest, e'.type ≠ e.type ∧ e'.type ≠ next.type :=
      fun e' he' ↦ hother _ (List.mem_map_of_mem he')
    -- adjacent qubits keep their route
    by_cases hadj : P.routing.are_adjacent src dest
    · rw [resolve_cnot, if_pos hadj]
      exact h
    · obtain ⟨YX3, YX5, -, hbraid, howns⟩ := h
      obtain ⟨⟨hbr, hopen⟩, hrest⟩ := List.forall_mem_cons.mp hbraid
      obtain ⟨⟨hbr', hopen'⟩, hrest⟩ := List.forall_mem_cons.mp hrest
      rw [resolve_cnot, if_neg hadj]
      -- the first half of the CNOT is routed again, or the second
      rcases htype with htype | htype
      · have hnext : next.type = .cnot4 := by
          rw [htype] at hnext
          exact (Option.some.inj hnext).symm
        refine ⟨true, YX5, fun hadj' ↦ absurd (by rwa [hargs] at hadj') hadj, ?_, ?_⟩
        · simp only [htype, if_true, List.forall_mem_cons, HasBraid, hargs, hnext]
          refine ⟨⟨rfl, by rwa [htype] at hopen⟩, ⟨rfl, by rwa [hnext] at hopen'⟩,
            fun e' he' ↦ ?_⟩
          obtain ⟨hne, hne'⟩ := hother e' he'
          obtain ⟨hbr'', hopen''⟩ := hrest e' he'
          rw [htype] at hne
          rw [hnext] at hne'
          rw [hargs] at hbr''
          exact ⟨hbr''.trans (braidOf_congr true YX5 (.inr ⟨hne, hne'⟩) (.inl rfl)), hopen''⟩
        · simp only [htype, if_true, List.head?_cons, Option.map_some] at howns ⊢
          exact howns
      · have hnext : next.type = .cnot6 := by
          rw [htype] at hnext
          exact (Option.some.inj hnext).symm
        refine ⟨YX3, true, fun hadj' ↦ absurd (by rwa [hargs] at hadj') hadj, ?_, ?_⟩
        · rw [hargs, hnext] at hbr'
          simp only [htype, reduceCtorEq, if_false, List.forall_mem_cons, HasBraid, hargs, hnext,
            hbr', getLast_braidOf_cnot6 hends]
          refine ⟨⟨rfl, by rwa [htype] at hopen⟩, ⟨rfl, by rwa [hnext] at hopen'⟩,
            fun e' he' ↦ ?_⟩
          obtain ⟨hne, hne'⟩ := hother e' he'
          obtain ⟨hbr'', hopen''⟩ := hrest e' he'
          rw [htype] at hne
          rw [hnext] at hne'
          rw [hargs] at hbr''
          exact ⟨hbr''.trans (braidOf_congr YX3 true (.inl rfl) (.inr ⟨hne, hne'⟩)), hopen''⟩
        · simp only [htype, reduceCtorEq, if_false, List.head?_cons, Option.map_some] at howns ⊢
          exact howns
  | _ => exact h

/-! ## Other gates -/

theorem ownsLess_do_event (hne : seq ≠ k) (hseq : seq ≠ 0) (hdo : do_event M k e = some M') :
    OwnsLess seq M M' := by
  have hset := (do_event_eq_some hdo).2.2
  have howner : (if e.close_open then k else 0) ≠ seq := by
    split_ifs
    · exact hne.symm
    · exact hseq.symm
  refine ⟨fun n hn ↦ ?_, fun l hl ↦ ?_⟩
  · by_cases hmem : n ∈ e.braid.nodes
    · rw [hset.node, if_pos hmem] at hn
      exact absurd hn howner
    · rwa [hset.node, if_neg hmem] at hn
  · by_cases hmem : l ∈ e.braid.links
    · rw [hset.link, if_pos hmem] at hl
      exact absurd hl howner
    · rwa [hset.link, if_neg hmem] at hl

theorem ownsLess_purge (hseq : seq ≠ 0) : OwnsLess seq M (purge_gate_from_mesh M k) := by
  refine ⟨fun n hn ↦ ?_, fun l hl ↦ ?_⟩
  · simp only [purge_gate_from_mesh] at hn
    split_ifs at hn
    · exact absurd hn.symm hseq
    · exact hn
  · simp only [purge_gate_from_mesh] at hl
    split_ifs at hl
    · exact absurd hl.symm hseq
    · exact hl

theorem holds_purge (hseq : P.seqAt g ≠ 0) :
    Holds P (purge_gate_from_mesh M (P.seqAt g)) g [] := by
  refine ⟨false, false, fun _ ↦ ⟨rfl, rfl⟩, fun e he ↦ absurd he List.not_mem_nil,
    fun n hn ↦ ?_, fun l hl ↦ ?_⟩
  · simp only [purge_gate_from_mesh] at hn
    split_ifs at hn with h
    · exact absurd hn.symm hseq
    · exact absurd hn h
  · simp only [purge_gate_from_mesh] at hl
    split_ifs at hl with h
    · exact absurd hl.symm hseq
    · exact absurd hl h

theorem Holds.queue {op : Op} (h : Holds P M g []) (hop : P.opAt g = some op) :
    Holds P M g (events P.routing op g) := by
  obtain ⟨YX3, YX5, -, -, howns⟩ := h
  refine ⟨false, false, fun _ ↦ ⟨rfl, rfl⟩, fun e he ↦ ?_, ?_⟩
  · cases op with
    | CNOT src dest =>
      have hargs : P.argsAt g = (src, dest) := by rw [Setting.argsAt, hop]; rfl
      rw [HasBraid, hargs]
      exact braid_of_mem_events_cnot he
    | H q =>
      simp only [events, events_h, List.mem_cons, List.not_mem_nil, or_false] at he
      rcases he with rfl | rfl <;> exact ⟨rfl, rfl⟩
    | _ => cases he
  · cases op <;> exact howns

end ScaffCC.Braid
