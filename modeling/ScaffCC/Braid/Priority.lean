import Mathlib.Data.Prod.Lex
import Mathlib.Order.Defs.Unbundled
import Mathlib.Order.RelClasses
import ScaffCC.Braid.Event

/-!
# The priority of events

The ready events are sorted by `Event::operator<`, which compares two events by the policy of the
first. Each policy is documented by a key: the criticality of the gate, the length of the braid,
whether the event closes or opens, or some of these one after the other.

The constructor of an event takes the policy as a parameter but does not store it. So the field has
whatever the memory held before, and the events are in the order of the key exactly when the memory
of each of them happened to hold the number of the policy.
-/

namespace ScaffCC.Braid

/-! ## Events with their policies -/

/-- The priority policies, apart from program order, for which nothing is sorted. -/
inductive Policy
  | criticality
  | short2long
  | long2short
  | close2open
  | close2open_criticality_short2long
  | close2open_criticality_mixed
  deriving DecidableEq, Repr

def Policy.code : Policy → ℕ
  | .criticality => 1
  | .short2long => 2
  | .long2short => 3
  | .close2open => 4
  | .close2open_criticality_short2long => 5
  | .close2open_criticality_mixed => 6

/-- An event with the field that decides how it is compared with others. -/
structure PolicyEvent where
  event : Event
  policy : ℕ
  deriving DecidableEq, Repr

/-- The policy that an event is constructed with. The events of an `H` have the default one. -/
def policyArg (priority_policy : ℕ) : EventType → ℕ
  | .h1 | .h2 => 6
  | _ => priority_policy

/-- The constructor. It leaves the field of the policy as the memory was. -/
def construct (memory : ℕ) (event : Event) (_policy : ℕ) : PolicyEvent := ⟨event, memory⟩

/-! ## The comparison -/

section Compare

variable (criticality : ℕ → ℤ) (highest_criticality : ℤ)

/-- Whether the first event comes before the second, by the policy of the first. -/
def PolicyEvent.lt (a b : PolicyEvent) : Bool :=
  match a.policy with
  | 1 => criticality a.event.gate > criticality b.event.gate
  | 2 => a.event.braid.links.length < b.event.braid.links.length
  | 3 => a.event.braid.links.length > b.event.braid.links.length
  | 4 => a.event.close_open = false && b.event.close_open = true
  -- closing braids first, then by criticality, then the shorter braid
  | 5 =>
    if a.event.close_open = false && b.event.close_open = true then true
    else if a.event.close_open = true && b.event.close_open = false then false
    else if criticality a.event.gate > criticality b.event.gate then true
    else if criticality a.event.gate = criticality b.event.gate then
      a.event.braid.links.length < b.event.braid.links.length
    else false
  -- as 5, but off the critical path the longer braid
  | 6 =>
    if a.event.close_open = false && b.event.close_open = true then true
    else if a.event.close_open = true && b.event.close_open = false then false
    else if criticality a.event.gate > criticality b.event.gate then true
    else if criticality a.event.gate = criticality b.event.gate then
      if criticality a.event.gate = highest_criticality then
        a.event.braid.links.length < b.event.braid.links.length
      else a.event.braid.links.length > b.event.braid.links.length
    else false
  | _ => false

/-! ## The documented order -/

/-- Closing comes before opening. -/
def closeKey (e : Event) : ℤ := if e.close_open then 1 else 0

def lengthKey (e : Event) : ℤ := e.braid.links.length

/-- The key of an event, the smallest of which comes first: what it does, its criticality and its
length, where the policy uses them. -/
def Policy.key (e : Event) : Policy → ℤ ×ₗ ℤ ×ₗ ℤ
  | .criticality => toLex (0, toLex (-criticality e.gate, 0))
  | .short2long => toLex (0, toLex (0, lengthKey e))
  | .long2short => toLex (0, toLex (0, -lengthKey e))
  | .close2open => toLex (closeKey e, toLex (0, 0))
  | .close2open_criticality_short2long =>
    toLex (closeKey e, toLex (-criticality e.gate, lengthKey e))
  | .close2open_criticality_mixed =>
    toLex (closeKey e, toLex (-criticality e.gate,
      if criticality e.gate = highest_criticality then lengthKey e else -lengthKey e))

end Compare

/-- An event of a gate. Its timer, attempts and route may have been changed since it was made. -/
def Created (e : Event) : Prop :=
  ∃ R op gate, ∃ e₀ ∈ events R op gate,
    e.close_open = e₀.close_open ∧ e.gate = e₀.gate ∧ e.type = e₀.type

/-- The events that were constructed, each with the memory it was given. -/
def constructed (p : Policy) (memory : ℕ → ℕ) (e : ℕ → Event) (i : ℕ) : PolicyEvent :=
  construct (memory i) (e i) (policyArg p.code (e i).type)

/-- **What the comparison should do**: it is a strict weak order, it compares the keys, and events
that are sorted by it have their keys in order. -/
def OrdersBy (p : Policy) (memory : ℕ → ℕ) : Prop :=
  ∀ (criticality : ℕ → ℤ) (highest_criticality : ℤ) (e : ℕ → Event), (∀ i, Created (e i)) →
    IsStrictWeakOrder ℕ (fun i j ↦ PolicyEvent.lt criticality highest_criticality
      (constructed p memory e i) (constructed p memory e j)) ∧
    (∀ i j, PolicyEvent.lt criticality highest_criticality
        (constructed p memory e i) (constructed p memory e j) ↔
      p.key criticality highest_criticality (e i) < p.key criticality highest_criticality (e j)) ∧
    ∀ ready_events : List ℕ,
      ready_events.Pairwise (fun i j ↦ ¬ PolicyEvent.lt criticality highest_criticality
        (constructed p memory e j) (constructed p memory e i)) →
      ready_events.Pairwise fun i j ↦
        p.key criticality highest_criticality (e i) ≤ p.key criticality highest_criticality (e j)

variable {criticality : ℕ → ℤ} {highest_criticality : ℤ} {p : Policy} {memory : ℕ → ℕ}
  {a b : Event}

/-! ## The comparison with the right policy -/

theorem lt_iff_key_lt (p : Policy) (v : ℕ) :
    PolicyEvent.lt criticality highest_criticality ⟨a, p.code⟩ ⟨b, v⟩ ↔
      p.key criticality highest_criticality a < p.key criticality highest_criticality b := by
  have hlex : ∀ x y z x' y' z' : ℤ, toLex (x, toLex (y, z)) < toLex (x', toLex (y', z')) ↔
      x < x' ∨ x = x' ∧ (y < y' ∨ y = y' ∧ z < z') := fun x y z x' y' z' ↦ by
    rw [Prod.Lex.toLex_lt_toLex, Prod.Lex.toLex_lt_toLex]
  have hclose : closeKey a = 0 ∧ a.close_open = false ∨ closeKey a = 1 ∧ a.close_open = true := by
    cases h : a.close_open <;> simp [closeKey, h]
  have hclose' : closeKey b = 0 ∧ b.close_open = false ∨ closeKey b = 1 ∧ b.close_open = true := by
    cases h : b.close_open <;> simp [closeKey, h]
  cases p <;> simp only [Policy.code, PolicyEvent.lt, Policy.key, hlex, lengthKey]
  case close2open =>
    rcases hclose with ⟨hk, ha⟩ | ⟨hk, ha⟩ <;> rcases hclose' with ⟨hk', hb⟩ | ⟨hk', hb⟩ <;>
      simp [hk, ha, hk', hb]
  case close2open_criticality_short2long =>
    rcases hclose with ⟨hk, ha⟩ | ⟨hk, ha⟩ <;> rcases hclose' with ⟨hk', hb⟩ | ⟨hk', hb⟩ <;>
      simp only [hk, ha, hk', hb] <;> grind
  case close2open_criticality_mixed =>
    rcases hclose with ⟨hk, ha⟩ | ⟨hk, ha⟩ <;> rcases hclose' with ⟨hk', hb⟩ | ⟨hk', hb⟩ <;>
      simp only [hk, ha, hk', hb] <;> grind
  all_goals simp

/-! ## The comparison with another policy -/

/-- The event that opens the route of a `CNOT` along some links, or the one that closes it. -/
def routeEvent (close_open : Bool) (gate links : ℕ) : Event :=
  ⟨⟨[], List.replicate links (0, 1)⟩, close_open, gate, if close_open then .cnot3 else .cnot4, 0, 0⟩

theorem created_routeEvent (close_open : Bool) (gate links : ℕ) :
    Created (routeEvent close_open gate links) := by
  refine ⟨⟨fun _ _ ↦ (0, 1), fun _ _ ↦ (0, 1), fun _ _ _ ↦ (⟨[], []⟩, ⟨[], []⟩), fun _ _ ↦ true⟩,
    .CNOT 0 1, gate, ?_⟩
  cases close_open
  · exact ⟨_, List.mem_of_getElem? (i := 3) rfl, rfl, rfl, rfl⟩
  · exact ⟨_, List.mem_of_getElem? (i := 2) rfl, rfl, rfl, rfl⟩

theorem lt_close_iff (v u : ℕ) :
    PolicyEvent.lt (fun _ ↦ 0) 0 ⟨routeEvent false 0 1, v⟩ ⟨routeEvent true 1 1, u⟩ ↔
      v = 4 ∨ v = 5 ∨ v = 6 := by
  rcases v with _ | _ | _ | _ | _ | _ | _ | v <;> simp [PolicyEvent.lt, routeEvent]

theorem lt_criticality_iff (v u : ℕ) :
    PolicyEvent.lt (fun g ↦ if g = 0 then 1 else 0) 1
        ⟨routeEvent true 0 1, v⟩ ⟨routeEvent true 1 1, u⟩ ↔ v = 1 ∨ v = 5 ∨ v = 6 := by
  rcases v with _ | _ | _ | _ | _ | _ | _ | v <;> simp [PolicyEvent.lt, routeEvent]

/-- The policies by which the shorter braid of two of the highest criticality comes first. -/
theorem lt_short_iff (v u : ℕ) :
    PolicyEvent.lt (fun _ ↦ 0) 0 ⟨routeEvent true 0 1, v⟩ ⟨routeEvent true 1 2, u⟩ ↔
      v = 2 ∨ v = 5 ∨ v = 6 := by
  rcases v with _ | _ | _ | _ | _ | _ | _ | v <;> simp [PolicyEvent.lt, routeEvent]

/-- The policies by which the longer braid of two that are less critical comes first. -/
theorem lt_long_iff (v u : ℕ) :
    PolicyEvent.lt (fun _ ↦ 0) 1 ⟨routeEvent true 0 2, v⟩ ⟨routeEvent true 1 1, u⟩ ↔
      v = 3 ∨ v = 6 := by
  rcases v with _ | _ | _ | _ | _ | _ | _ | v <;> simp [PolicyEvent.lt, routeEvent]

/-- Another number in the field compares some events differently. -/
theorem exists_not_lt_iff_key_lt (p : Policy) {v : ℕ} (hv : v ≠ p.code) :
    ∃ (criticality : ℕ → ℤ) (highest_criticality : ℤ) (a b : Event), Created a ∧ Created b ∧
      ∀ u, ¬ (PolicyEvent.lt criticality highest_criticality ⟨a, v⟩ ⟨b, u⟩ ↔
        p.key criticality highest_criticality a < p.key criticality highest_criticality b) := by
  simp only [← lt_iff_key_lt p 0]
  by_contra! hsame
  obtain ⟨_, hclose⟩ := hsame _ _ _ _ (created_routeEvent ..) (created_routeEvent ..)
  obtain ⟨_, hcrit⟩ := hsame _ _ _ _ (created_routeEvent ..) (created_routeEvent ..)
  obtain ⟨_, hshort⟩ := hsame _ _ _ _ (created_routeEvent ..) (created_routeEvent ..)
  obtain ⟨_, hlong⟩ := hsame _ _ _ _ (created_routeEvent ..) (created_routeEvent ..)
  rw [lt_close_iff, lt_close_iff] at hclose
  rw [lt_criticality_iff, lt_criticality_iff] at hcrit
  rw [lt_short_iff, lt_short_iff] at hshort
  rw [lt_long_iff, lt_long_iff] at hlong
  cases p <;> simp only [Policy.code] at hv hclose hcrit hshort hlong <;> grind only

/-- An event whose memory did not hold the number of the policy. -/
theorem not_ordersBy_of_memory {i : ℕ} (hi : memory i ≠ p.code) : ¬ OrdersBy p memory := by
  intro h
  obtain ⟨criticality, highest_criticality, a, b, ha, hb, hne⟩ := exists_not_lt_iff_key_lt p hi
  have hcreated : ∀ j, Created (if j = i then a else b) := fun j ↦ by
    split_ifs
    exacts [ha, hb]
  have hlt := (h criticality highest_criticality (fun j ↦ if j = i then a else b) hcreated).2.1
    i (i + 1)
  rw [constructed, constructed, construct, construct, if_pos rfl,
    if_neg (Nat.succ_ne_self i)] at hlt
  exact hne _ hlt

/-- **The events are sorted by the policy** exactly if the memory of each of them held its number
before. -/
theorem ordersBy_iff (p : Policy) (memory : ℕ → ℕ) :
    OrdersBy p memory ↔ ∀ i, memory i = p.code := by
  refine ⟨fun h i ↦ by_contra fun hi ↦ not_ordersBy_of_memory hi h, fun h ↦ ?_⟩
  intro criticality highest_criticality e _
  have hlt : ∀ i j, PolicyEvent.lt criticality highest_criticality
      (constructed p memory e i) (constructed p memory e j) ↔
      p.key criticality highest_criticality (e i)
        < p.key criticality highest_criticality (e j) := fun i j ↦ by
    rw [constructed, constructed, construct, construct, h i]
    exact lt_iff_key_lt p _
  refine ⟨?_, hlt, fun ready_events hsorted ↦ hsorted.imp fun hnot ↦ ?_⟩
  · simp only [hlt]
    have : IsStrictWeakOrder (ℤ ×ₗ ℤ ×ₗ ℤ) (· < ·) := isStrictWeakOrder_of_isOrderConnected
    exact inferInstanceAs (IsStrictWeakOrder ℕ
      (Order.Preimage (fun i ↦ p.key criticality highest_criticality (e i)) (· < ·)))
  · rw [hlt] at hnot
    exact not_lt.mp hnot

/-- With memory that is zero no event comes before another, whatever the policy. -/
theorem not_ordersBy_zero : ¬ OrdersBy .close2open_criticality_mixed fun _ ↦ 0 :=
  not_ordersBy_of_memory (i := 0) (by decide)

end ScaffCC.Braid
