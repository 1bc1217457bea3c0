import Mathlib.Data.Nat.Find
import Mathlib.Logic.Relation
import ScaffCC.Braid.Expand

/-!
# The dependency graph of the gates

Each gate has an edge to the next user of each of its qubits. There are no edges between other users
of the same qubit, but the edges from one user to the next form a chain, so that a gate is connected
with every later gate that it shares a qubit with.
-/

namespace ScaffCC.Braid

variable (gates : List Gate)

/-- The qubits of the gate at a position. -/
def qidAt (i : ℕ) : List ℕ := (gates[i]?.map Gate.qid).getD []

/-- The next position after `i` whose gate uses the qubit. -/
def nextUse (i q : ℕ) : Option ℕ :=
  ((gates.drop (i + 1)).findIdx? fun g ↦ q ∈ g.qid).map fun d ↦ i + 1 + d

/-- The edges: from a gate to the next user of each of its qubits. -/
def dagEdge (i j : ℕ) : Bool := (qidAt gates i).any fun q ↦ nextUse gates i q == some j

/-- Two positions, the first before the second, whose gates use a qubit in common. -/
def SharesBefore (i j : ℕ) : Prop := i < j ∧ ∃ q, q ∈ qidAt gates i ∧ q ∈ qidAt gates j

variable {gates} {i j q : ℕ}

theorem mem_qidAt {g : Gate} (h : gates[i]? = some g) : q ∈ qidAt gates i ↔ q ∈ g.qid := by
  rw [qidAt, h, Option.map_some, Option.getD_some]

theorem lt_length_of_mem_qidAt (h : q ∈ qidAt gates i) : i < gates.length := by
  by_contra hi
  rw [qidAt, List.getElem?_eq_none (not_lt.mp hi)] at h
  cases h

theorem nextUse_eq_some : nextUse gates i q = some j ↔
    i < j ∧ q ∈ qidAt gates j ∧ ∀ k, i < k → k < j → q ∉ qidAt gates k := by
  rw [nextUse, Option.map_eq_some_iff]
  constructor
  · rintro ⟨d, hd, rfl⟩
    obtain ⟨hlt, hq, hbefore⟩ := List.findIdx?_eq_some_iff_getElem.mp hd
    rw [List.getElem_drop, decide_eq_true_eq] at hq
    rw [List.length_drop] at hlt
    refine ⟨by omega, (mem_qidAt (List.getElem?_eq_getElem (by omega))).mpr hq, fun k hk hkd ↦ ?_⟩
    have hno := hbefore (k - (i + 1)) (by omega)
    rw [List.getElem_drop, decide_eq_true_eq] at hno
    rw [mem_qidAt (List.getElem?_eq_getElem (by omega))]
    simpa only [show i + 1 + (k - (i + 1)) = k by omega] using hno
  · rintro ⟨hij, hq, hbefore⟩
    have hlen := lt_length_of_mem_qidAt hq
    refine ⟨j - (i + 1), List.findIdx?_eq_some_iff_getElem.mpr ⟨?_, ?_, fun d hd ↦ ?_⟩, by omega⟩
    · rw [List.length_drop]
      omega
    · rw [List.getElem_drop, decide_eq_true_eq]
      rw [mem_qidAt (List.getElem?_eq_getElem hlen)] at hq
      simpa only [show i + 1 + (j - (i + 1)) = j by omega] using hq
    · have hno := hbefore (i + 1 + d) (by omega) (by omega)
      rw [mem_qidAt (List.getElem?_eq_getElem (by omega))] at hno
      rwa [List.getElem_drop, decide_eq_true_eq]

theorem exists_nextUse (hij : i < j) (hq : q ∈ qidAt gates j) :
    ∃ k, nextUse gates i q = some k ∧ k ≤ j := by
  have hex : ∃ k, i < k ∧ q ∈ qidAt gates k := ⟨j, hij, hq⟩
  obtain ⟨hlt, hk⟩ := Nat.find_spec hex
  refine ⟨Nat.find hex, nextUse_eq_some.mpr ⟨hlt, hk, fun k hik hkf hqk ↦ ?_⟩,
    Nat.find_min' hex ⟨hij, hq⟩⟩
  exact Nat.find_min hex hkf ⟨hik, hqk⟩

theorem sharesBefore_of_dagEdge (h : dagEdge gates i j) : SharesBefore gates i j := by
  obtain ⟨q, hq, hnext⟩ := List.any_eq_true.mp h
  obtain ⟨hlt, hj, -⟩ := nextUse_eq_some.mp (beq_iff_eq.mp hnext)
  exact ⟨hlt, q, hq, hj⟩

/-- **A gate is connected with every later gate it shares a qubit with.** -/
theorem transGen_of_sharesBefore (h : SharesBefore gates i j) :
    Relation.TransGen (fun i j ↦ dagEdge gates i j) i j := by
  obtain ⟨hlt, q, hi, hj⟩ := h
  -- the induction is on the distance, over the first user of the qubit after the gate
  induction hn : j - i using Nat.strong_induction_on generalizing i with
  | _ n ih =>
    obtain ⟨k, hk, hkj⟩ := exists_nextUse hlt hj
    obtain ⟨hik, hqk, -⟩ := nextUse_eq_some.mp hk
    have hedge : dagEdge gates i k := List.any_eq_true.mpr ⟨q, hi, beq_iff_eq.mpr hk⟩
    rcases hkj.eq_or_lt with rfl | hkj
    · exact .single hedge
    · exact .head hedge (ih (j - k) (by omega) hkj hqk rfl)

end ScaffCC.Braid
