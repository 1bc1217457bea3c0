import Mathlib.Data.Set.Lattice
import ScaffCC.Braid.Event
import ScaffCC.Transition.Loop

/-!
# Who owns the mesh

The mesh has a row and a column of nodes more than there are rows and columns of qubits, and a link
between any two nodes next to each other. `do_event` first looks for a conflict and then goes
through the nodes and the links of the braid. `purge_gate_from_mesh` goes through all nodes and
links, row by row.

Neither changes what belongs to another gate. The programs as they run are related to what they do
to the mesh as a whole.
-/

open StateLoop

namespace ScaffCC.Braid

/-! ## The mesh -/

/-- The rows and columns of qubits. -/
structure Shape where
  num_rows : ℕ
  num_cols : ℕ
  deriving DecidableEq, Repr

/-- The link between two nodes, whichever is named first. -/
def edge (u v : ℕ) : ℕ × ℕ := (min u v, max u v)

def Shape.nodes (S : Shape) : ℕ := (S.num_rows + 1) * (S.num_cols + 1)

/-- The links of a node to the north, south, east and west. -/
def Shape.linksAt (S : Shape) (i : ℕ) : List (ℕ × ℕ) :=
  let node_row := i / (S.num_cols + 1)
  let node_col := i % (S.num_cols + 1)
  (if node_row ≠ 0 then [edge i (i - S.num_cols - 1)] else []) ++
    (if node_row ≠ S.num_rows then [edge i (i + S.num_cols + 1)] else []) ++
    (if node_col ≠ S.num_cols then [edge i (i + 1)] else []) ++
    (if node_col ≠ 0 then [edge i (i - 1)] else [])

def Shape.links (S : Shape) : List (ℕ × ℕ) := (List.range S.nodes).flatMap S.linksAt

attribute [ext] Mesh

/-- A node changes its owner. -/
def Mesh.setNode (M : Mesh) (n owner : ℕ) : Mesh := ⟨Function.update M.node n owner, M.link⟩

/-- A link changes its owner. -/
def Mesh.setLink (M : Mesh) (l : ℕ × ℕ) (owner : ℕ) : Mesh :=
  ⟨M.node, Function.update M.link l owner⟩

/-! ## The programs -/

namespace Program

/-- The first loop, which looks for a conflict at a node. -/
def nodesFree (seq : ℕ) (e : Event) : StateM Mesh Bool := do
  for n in e.braid.nodes do
    if conflict e seq ((← get).node n) then return false
  return true

/-- The second loop, which looks for a conflict at a link. -/
def linksFree (seq : ℕ) (e : Event) : StateM Mesh Bool := do
  for l in e.braid.links do
    if conflict e seq ((← get).link l) then return false
  return true

/-- The last two loops, which do it if there is no conflict. -/
def setBraid (seq : ℕ) (e : Event) : StateM Mesh Unit := do
  let owner := if e.close_open then seq else 0
  for n in e.braid.nodes do
    modify fun M ↦ M.setNode n owner
  for l in e.braid.links do
    modify fun M ↦ M.setLink l owner

/-- The braid of an event is opened or closed, unless there is a conflict. -/
def do_event (seq : ℕ) (e : Event) : StateM Mesh Bool := do
  if !(← nodesFree seq e) then return false
  if !(← linksFree seq e) then return false
  setBraid seq e
  return true

/-- A node that belongs to the gate is closed. -/
def purgeNode (seq n : ℕ) : StateM Mesh Unit := do
  if (← get).node n = seq then modify fun M ↦ M.setNode n 0

/-- A link that belongs to the gate is closed. -/
def purgeLink (seq : ℕ) (l : ℕ × ℕ) : StateM Mesh Unit := do
  if (← get).link l = seq then modify fun M ↦ M.setLink l 0

/-- A node of a row, and the link to the next one. -/
def purgeCell (S : Shape) (seq r c : ℕ) : StateM Mesh Unit := do
  let node_num := r * (S.num_cols + 1) + c
  purgeNode seq node_num
  if c ≠ S.num_cols then purgeLink seq (edge node_num (node_num + 1))

/-- The link from a node of a row to the next row. -/
def purgeVertical (S : Shape) (seq r c : ℕ) : StateM Mesh Unit := do
  let node_num := r * (S.num_cols + 1) + c
  if r ≠ S.num_rows then purgeLink seq (edge node_num (node_num + S.num_cols + 1))

/-- A row, and the links to the next one. -/
def purgeRow (S : Shape) (seq r : ℕ) : StateM Mesh Unit := do
  for c in List.range (S.num_cols + 1) do
    purgeCell S seq r c
  for c in List.range (S.num_cols + 1) do
    purgeVertical S seq r c

/-- Whatever belongs to a gate is closed, row by row. -/
def purge_gate_from_mesh (S : Shape) (seq : ℕ) : StateM Mesh Unit := do
  for r in List.range (S.num_rows + 1) do
    purgeRow S seq r

end Program

/-! ## What the programs do -/

variable {S : Shape} {M M' : Mesh} {seq n owner : ℕ} {l : ℕ × ℕ} {e : Event}

/-- Some nodes have an owner, the others are as they were. -/
theorem foldl_setNode (ns : List ℕ) (M : Mesh) (owner : ℕ) :
    ns.foldl (fun M n ↦ M.setNode n owner) M
      = ⟨fun n ↦ if n ∈ ns then owner else M.node n, M.link⟩ := by
  induction ns generalizing M with
  | nil => simp
  | cons n ns ih =>
    rw [List.foldl_cons, ih]
    refine Mesh.ext (funext fun m ↦ ?_) rfl
    rcases eq_or_ne m n with rfl | hm
    · simp [Mesh.setNode]
    · simp [Mesh.setNode, hm]

theorem foldl_setLink (ls : List (ℕ × ℕ)) (M : Mesh) (owner : ℕ) :
    ls.foldl (fun M l ↦ M.setLink l owner) M
      = ⟨M.node, fun l ↦ if l ∈ ls then owner else M.link l⟩ := by
  induction ls generalizing M with
  | nil => simp
  | cons l ls ih =>
    rw [List.foldl_cons, ih]
    refine Mesh.ext rfl (funext fun m ↦ ?_)
    rcases eq_or_ne m l with rfl | hm
    · simp [Mesh.setLink]
    · simp [Mesh.setLink, hm]

theorem do_event_eq : do_event M seq e =
    if (e.braid.nodes.all fun n ↦ !conflict e seq (M.node n)) &&
        e.braid.links.all fun l ↦ !conflict e seq (M.link l) then
      some ⟨fun n ↦ if n ∈ e.braid.nodes then if e.close_open then seq else 0 else M.node n,
        fun l ↦ if l ∈ e.braid.links then if e.close_open then seq else 0 else M.link l⟩
    else none := by
  rw [do_event, List.any_eq_not_all_not, List.any_eq_not_all_not, ← Bool.not_and]
  cases (e.braid.nodes.all fun n ↦ !conflict e seq (M.node n)) &&
    e.braid.links.all fun l ↦ !conflict e seq (M.link l) <;> rfl

/-- **The program for an event** does to the mesh what the event does, and returns whether it
succeeds. -/
theorem Program.do_event_run (seq : ℕ) (e : Event) (M : Mesh) :
    (Program.do_event seq e).run M = match Braid.do_event M seq e with
      | none => (false, M)
      | some M' => (true, M') := by
  have hnodes : (nodesFree seq e).run M
      = (e.braid.nodes.all fun n ↦ !conflict e seq (M.node n), M) :=
    run_check (fun (M : Mesh) n ↦ conflict e seq (M.node n)) _ M
  have hlinks : (linksFree seq e).run M
      = (e.braid.links.all fun l ↦ !conflict e seq (M.link l), M) :=
    run_check (fun (M : Mesh) l ↦ conflict e seq (M.link l)) _ M
  have hset : (setBraid seq e).run M = ((), ⟨fun n ↦ if n ∈ e.braid.nodes then
      if e.close_open then seq else 0 else M.node n,
      fun l ↦ if l ∈ e.braid.links then if e.close_open then seq else 0 else M.link l⟩) := by
    set owner := if e.close_open then seq else 0
    refine (run_forIn_bind (fun n ↦ modify fun M : Mesh ↦ M.setNode n owner)
      (fun M n ↦ M.setNode n owner) (fun _ _ ↦ rfl) _ _ _).trans ?_
    refine (run_forIn_bind (fun l ↦ modify fun M : Mesh ↦ M.setLink l owner)
      (fun M l ↦ M.setLink l owner) (fun _ _ ↦ rfl) _ _ _).trans ?_
    rw [foldl_setNode, foldl_setLink]
    rfl
  rw [do_event_eq, Program.do_event, StateT.run_bind, hnodes]
  cases e.braid.nodes.all fun n ↦ !conflict e seq (M.node n) with
  | false => rfl
  | true =>
    change StateT.run (linksFree seq e >>= _) M = _
    rw [StateT.run_bind, hlinks]
    cases e.braid.links.all fun l ↦ !conflict e seq (M.link l) with
    | false => rfl
    | true =>
      change StateT.run (setBraid seq e >>= _) M = _
      rw [StateT.run_bind, hset]
      rfl

/-! ## What is purged -/

open Classical in
/-- Some nodes and links are closed if they belong to the gate. -/
noncomputable def Mesh.purgeOn (seq : ℕ) (N : Set ℕ) (L : Set (ℕ × ℕ)) (M : Mesh) : Mesh :=
  ⟨fun n ↦ if n ∈ N ∧ M.node n = seq then 0 else M.node n,
    fun l ↦ if l ∈ L ∧ M.link l = seq then 0 else M.link l⟩

theorem purgeOn_empty : M.purgeOn seq ∅ ∅ = M := by
  simp [Mesh.purgeOn]

theorem purgeOn_purgeOn (N N' : Set ℕ) (L L' : Set (ℕ × ℕ)) :
    (M.purgeOn seq N L).purgeOn seq N' L' = M.purgeOn seq (N ∪ N') (L ∪ L') := by
  refine Mesh.ext (funext fun n ↦ ?_) (funext fun l ↦ ?_)
  · simp only [Mesh.purgeOn, Set.mem_union]
    split_ifs <;> grind
  · simp only [Mesh.purgeOn, Set.mem_union]
    split_ifs <;> grind

theorem foldl_purgeOn {α : Type*} (N : α → Set ℕ) (L : α → Set (ℕ × ℕ)) (as : List α) (M : Mesh) :
    as.foldl (fun M a ↦ M.purgeOn seq (N a) (L a)) M
      = M.purgeOn seq (⋃ a ∈ as, N a) (⋃ a ∈ as, L a) := by
  induction as generalizing M with
  | nil => simp [purgeOn_empty]
  | cons a as ih =>
    rw [List.foldl_cons, ih, purgeOn_purgeOn]
    simp

namespace Program

theorem purgeNode_run (seq n : ℕ) (M : Mesh) :
    (purgeNode seq n).run M = ((), M.purgeOn seq {n} ∅) := by
  have hpurge : M.purgeOn seq {n} ∅ = if M.node n = seq then M.setNode n 0 else M := by
    refine Mesh.ext (funext fun m ↦ ?_) ?_
    · rcases eq_or_ne m n with rfl | hm
      · simp only [Mesh.purgeOn, Mesh.setNode, Set.mem_singleton_iff, true_and]
        split_ifs <;> simp
      · simp only [Mesh.purgeOn, Mesh.setNode, Set.mem_singleton_iff, hm, false_and, if_false]
        split_ifs <;> simp [hm]
    · simp only [Mesh.purgeOn, Mesh.setNode, Set.mem_empty_iff_false, false_and, if_false]
      split_ifs <;> rfl
  rw [hpurge]
  by_cases h : M.node n = seq
  · simp [purgeNode, h]
    rfl
  · simp [purgeNode, h]
    rfl

theorem purgeLink_run (seq : ℕ) (l : ℕ × ℕ) (M : Mesh) :
    (purgeLink seq l).run M = ((), M.purgeOn seq ∅ {l}) := by
  have hpurge : M.purgeOn seq ∅ {l} = if M.link l = seq then M.setLink l 0 else M := by
    refine Mesh.ext ?_ (funext fun m ↦ ?_)
    · simp only [Mesh.purgeOn, Mesh.setLink, Set.mem_empty_iff_false, false_and, if_false]
      split_ifs <;> rfl
    · rcases eq_or_ne m l with rfl | hm
      · simp only [Mesh.purgeOn, Mesh.setLink, Set.mem_singleton_iff, true_and]
        split_ifs <;> simp
      · simp only [Mesh.purgeOn, Mesh.setLink, Set.mem_singleton_iff, hm, false_and, if_false]
        split_ifs <;> simp [hm]
  rw [hpurge]
  by_cases h : M.link l = seq
  · simp [purgeLink, h]
    rfl
  · simp [purgeLink, h]
    rfl

/-- The links that are visited with a node. -/
def cellLinks (S : Shape) (r c : ℕ) : Set (ℕ × ℕ) :=
  {l | c ≠ S.num_cols ∧
    l = edge (r * (S.num_cols + 1) + c) (r * (S.num_cols + 1) + c + 1)}

/-- The links to the next row that are visited after a row. -/
def verticalLinks (S : Shape) (r c : ℕ) : Set (ℕ × ℕ) :=
  {l | r ≠ S.num_rows ∧
    l = edge (r * (S.num_cols + 1) + c) (r * (S.num_cols + 1) + c + S.num_cols + 1)}

theorem purgeCell_run (S : Shape) (seq r c : ℕ) (M : Mesh) :
    (purgeCell S seq r c).run M
      = ((), M.purgeOn seq {r * (S.num_cols + 1) + c} (cellLinks S r c)) := by
  rw [purgeCell, StateT.run_bind, purgeNode_run]
  by_cases h : c = S.num_cols
  · have hempty : cellLinks S r c = ∅ := Set.eq_empty_of_forall_notMem fun _ hl ↦ hl.1 h
    rw [hempty]
    simp [h]
  · have hlink : cellLinks S r c
        = {edge (r * (S.num_cols + 1) + c) (r * (S.num_cols + 1) + c + 1)} := by
      simp [cellLinks, h]
    have hpurge := purgeLink_run seq (edge (r * (S.num_cols + 1) + c)
      (r * (S.num_cols + 1) + c + 1)) (M.purgeOn seq {r * (S.num_cols + 1) + c} ∅)
    rw [purgeOn_purgeOn, Set.union_empty, Set.empty_union, ← hlink] at hpurge
    simp only [ne_eq, h, not_false_eq_true, if_true]
    exact hpurge

theorem purgeVertical_run (S : Shape) (seq r c : ℕ) (M : Mesh) :
    (purgeVertical S seq r c).run M = ((), M.purgeOn seq ∅ (verticalLinks S r c)) := by
  rw [purgeVertical]
  by_cases h : r = S.num_rows
  · have hempty : verticalLinks S r c = ∅ := Set.eq_empty_of_forall_notMem fun _ hl ↦ hl.1 h
    rw [hempty, purgeOn_empty]
    simp [h]
    rfl
  · have hlink : verticalLinks S r c = {edge (r * (S.num_cols + 1) + c)
        (r * (S.num_cols + 1) + c + S.num_cols + 1)} := by
      simp [verticalLinks, h]
    rw [hlink, ← purgeLink_run]
    simp [h]

def rowNodes (S : Shape) (r : ℕ) : Set ℕ :=
  ⋃ c ∈ List.range (S.num_cols + 1), {r * (S.num_cols + 1) + c}

def rowLinks (S : Shape) (r : ℕ) : Set (ℕ × ℕ) :=
  (⋃ c ∈ List.range (S.num_cols + 1), cellLinks S r c) ∪
    ⋃ c ∈ List.range (S.num_cols + 1), verticalLinks S r c

theorem purgeRow_run (S : Shape) (seq r : ℕ) (M : Mesh) :
    (purgeRow S seq r).run M = ((), M.purgeOn seq (rowNodes S r) (rowLinks S r)) := by
  rw [purgeRow, run_forIn_bind (purgeCell S seq r) _ (fun c M ↦ purgeCell_run S seq r c M),
    run_forIn_bind (purgeVertical S seq r) _ (fun c M ↦ purgeVertical_run S seq r c M),
    foldl_purgeOn, foldl_purgeOn, purgeOn_purgeOn]
  simp only [Set.iUnion_empty, Set.union_empty]
  rfl

def visitedNodes (S : Shape) : Set ℕ := ⋃ r ∈ List.range (S.num_rows + 1), rowNodes S r

def visitedLinks (S : Shape) : Set (ℕ × ℕ) := ⋃ r ∈ List.range (S.num_rows + 1), rowLinks S r

theorem purge_gate_from_mesh_run (S : Shape) (seq : ℕ) (M : Mesh) :
    (purge_gate_from_mesh S seq).run M
      = ((), M.purgeOn seq (visitedNodes S) (visitedLinks S)) := by
  rw [purge_gate_from_mesh,
    run_forIn_bind (purgeRow S seq) _ (fun r M ↦ purgeRow_run S seq r M), foldl_purgeOn]
  rfl

/-! ## What is visited -/

theorem lt_nodes_iff {i : ℕ} : i < S.nodes ↔
    ∃ r c, r ≤ S.num_rows ∧ c ≤ S.num_cols ∧ i = r * (S.num_cols + 1) + c := by
  constructor
  · intro hi
    refine ⟨i / (S.num_cols + 1), i % (S.num_cols + 1), ?_, ?_, (Nat.div_add_mod' ..).symm⟩
    · exact Nat.lt_succ_iff.mp (Nat.div_lt_of_lt_mul (by rwa [mul_comm]))
    · exact Nat.lt_succ_iff.mp (Nat.mod_lt _ S.num_cols.succ_pos)
  · rintro ⟨r, c, hr, hc, rfl⟩
    calc r * (S.num_cols + 1) + c
        < r * (S.num_cols + 1) + (S.num_cols + 1) := by omega
      _ = (r + 1) * (S.num_cols + 1) := (Nat.succ_mul ..).symm
      _ ≤ S.nodes := Nat.mul_le_mul_right _ (by omega)

theorem mem_visitedNodes : n ∈ visitedNodes S ↔ n < S.nodes := by
  rw [lt_nodes_iff]
  simp only [visitedNodes, rowNodes, Set.mem_iUnion, List.mem_range, Set.mem_singleton_iff,
    Nat.lt_succ_iff, exists_prop]
  constructor
  · rintro ⟨r, hr, c, hc, hn⟩
    exact ⟨r, c, hr, hc, hn⟩
  · rintro ⟨r, c, hr, hc, hn⟩
    exact ⟨r, hr, c, hc, hn⟩

theorem mem_visitedLinks_iff : l ∈ visitedLinks S ↔
    ∃ r c, r ≤ S.num_rows ∧ c ≤ S.num_cols ∧ (l ∈ cellLinks S r c ∨ l ∈ verticalLinks S r c) := by
  simp only [visitedLinks, rowLinks, Set.mem_iUnion, List.mem_range, Set.mem_union,
    Nat.lt_succ_iff, exists_prop]
  constructor
  · rintro ⟨r, hr, ⟨c, hc, hl⟩ | ⟨c, hc, hl⟩⟩
    · exact ⟨r, c, hr, hc, .inl hl⟩
    · exact ⟨r, c, hr, hc, .inr hl⟩
  · rintro ⟨r, c, hr, hc, hl | hl⟩
    · exact ⟨r, hr, .inl ⟨c, hc, hl⟩⟩
    · exact ⟨r, hr, .inr ⟨c, hc, hl⟩⟩

theorem edge_comm (u v : ℕ) : edge u v = edge v u := by
  rw [edge, edge, min_comm, max_comm]

theorem mem_linksAt {r c : ℕ} (hr : r ≤ S.num_rows) (hc : c ≤ S.num_cols) :
    l ∈ S.linksAt (r * (S.num_cols + 1) + c) ↔
      (r ≠ 0 ∧ l ∈ verticalLinks S (r - 1) c) ∨ l ∈ verticalLinks S r c ∨
        l ∈ cellLinks S r c ∨ (c ≠ 0 ∧ l ∈ cellLinks S r (c - 1)) := by
  have hrow : (r * (S.num_cols + 1) + c) / (S.num_cols + 1) = r := by
    rw [mul_comm r, Nat.mul_add_div S.num_cols.succ_pos, Nat.div_eq_of_lt (by omega), add_zero]
  have hcol : (r * (S.num_cols + 1) + c) % (S.num_cols + 1) = c := by
    rw [Nat.mul_add_mod_self_right, Nat.mod_eq_of_lt (by omega)]
  have hnorth : r ≠ 0 → (l = edge (r * (S.num_cols + 1) + c)
      (r * (S.num_cols + 1) + c - S.num_cols - 1) ↔ l ∈ verticalLinks S (r - 1) c) := by
    intro h
    obtain ⟨r, rfl⟩ := Nat.exists_eq_succ_of_ne_zero h
    have hmul : (r + 1) * (S.num_cols + 1) = r * (S.num_cols + 1) + S.num_cols + 1 :=
      Nat.add_one_mul ..
    have hprev : (r + 1) * (S.num_cols + 1) + c - S.num_cols - 1 = r * (S.num_cols + 1) + c := by
      omega
    have hnext : (r + 1) * (S.num_cols + 1) + c = r * (S.num_cols + 1) + c + S.num_cols + 1 := by
      omega
    simp only [verticalLinks, Nat.succ_eq_add_one, Nat.add_sub_cancel, Set.mem_ofPred_eq]
    rw [hprev, edge_comm, hnext, and_iff_right (by omega)]
  have hwest : c ≠ 0 → (l = edge (r * (S.num_cols + 1) + c) (r * (S.num_cols + 1) + c - 1) ↔
      l ∈ cellLinks S r (c - 1)) := by
    intro h
    obtain ⟨c, rfl⟩ := Nat.exists_eq_succ_of_ne_zero h
    simp only [cellLinks, Nat.succ_eq_add_one, Nat.add_sub_cancel, Set.mem_ofPred_eq]
    rw [and_iff_right (by omega), ← add_assoc, Nat.add_sub_cancel, edge_comm]
  have hite : ∀ (p : Prop) [Decidable p] (a : ℕ × ℕ),
      l ∈ (if p then [a] else []) ↔ p ∧ l = a := fun p _ a ↦ by
    split_ifs with h <;> simp [h]
  simp only [Shape.linksAt, hrow, hcol, List.mem_append, hite, or_assoc]
  rw [and_congr_right hnorth, and_congr_right hwest]
  rfl

theorem mem_visitedLinks : l ∈ visitedLinks S ↔ l ∈ S.links := by
  rw [mem_visitedLinks_iff, Shape.links, List.mem_flatMap]
  constructor
  · rintro ⟨r, c, hr, hc, hl⟩
    refine ⟨_, List.mem_range.mpr (lt_nodes_iff.mpr ⟨r, c, hr, hc, rfl⟩),
      (mem_linksAt hr hc).mpr ?_⟩
    rcases hl with hl | hl
    · exact .inr (.inr (.inl hl))
    · exact .inr (.inl hl)
  · rintro ⟨i, hi, hl⟩
    obtain ⟨r, c, hr, hc, rfl⟩ := lt_nodes_iff.mp (List.mem_range.mp hi)
    rcases (mem_linksAt hr hc).mp hl with ⟨-, hl⟩ | hl | hl | ⟨-, hl⟩
    · exact ⟨r - 1, c, by omega, hc, .inr hl⟩
    · exact ⟨r, c, hr, hc, .inr hl⟩
    · exact ⟨r, c, hr, hc, .inl hl⟩
    · exact ⟨r, c - 1, hr, by omega, .inl hl⟩

end Program

/-- Only nodes and links of the mesh have an owner. -/
structure Mesh.On (S : Shape) (M : Mesh) : Prop where
  node : ∀ n, S.nodes ≤ n → M.node n = 0
  link : ∀ l, l ∉ S.links → M.link l = 0

/-- **The program that purges a gate** closes whatever belongs to it. -/
theorem Program.purge_gate_from_mesh_eq (h : M.On S) (seq : ℕ) :
    (Program.purge_gate_from_mesh S seq).run M = ((), Braid.purge_gate_from_mesh M seq) := by
  rw [purge_gate_from_mesh_run, Prod.mk.injEq]
  refine ⟨rfl, Mesh.ext (funext fun n ↦ ?_) (funext fun l ↦ ?_)⟩
  · by_cases hn : n ∈ visitedNodes S
    · simp [Mesh.purgeOn, Braid.purge_gate_from_mesh, hn]
    · have hzero := h.node n (not_lt.mp fun hlt ↦ hn (mem_visitedNodes.mpr hlt))
      simp [Mesh.purgeOn, Braid.purge_gate_from_mesh, hn, hzero]
  · by_cases hl : l ∈ visitedLinks S
    · simp [Mesh.purgeOn, Braid.purge_gate_from_mesh, hl]
    · have hzero := h.link l fun hmem ↦ hl (mem_visitedLinks.mpr hmem)
      simp [Mesh.purgeOn, Braid.purge_gate_from_mesh, hl, hzero]

/-! ## Nothing of another gate changes -/

/-- What belongs to another gate keeps its owner. -/
structure KeepsOthers (seq : ℕ) (M M' : Mesh) : Prop where
  node : ∀ n, M.node n ≠ 0 → M.node n ≠ seq → M'.node n = M.node n
  link : ∀ l, M.link l ≠ 0 → M.link l ≠ seq → M'.link l = M.link l

/-- The nodes and links of a braid have an owner, and nothing else has changed. -/
structure SetsBraid (e : Event) (owner : ℕ) (M M' : Mesh) : Prop where
  node : ∀ n, M'.node n = if n ∈ e.braid.nodes then owner else M.node n
  link : ∀ l, M'.link l = if l ∈ e.braid.links then owner else M.link l

/-- Whatever of the mesh belongs to a gate is closed, and nothing else has changed. -/
structure Purges (S : Shape) (seq : ℕ) (M M' : Mesh) : Prop where
  node : ∀ n, n < S.nodes → M'.node n = if M.node n = seq then 0 else M.node n
  link : ∀ l ∈ S.links, M'.link l = if M.link l = seq then 0 else M.link l

theorem KeepsOthers.refl : KeepsOthers seq M M := ⟨fun _ _ _ ↦ rfl, fun _ _ _ ↦ rfl⟩

theorem KeepsOthers.trans {M'' : Mesh} (h : KeepsOthers seq M M') (h' : KeepsOthers seq M' M'') :
    KeepsOthers seq M M'' := by
  refine ⟨fun n h0 hseq ↦ ?_, fun l h0 hseq ↦ ?_⟩
  · have heq := h.node n h0 hseq
    rw [h'.node n (heq ▸ h0) (heq ▸ hseq), heq]
  · have heq := h.link l h0 hseq
    rw [h'.link l (heq ▸ h0) (heq ▸ hseq), heq]

theorem conflict_of_ne (h0 : owner ≠ 0) (hseq : owner ≠ seq) : conflict e seq owner := by
  simp [conflict, h0, hseq]

theorem do_event_eq_some (h : do_event M seq e = some M') :
    (∀ n ∈ e.braid.nodes, ¬ conflict e seq (M.node n)) ∧
      (∀ l ∈ e.braid.links, ¬ conflict e seq (M.link l)) ∧
      SetsBraid e (if e.close_open then seq else 0) M M' := by
  rw [do_event_eq, Option.ite_none_right_eq_some] at h
  obtain ⟨hfree, hM⟩ := h
  simp only [Bool.and_eq_true, List.all_eq_true, Bool.not_eq_true', ← Bool.not_eq_true] at hfree
  exact ⟨hfree.1, hfree.2, Option.some.inj hM ▸ ⟨fun _ ↦ rfl, fun _ ↦ rfl⟩⟩

theorem KeepsOthers.do_event (h : do_event M seq e = some M') : KeepsOthers seq M M' := by
  obtain ⟨hnodes, hlinks, hset⟩ := do_event_eq_some h
  refine ⟨fun n h0 hseq ↦ ?_, fun l h0 hseq ↦ ?_⟩
  · rw [hset.node, if_neg fun hn ↦ hnodes n hn (conflict_of_ne h0 hseq)]
  · rw [hset.link, if_neg fun hl ↦ hlinks l hl (conflict_of_ne h0 hseq)]

theorem Program.purges_run (S : Shape) (seq : ℕ) (M : Mesh) :
    Purges S seq M ((Program.purge_gate_from_mesh S seq).run M).2 := by
  rw [purge_gate_from_mesh_run]
  refine ⟨fun n hn ↦ ?_, fun l hl ↦ ?_⟩
  · simp [Mesh.purgeOn, mem_visitedNodes.mpr hn]
  · simp [Mesh.purgeOn, mem_visitedLinks.mpr hl]

theorem KeepsOthers.purge (S : Shape) (seq : ℕ) (M : Mesh) :
    KeepsOthers seq M ((Program.purge_gate_from_mesh S seq).run M).2 := by
  rw [Program.purge_gate_from_mesh_run]
  refine ⟨fun n _ hseq ↦ ?_, fun l _ hseq ↦ ?_⟩
  · simp [Mesh.purgeOn, hseq]
  · simp [Mesh.purgeOn, hseq]

/-- **The mesh of other gates is left alone** by an event, whether it succeeds or fails, and by
purging the gate before or after it. An event that fails changes nothing, and one that succeeds
opens or closes its braid and nothing else. -/
theorem keepsOthers_run (S : Shape) (M : Mesh) (seq : ℕ) (e : Event) :
    let r := (Program.do_event seq e).run M
    let purged := ((Program.purge_gate_from_mesh S seq).run r.2).2
    KeepsOthers seq M r.2 ∧ KeepsOthers seq M purged ∧ (r.1 = false → r.2 = M) ∧
      (r.1 = true → SetsBraid e (if e.close_open then seq else 0) M r.2) ∧
      Purges S seq r.2 purged := by
  intro r purged
  have hpurge : KeepsOthers seq r.2 purged := .purge S seq r.2
  have hpurges : Purges S seq r.2 purged := Program.purges_run S seq r.2
  have hrun : r = match do_event M seq e with
      | none => (false, M)
      | some M' => (true, M') := Program.do_event_run seq e M
  cases h : do_event M seq e with
  | none =>
    rw [h] at hrun
    have hM : r.2 = M := by rw [hrun]
    refine ⟨hM ▸ .refl, hM ▸ hpurge, fun _ ↦ hM, fun htrue ↦ ?_, hpurges⟩
    rw [hrun] at htrue
    cases htrue
  | some M' =>
    rw [h] at hrun
    have hM : r.2 = M' := by rw [hrun]
    have hkeeps : KeepsOthers seq M r.2 := hM ▸ .do_event h
    refine ⟨hkeeps, hkeeps.trans hpurge, fun hfalse ↦ ?_, fun _ ↦ hM ▸ (do_event_eq_some h).2.2,
      hpurges⟩
    rw [hrun] at hfalse
    cases hfalse

end ScaffCC.Braid
