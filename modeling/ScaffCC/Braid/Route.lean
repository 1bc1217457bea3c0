import ScaffCC.Braid.Frame

/-!
# Routes of a `CNOT`

A qubit is a cell of the mesh and has a node at each of its corners. Two qubits next to each other
in a row have one pair of routes. All other routes go through or around the corners of both qubits
and along the mesh in between, with either the rows or the columns first.

Which comes first makes no difference to where the routes end.
-/

namespace ScaffCC.Braid

variable (num_cols : ℕ)

/-! ## Corners -/

/-- The corners of a qubit: top left, top right, bottom left and bottom right. -/
def topLeft (qubit_num : ℕ) : ℕ := qubit_num + qubit_num / num_cols
def topRight (qubit_num : ℕ) : ℕ := qubit_num + qubit_num / num_cols + 1
def bottomLeft (qubit_num : ℕ) : ℕ := qubit_num + qubit_num / num_cols + num_cols + 1
def bottomRight (qubit_num : ℕ) : ℕ := qubit_num + qubit_num / num_cols + num_cols + 2

/-- The corner that is given for each of the four corners, and 0 for any other node. -/
def atCorner (qubit_num node tl tr bl br : ℕ) : ℕ :=
  if node = topLeft num_cols qubit_num then tl
  else if node = topRight num_cols qubit_num then tr
  else if node = bottomLeft num_cols qubit_num then bl
  else if node = bottomRight num_cols qubit_num then br
  else 0

/-- The corner opposite to a corner. -/
def find_diagonal (qubit_num node : ℕ) : ℕ :=
  atCorner num_cols qubit_num node (bottomRight num_cols qubit_num) (bottomLeft num_cols qubit_num)
    (topRight num_cols qubit_num) (topLeft num_cols qubit_num)

/-- The corner below or above a corner. -/
def find_vertical (qubit_num node : ℕ) : ℕ :=
  atCorner num_cols qubit_num node (bottomLeft num_cols qubit_num) (bottomRight num_cols qubit_num)
    (topLeft num_cols qubit_num) (topRight num_cols qubit_num)

/-- The corner beside a corner. -/
def find_horizontal (qubit_num node : ℕ) : ℕ :=
  atCorner num_cols qubit_num node (topRight num_cols qubit_num) (topLeft num_cols qubit_num)
    (bottomRight num_cols qubit_num) (bottomLeft num_cols qubit_num)

/-- The corner of a qubit that is nearest to a node. -/
def find_nearest (qubit_num src_node : ℕ) : ℕ :=
  let qubit_top_left_row := qubit_num / num_cols
  let qubit_top_left_col := qubit_num % num_cols
  let src_row := src_node / (num_cols + 1)
  let src_col := src_node % (num_cols + 1)
  if src_row ≤ qubit_top_left_row then
    if src_col ≤ qubit_top_left_col then topLeft num_cols qubit_num
    else topRight num_cols qubit_num
  else if src_col ≤ qubit_top_left_col then bottomLeft num_cols qubit_num
  else bottomRight num_cols qubit_num

/-- Whether two qubits are next to each other in a row. -/
def are_adjacent (src_qubit dest_qubit : ℕ) : Bool :=
  let src_col := src_qubit % num_cols
  let dest_col := dest_qubit % num_cols
  src_qubit / num_cols = dest_qubit / num_cols && max src_col dest_col - min src_col dest_col = 1

/-! ## Pieces of routes -/

/-- One route and then another. -/
def braid_merge (braid1 braid2 : Route) : Route :=
  ⟨braid1.nodes ++ braid2.nodes, braid1.links ++ braid2.links⟩

/-- An L around a qubit from one of its corners, with the short part first. -/
def braid_short_L (qubit_num src_node : ℕ) : Route :=
  let n2 := find_horizontal num_cols qubit_num src_node
  let n3 := find_diagonal num_cols qubit_num src_node
  ⟨[n2, n3], [edge src_node n2, edge n2 n3]⟩

/-- An S through a qubit from one of its corners. -/
def braid_S (qubit_num src_node : ℕ) : Route :=
  let n2 := find_diagonal num_cols qubit_num src_node
  ⟨[n2], [edge src_node (find_vertical num_cols qubit_num src_node),
    edge n2 (find_horizontal num_cols qubit_num src_node)]⟩

/-- One closer to a row or a column. -/
def closer (src dest : ℕ) : ℕ := if src < dest then src + 1 else src - 1

/-- The loop along a row to a column, with the number of steps there are. -/
def dorCols (src_row dest_col : ℕ) : ℕ → ℕ → ℕ → Route
  | 0, _, _ => ⟨[], []⟩
  | steps + 1, src_col, src_node =>
    if src_col ≠ dest_col then
      let src_col := closer src_col dest_col
      let src_node_next := src_row * (num_cols + 1) + src_col
      braid_merge ⟨[src_node_next], [edge src_node src_node_next]⟩
        (dorCols src_row dest_col steps src_col src_node_next)
    else ⟨[], []⟩

/-- The loop along a column to a row. -/
def dorRows (src_col dest_row : ℕ) : ℕ → ℕ → ℕ → Route
  | 0, _, _ => ⟨[], []⟩
  | steps + 1, src_row, src_node =>
    if src_row ≠ dest_row then
      let src_row := closer src_row dest_row
      let src_node_next := src_row * (num_cols + 1) + src_col
      braid_merge ⟨[src_node_next], [edge src_node src_node_next]⟩
        (dorRows src_col dest_row steps src_row src_node_next)
    else ⟨[], []⟩

/-- How far two rows or columns are apart. -/
def apart (a b : ℕ) : ℕ := max a b - min a b

/-- The route between two nodes, with the columns or the rows first. -/
def braid_dor (src_node dest_node : ℕ) (YX : Bool) : Route :=
  let src_row := src_node / (num_cols + 1)
  let src_col := src_node % (num_cols + 1)
  let dest_row := dest_node / (num_cols + 1)
  let dest_col := dest_node % (num_cols + 1)
  if YX then
    braid_merge (dorCols num_cols src_row dest_col (apart src_col dest_col) src_col src_node)
      (dorRows num_cols dest_col dest_row (apart src_row dest_row) src_row
        (src_row * (num_cols + 1) + dest_col))
  else
    braid_merge (dorRows num_cols src_col dest_row (apart src_row dest_row) src_row src_node)
      (dorCols num_cols dest_row dest_col (apart src_col dest_col) src_col
        (dest_row * (num_cols + 1) + src_col))

/-! ## The routes -/

/-- The ancillas of a `CNOT`, which are corners of the first qubit. -/
def cnot_ancillas (src_qubit dest_qubit : ℕ) : ℕ × ℕ :=
  if are_adjacent num_cols src_qubit dest_qubit then
    if src_qubit < dest_qubit then (topLeft num_cols src_qubit, bottomLeft num_cols src_qubit)
    else (topRight num_cols src_qubit, bottomRight num_cols src_qubit)
  else if src_qubit / num_cols < dest_qubit / num_cols then
    (topRight num_cols src_qubit, topLeft num_cols src_qubit)
  else (bottomLeft num_cols src_qubit, bottomRight num_cols src_qubit)

def cnot_routes (src_qubit dest_qubit anc1 : ℕ) (YX : Bool) : Route × Route :=
  if are_adjacent num_cols src_qubit dest_qubit then
    let middle_top := find_horizontal num_cols src_qubit anc1
    let middle_bottom := find_diagonal num_cols src_qubit anc1
    let dest_bottom := find_horizontal num_cols dest_qubit middle_bottom
    let l1 := edge anc1 (find_vertical num_cols src_qubit anc1)
    let l2 := edge middle_top middle_bottom
    let l3 := edge dest_bottom (find_vertical num_cols dest_qubit dest_bottom)
    let l4 := edge dest_bottom middle_bottom
    (⟨[dest_bottom], [l1, l2, l3]⟩,
      ⟨[middle_bottom, find_vertical num_cols src_qubit anc1], [l4, l2, l1]⟩)
  else
    -- from the ancilla round the source, across the mesh, and round the destination
    let diag_anc1 := find_diagonal num_cols src_qubit anc1
    let nearest_dest_node := find_nearest num_cols dest_qubit diag_anc1
    let S_section_1 := braid_S num_cols src_qubit anc1
    let dor_section_1 := braid_dor num_cols diag_anc1 nearest_dest_node YX
    let S_section_2 := braid_S num_cols dest_qubit nearest_dest_node
    let diag_nearest_dest_node := find_diagonal num_cols dest_qubit nearest_dest_node
    let short_L_section_1 := braid_short_L num_cols dest_qubit diag_nearest_dest_node
    let vertical_anc1 := find_vertical num_cols src_qubit anc1
    let dor_section_2 := braid_dor num_cols nearest_dest_node vertical_anc1 YX
    let S_section_3 := braid_S num_cols src_qubit vertical_anc1
    (braid_merge (braid_merge S_section_1 dor_section_1) S_section_2,
      braid_merge (braid_merge short_L_section_1 dor_section_2) S_section_3)

/-- Where the braids of two qubits run on a mesh. -/
def meshRouting : Routing where
  cnot_ancillas := cnot_ancillas num_cols
  anc_link src dest := edge (cnot_ancillas num_cols src dest).1 (cnot_ancillas num_cols src dest).2
  cnot_routes src dest YX := cnot_routes num_cols src dest (cnot_ancillas num_cols src dest).1 YX
  are_adjacent := are_adjacent num_cols

/-! ## Where routes end -/

/-- What the two versions of a route have in common: they end at the same node, and with the same
link. -/
structure SameEnds (R : Routing) : Prop where
  ne_nil : ∀ src dest, (R.cnot_routes src dest false).1.nodes ≠ []
  node : ∀ src dest, R.are_adjacent src dest = false →
    (R.cnot_routes src dest true).1.nodes.getLast?
      = (R.cnot_routes src dest false).1.nodes.getLast?
  link : ∀ src dest, R.are_adjacent src dest = false →
    (R.cnot_routes src dest true).2.links.getLast?
      = (R.cnot_routes src dest false).2.links.getLast?

theorem sameEnds_meshRouting : SameEnds (meshRouting num_cols) := by
  refine ⟨fun src dest ↦ ?_, fun src dest h ↦ ?_, fun src dest h ↦ ?_⟩
  · cases h : are_adjacent num_cols src dest <;>
      simp [meshRouting, cnot_routes, h, braid_merge, braid_S]
  · change are_adjacent num_cols src dest = false at h
    simp only [meshRouting, cnot_routes, h, Bool.false_eq_true, if_false, braid_merge, braid_S,
      List.getLast?_concat]
  · change are_adjacent num_cols src dest = false at h
    simp only [meshRouting, cnot_routes, h, Bool.false_eq_true, if_false, braid_merge, braid_S,
      List.getLast?_append]
    rfl

end ScaffCC.Braid
