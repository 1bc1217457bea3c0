import Mathlib.Algebra.Group.Int.Defs
import Mathlib.Algebra.Group.Nat.Defs
import Mathlib.Data.Nat.Sqrt
import Mathlib.Tactic.Common

/-!
# The mesh of a module

The tiles of a mesh are numbered row by row. The mesh is as close to a square as the number of tiles
allows, and the factories of magic states are put in the middle of it. How many tiles a factory has
comes from its area, in the same way as for the mesh.

All numbers here are `unsigned`. A factory of no area has no rows, and so one column less than no
column: its block is empty, and the magic states come out at tiles that are counted back from the
middle of the mesh.

The layout with factories on the periphery is not made: its loops go on by ratios that are never
set.
-/

namespace ScaffCC.Braid

/-- The `unsigned` a number is converted to. -/
def unsigned (z : ℤ) : ℕ := (z % 2 ^ 32).toNat

theorem unsigned_natCast {n : ℕ} (h : n < 2 ^ 32) : unsigned n = n := by
  rw [unsigned]
  omega

def num_rows (q_count : ℕ) : ℕ := if q_count = 0 then 0 else Nat.sqrt (q_count - 1) + 1

def num_cols (q_count : ℕ) : ℕ :=
  if num_rows q_count * (num_rows q_count - 1) < q_count then num_rows q_count
  else unsigned (num_rows q_count - 1)

/-- The tiles of a block of `rows` and `cols` in the middle of the mesh. -/
def factory_block (num_rows num_cols rows cols : ℕ) : List ℕ :=
  let factory_start_i := unsigned (num_rows - rows) / 2
  let factory_start_j := unsigned (num_cols - cols) / 2
  (List.range' factory_start_i rows).flatMap fun i ↦
    (List.range' factory_start_j cols).map fun j ↦ i * num_cols + j

/-- The tiles where the magic states of a block come out: at the top, the right, the bottom and the
left, and again with the next stride, as many as there are ports. -/
def state_ids (num_cols factory_start_i factory_start_j rows cols : ℤ) : ℕ → ℤ → List ℕ
  | 0, _ => []
  | ports + 1, stride =>
    let top := factory_start_i * num_cols + factory_start_j + stride
    let right := (factory_start_i + stride) * num_cols + factory_start_j + cols - 1
    let bottom := (factory_start_i + rows - 1) * num_cols + factory_start_j + cols - 1 - stride
    let left := (factory_start_i + rows - 1 - stride) * num_cols + factory_start_j
    match ports with
    | 0 => [unsigned top]
    | 1 => [unsigned top, unsigned right]
    | 2 => [unsigned top, unsigned right, unsigned bottom]
    | ports + 3 => unsigned top :: unsigned right :: unsigned bottom :: unsigned left ::
        state_ids num_cols factory_start_i factory_start_j rows cols ports (stride + 1)

/-- The columns of the mesh, the cells of the factories, and the cells where magic states come
out. -/
structure Layout where
  num_cols : ℕ
  factory_block_set : List ℕ
  Y_state_ids : List ℕ
  A_state_ids : List ℕ

/-- The factories of a kind: the area of one, how many there are, and the states that come out of
one. -/
structure Factories where
  single_area : ℕ
  num_factories : ℕ
  single_ports : ℕ

/-- The mesh of a module with its factories. The states of both kinds come out around the place of
the second block. -/
def innerLayout (Y A : Factories) (q_count : ℕ) : Layout :=
  let module_q_count := q_count + unsigned (Y.single_area * Y.num_factories) +
    unsigned (A.single_area * A.num_factories)
  let num_rows := Braid.num_rows module_q_count
  let num_cols := Braid.num_cols module_q_count
  let num_rows_Y_factory := Braid.num_rows Y.single_area
  let num_cols_Y_factory := Braid.num_cols Y.single_area
  let num_rows_A_factory := Braid.num_rows A.single_area
  let num_cols_A_factory := Braid.num_cols A.single_area
  let factory_start_i := unsigned (num_rows - num_rows_A_factory) / 2
  let factory_start_j := unsigned (num_cols - num_cols_A_factory) / 2
  { num_cols
    factory_block_set := factory_block num_rows num_cols num_rows_Y_factory num_cols_Y_factory ++
      factory_block num_rows num_cols num_rows_A_factory num_cols_A_factory
    Y_state_ids := state_ids num_cols factory_start_i factory_start_j num_rows_Y_factory
      num_cols_Y_factory Y.single_ports 0
    A_state_ids := state_ids num_cols factory_start_i factory_start_j num_rows_A_factory
      num_cols_A_factory A.single_ports 0 }

end ScaffCC.Braid
