import Mathlib.Computability.StateTransition
import ScaffCC.Braid.Route

/-!
# Dimension ordered routes

The route from a node to another one goes along the row and then along the column, or the other way
round. Every step is to a node next to the last one and one closer to the end, so the route has as
many nodes as the two are apart and meets no node twice.

In the source the row and the column are unsigned variables to which `1` or `-1` is added until they
are equal to those of the end. The loops come to their end, and no step wraps around as long as the
nodes of the mesh can be numbered at all.
-/

open StateTransition

namespace ScaffCC.Braid

/-! ## Nodes next to each other -/

/-- How far two nodes are apart, along the rows and the columns. -/
def distance (num_cols u v : ℕ) : ℕ :=
  apart (u / (num_cols + 1)) (v / (num_cols + 1)) + apart (u % (num_cols + 1)) (v % (num_cols + 1))

/-- Two nodes of the mesh next to each other. -/
def Shape.Adjacent (S : Shape) (u v : ℕ) : Prop :=
  u < S.nodes ∧ v < S.nodes ∧ distance S.num_cols u v = 1

/-- A simple path in the mesh, without its first node, and as short as one can be. -/
structure Shape.IsPath (S : Shape) (src dest : ℕ) (route : Route) : Prop where
  adjacent : (src :: route.nodes).IsChain S.Adjacent
  nodup : (src :: route.nodes).Nodup
  last : (src :: route.nodes).getLast? = some dest
  links : route.links = List.zipWith edge (src :: route.nodes) route.nodes
  mem_links : ∀ l ∈ route.links, l ∈ S.links
  length_links : route.links.length = route.nodes.length
  length_nodes : route.nodes.length = distance S.num_cols src dest

variable {S : Shape} {r c d u v w dest : ℕ} {route route' : Route}

private theorem row_node (r : ℕ) {num_cols c : ℕ} (hc : c ≤ num_cols) :
    (r * (num_cols + 1) + c) / (num_cols + 1) = r := by
  rw [mul_comm r, Nat.mul_add_div num_cols.succ_pos, Nat.div_eq_of_lt (by omega), add_zero]

private theorem col_node (r : ℕ) {num_cols c : ℕ} (hc : c ≤ num_cols) :
    (r * (num_cols + 1) + c) % (num_cols + 1) = c := by
  rw [Nat.mul_add_mod_self_right, Nat.mod_eq_of_lt (by omega)]

theorem distance_node {num_cols c : ℕ} (hc : c ≤ num_cols) (r v : ℕ) :
    distance num_cols (r * (num_cols + 1) + c) v
      = apart r (v / (num_cols + 1)) + apart c (v % (num_cols + 1)) := by
  rw [distance, row_node r hc, col_node r hc]

theorem link_right (hr : r ≤ S.num_rows) (hc : c < S.num_cols) :
    edge (r * (S.num_cols + 1) + c) (r * (S.num_cols + 1) + (c + 1)) ∈ S.links :=
  Program.mem_visitedLinks.mp <| Program.mem_visitedLinks_iff.mpr
    ⟨r, c, hr, hc.le, .inl ⟨hc.ne, rfl⟩⟩

theorem link_down (hr : r < S.num_rows) (hc : c ≤ S.num_cols) :
    edge (r * (S.num_cols + 1) + c) ((r + 1) * (S.num_cols + 1) + c) ∈ S.links := by
  refine Program.mem_visitedLinks.mp <| Program.mem_visitedLinks_iff.mpr
    ⟨r, c, hr.le, hc, .inr ⟨hr.ne, congrArg _ ?_⟩⟩
  rw [Nat.add_one_mul]
  omega

/-! ## Legs of a route -/

/-- A step to a node next to the last one and closer to the end. -/
def Shape.Toward (S : Shape) (dest u v : ℕ) : Prop :=
  S.Adjacent u v ∧ edge u v ∈ S.links ∧
    distance S.num_cols u dest = distance S.num_cols v dest + 1

/-- A part of a route, all of whose steps lead closer to the end. -/
inductive Leg (S : Shape) (dest : ℕ) : ℕ → ℕ → Route → Prop
  | nil (u : ℕ) : Leg S dest u u ⟨[], []⟩
  | cons {u v w : ℕ} {route : Route} : S.Toward dest u w → Leg S dest w v route →
      Leg S dest u v (braid_merge ⟨[w], [edge u w]⟩ route)

namespace Leg

theorem trans (h : Leg S dest u v route) (h' : Leg S dest v w route') :
    Leg S dest u w (braid_merge route route') := by
  induction h with
  | nil u => exact h'
  | cons hstep _ ih => exact .cons hstep (ih h')

theorem isChain (h : Leg S dest u v route) : (u :: route.nodes).IsChain S.Adjacent := by
  induction h with
  | nil u => exact List.isChain_singleton u
  | cons hstep _ ih => exact .cons_cons hstep.1 ih

theorem getLast (h : Leg S dest u v route) : (u :: route.nodes).getLast? = some v := by
  induction h with
  | nil u => rfl
  | cons hstep _ ih =>
    change (_ :: _ :: _).getLast? = _
    rw [List.getLast?_cons_cons]
    exact ih

theorem links_eq (h : Leg S dest u v route) :
    route.links = List.zipWith edge (u :: route.nodes) route.nodes := by
  induction h with
  | nil u => rfl
  | cons hstep _ ih => exact congrArg (List.cons _) ih

theorem mem_links (h : Leg S dest u v route) : ∀ l ∈ route.links, l ∈ S.links := by
  induction h with
  | nil u => exact List.forall_mem_nil _
  | cons hstep _ ih => exact List.forall_mem_cons.mpr ⟨hstep.2.1, ih⟩

/-- The route is as long as it leads closer to the end. -/
theorem length_add (h : Leg S dest u v route) :
    route.nodes.length + distance S.num_cols v dest = distance S.num_cols u dest := by
  induction h with
  | nil u => exact Nat.zero_add _
  | @cons u v w route hstep _ ih =>
    have hlen : (braid_merge ⟨[w], [edge u w]⟩ route).nodes.length = route.nodes.length + 1 := rfl
    have := hstep.2.2
    omega

theorem distance_lt (h : Leg S dest u v route) :
    ∀ x ∈ route.nodes, distance S.num_cols x dest < distance S.num_cols u dest := by
  induction h with
  | nil u => exact List.forall_mem_nil _
  | @cons u v w route hstep _ ih =>
    have hcloser : distance S.num_cols w dest < distance S.num_cols u dest := by
      have := hstep.2.2
      omega
    exact List.forall_mem_cons.mpr ⟨hcloser, fun x hx ↦ (ih x hx).trans hcloser⟩

theorem nodup (h : Leg S dest u v route) : (u :: route.nodes).Nodup := by
  have hnot : u ∉ route.nodes := fun hu ↦ lt_irrefl _ (h.distance_lt u hu)
  refine List.nodup_cons.mpr ⟨hnot, ?_⟩
  induction h with
  | nil u => exact List.nodup_nil
  | cons _ h ih =>
    have hnot' := fun hw ↦ lt_irrefl _ (h.distance_lt _ hw)
    exact List.nodup_cons.mpr ⟨hnot', ih hnot'⟩

theorem isPath (h : Leg S dest u dest route) : S.IsPath u dest route := by
  have hzero : distance S.num_cols dest dest = 0 := by simp [distance, apart]
  refine ⟨h.isChain, h.nodup, h.getLast, h.links_eq, h.mem_links, ?_, ?_⟩
  · rw [h.links_eq, List.length_zipWith, List.length_cons]
    omega
  · have := h.length_add
    omega

end Leg

/-! ## The two loops -/

theorem closer_cases {a b : ℕ} (h : a ≠ b) :
    (a < b ∧ closer a b = a + 1) ∨ (b < a ∧ closer a b = a - 1) := by
  rcases lt_or_gt_of_ne h with hlt | hlt
  · exact .inl ⟨hlt, if_pos hlt⟩
  · exact .inr ⟨hlt, if_neg hlt.not_gt⟩

theorem apart_closer {a b : ℕ} (h : a ≠ b) : apart a b = apart (closer a b) b + 1 := by
  rcases closer_cases h with ⟨hlt, heq⟩ | ⟨hlt, heq⟩
  all_goals
    rw [heq, apart, apart]
    omega

theorem closer_le {a b n : ℕ} (ha : a ≤ n) (hb : b ≤ n) : closer a b ≤ n := by
  rw [closer]
  split_ifs <;> omega

/-- The nodes that a row or a column runs through while one of its numbers comes closer to
another. -/
def along (node : ℕ → ℕ) (dest : ℕ) : ℕ → ℕ → Route
  | 0, _ => ⟨[], []⟩
  | steps + 1, src =>
    if src ≠ dest then
      braid_merge ⟨[node (closer src dest)], [edge (node src) (node (closer src dest))]⟩
        (along node dest steps (closer src dest))
    else ⟨[], []⟩

theorem dorCols_eq_along (num_cols row dest steps col : ℕ) :
    dorCols num_cols row dest steps col (row * (num_cols + 1) + col)
      = along (fun c ↦ row * (num_cols + 1) + c) dest steps col := by
  induction steps generalizing col with
  | zero => rfl
  | succ steps ih => rw [dorCols, along, ← ih]

theorem dorRows_eq_along (num_cols col dest steps row : ℕ) :
    dorRows num_cols col dest steps row (row * (num_cols + 1) + col)
      = along (fun r ↦ r * (num_cols + 1) + col) dest steps row := by
  induction steps generalizing row with
  | zero => rfl
  | succ steps ih => rw [dorRows, along, ← ih]

/-- A loop whose steps lead closer to the end is a leg. -/
theorem along_leg (node : ℕ → ℕ) {bound : ℕ} (hd : d ≤ bound)
    (hstep : ∀ c ≤ bound, c ≠ d → S.Toward dest (node c) (node (closer c d))) (hc : c ≤ bound) :
    Leg S dest (node c) (node d) (along node d (apart c d) c) := by
  generalize hn : apart c d = n
  induction n generalizing c with
  | zero =>
    obtain rfl : c = d := by
      rw [apart] at hn
      omega
    exact .nil _
  | succ n ih =>
    have hcd : c ≠ d := by
      rintro rfl
      simp [apart] at hn
    have hcount := apart_closer hcd
    rw [along, if_pos hcd]
    exact .cons (hstep c hc hcd) (ih (closer_le hc hd) (by omega))

theorem toward_col (hr : r ≤ S.num_rows) (hc : c ≤ S.num_cols) (hd : d ≤ S.num_cols) (hcd : c ≠ d)
    (hdest : dest % (S.num_cols + 1) = d) :
    S.Toward dest (r * (S.num_cols + 1) + c) (r * (S.num_cols + 1) + closer c d) := by
  have hcloser : closer c d ≤ S.num_cols := closer_le hc hd
  refine ⟨⟨Program.lt_nodes_iff.mpr ⟨r, c, hr, hc, rfl⟩,
    Program.lt_nodes_iff.mpr ⟨r, _, hr, hcloser, rfl⟩, ?_⟩, ?_, ?_⟩
  · rw [distance_node hc, row_node r hcloser, col_node r hcloser, apart, apart]
    rcases closer_cases hcd with ⟨hlt, heq⟩ | ⟨hlt, heq⟩ <;> omega
  · rcases closer_cases hcd with ⟨hlt, heq⟩ | ⟨hlt, heq⟩
    · rw [heq]
      exact link_right hr (by omega)
    · obtain ⟨c, rfl⟩ := Nat.exists_eq_add_one_of_ne_zero (Nat.ne_zero_of_lt hlt)
      rw [heq, Program.edge_comm]
      exact link_right hr (by omega)
  · rw [distance_node hc, distance_node hcloser, hdest, apart_closer hcd, add_assoc]

theorem toward_row (hr : r ≤ S.num_rows) (hc : c ≤ S.num_cols) (hd : d ≤ S.num_rows) (hrd : r ≠ d)
    (hdest : dest / (S.num_cols + 1) = d) :
    S.Toward dest (r * (S.num_cols + 1) + c) (closer r d * (S.num_cols + 1) + c) := by
  have hcloser : closer r d ≤ S.num_rows := closer_le hr hd
  refine ⟨⟨Program.lt_nodes_iff.mpr ⟨r, c, hr, hc, rfl⟩,
    Program.lt_nodes_iff.mpr ⟨_, c, hcloser, hc, rfl⟩, ?_⟩, ?_, ?_⟩
  · rw [distance_node hc, row_node _ hc, col_node _ hc, apart, apart]
    rcases closer_cases hrd with ⟨hlt, heq⟩ | ⟨hlt, heq⟩ <;> omega
  · rcases closer_cases hrd with ⟨hlt, heq⟩ | ⟨hlt, heq⟩
    · rw [heq]
      exact link_down (by omega) hc
    · obtain ⟨r, rfl⟩ := Nat.exists_eq_add_one_of_ne_zero (Nat.ne_zero_of_lt hlt)
      rw [heq, Program.edge_comm]
      exact link_down (by omega) hc
  · rw [distance_node hc, distance_node hc, hdest, apart_closer hrd, add_right_comm]

theorem dorCols_leg (hr : r ≤ S.num_rows) (hc : c ≤ S.num_cols) (hd : d ≤ S.num_cols)
    (hdest : dest % (S.num_cols + 1) = d) :
    Leg S dest (r * (S.num_cols + 1) + c) (r * (S.num_cols + 1) + d)
      (dorCols S.num_cols r d (apart c d) c (r * (S.num_cols + 1) + c)) := by
  rw [dorCols_eq_along]
  exact along_leg _ hd (fun c hc hcd ↦ toward_col hr hc hd hcd hdest) hc

theorem dorRows_leg (hr : r ≤ S.num_rows) (hc : c ≤ S.num_cols) (hd : d ≤ S.num_rows)
    (hdest : dest / (S.num_cols + 1) = d) :
    Leg S dest (r * (S.num_cols + 1) + c) (d * (S.num_cols + 1) + c)
      (dorRows S.num_cols c d (apart r d) r (r * (S.num_cols + 1) + c)) := by
  rw [dorRows_eq_along]
  exact along_leg (fun r ↦ r * (S.num_cols + 1) + c) hd
    (fun r hr hrd ↦ toward_row hr hc hd hrd hdest) hr

/-- **The route.** It is a simple path to the end, whichever comes first. -/
theorem braid_dor_isPath {src : ℕ} (hsrc : src < S.nodes) (hdest : dest < S.nodes) (YX : Bool) :
    S.IsPath src dest (braid_dor S.num_cols src dest YX) := by
  obtain ⟨r, c, hr, hc, rfl⟩ := Program.lt_nodes_iff.mp hsrc
  obtain ⟨r', c', hr', hc', rfl⟩ := Program.lt_nodes_iff.mp hdest
  have hrow := row_node r' hc'
  have hcol := col_node r' hc'
  rw [braid_dor, row_node r hc, col_node r hc, hrow, hcol]
  cases YX with
  | true => exact ((dorCols_leg hr hc hc' hcol).trans (dorRows_leg hr hc' hr' hrow)).isPath
  | false => exact ((dorRows_leg hr hc hr' hrow).trans (dorCols_leg hr' hc hc' hcol)).isPath

/-! ## The loops of the source -/

/-- The variables of `braid_dor` that its loops change. -/
structure DorState where
  src_row : ℕ
  src_col : ℕ
  src_node : ℕ
  dor_route : Route

section Loops

variable (num_cols : ℕ)

/-- What both loops do with a row and a column one closer. -/
def DorState.advance (s : DorState) (src_row src_col : ℕ) : DorState :=
  let src_node_next := unsigned (src_row * unsigned (num_cols + 1) + src_col)
  ⟨src_row, src_col, src_node_next,
    braid_merge s.dor_route ⟨[src_node_next], [edge s.src_node src_node_next]⟩⟩

/-- A round of the loop along a row. -/
def colRound (dest_col : ℕ) (col_dir : ℤ) (s : DorState) : Option DorState :=
  if s.src_col ≠ dest_col then
    some (s.advance num_cols s.src_row (unsigned (s.src_col + col_dir)))
  else none

/-- A round of the loop along a column. -/
def rowRound (dest_row : ℕ) (row_dir : ℤ) (s : DorState) : Option DorState :=
  if s.src_row ≠ dest_row then
    some (s.advance num_cols (unsigned (s.src_row + row_dir)) s.src_col)
  else none

/-- `row_dir` and `col_dir`. -/
def direction (src dest : ℕ) : ℤ := if src < dest then 1 else -1

/-- `braid_dor` with its loops, undefined if one of them has no end. -/
def dorLoops (src_node dest_node : ℕ) (YX : Bool) : Part Route :=
  let src_row := src_node / unsigned (num_cols + 1)
  let src_col := src_node % unsigned (num_cols + 1)
  let dest_row := dest_node / unsigned (num_cols + 1)
  let dest_col := dest_node % unsigned (num_cols + 1)
  let cols := eval (colRound num_cols dest_col (direction src_col dest_col))
  let rows := eval (rowRound num_cols dest_row (direction src_row dest_row))
  let s := ⟨src_row, src_col, src_node, ⟨[], []⟩⟩
  (if YX then (cols s).bind rows else (rows s).bind cols).map DorState.dor_route

end Loops

theorem unsigned_add_direction {a b : ℕ} (ha : a < 2 ^ 32) (hb : b < 2 ^ 32) (h : a ≠ b) :
    unsigned (a + direction a b) = closer a b ∧
      (closer a b ≠ b → direction a b = direction (closer a b) b) := by
  rw [unsigned, direction, direction]
  rcases closer_cases h with ⟨hlt, heq⟩ | ⟨hlt, heq⟩
  · rw [heq, if_pos hlt]
    refine ⟨by omega, fun hne ↦ (if_pos (by omega)).symm⟩
  · rw [heq, if_neg hlt.not_gt]
    refine ⟨by omega, fun hne ↦ (if_neg (by omega)).symm⟩

theorem unsigned_width (h : S.nodes < 2 ^ 32) :
    unsigned (S.num_cols + 1) = S.num_cols + 1 := by
  have hle : S.num_cols + 1 ≤ S.nodes := Nat.le_mul_of_pos_left _ S.num_rows.succ_pos
  exact_mod_cast unsigned_natCast (n := S.num_cols + 1) (by omega)

theorem unsigned_node (h : S.nodes < 2 ^ 32) (hr : r ≤ S.num_rows) (hc : c ≤ S.num_cols) :
    unsigned (r * unsigned (S.num_cols + 1) + c) = r * (S.num_cols + 1) + c := by
  have hlt := Program.lt_nodes_iff.mpr ⟨r, c, hr, hc, rfl⟩
  rw [unsigned_width h]
  exact_mod_cast unsigned_natCast (hlt.trans h)

theorem num_cols_lt (h : S.nodes < 2 ^ 32) : S.num_cols < 2 ^ 32 :=
  (Nat.lt_of_lt_of_le S.num_cols.lt_succ_self
    (Nat.le_mul_of_pos_left _ S.num_rows.succ_pos)).trans h

theorem num_rows_lt (h : S.nodes < 2 ^ 32) : S.num_rows < 2 ^ 32 :=
  (Nat.lt_of_lt_of_le S.num_rows.lt_succ_self
    (Nat.le_mul_of_pos_right _ S.num_cols.succ_pos)).trans h

/-- A loop that comes closer to a number of the end ends there. -/
theorem mem_eval_along {f : DorState → Option DorState} (state : ℕ → Route → DorState)
    {node : ℕ → ℕ} {bound : ℕ} {dir : ℤ} (hbound : bound < 2 ^ 32) (hd : d ≤ bound)
    (hstop : ∀ route, f (state d route) = none)
    (hround : ∀ c ≤ bound, c ≠ d → direction c d = dir → ∀ route, f (state c route)
      = some (state (closer c d)
        (braid_merge route ⟨[node (closer c d)], [edge (node c) (node (closer c d))]⟩)))
    (hc : c ≤ bound) (hdir : c ≠ d → direction c d = dir) (route : Route) :
    state d (braid_merge route (along node d (apart c d) c)) ∈ eval f (state c route) := by
  generalize hn : apart c d = n
  induction n generalizing c route with
  | zero =>
    obtain rfl : c = d := by
      rw [apart] at hn
      omega
    simpa [along, braid_merge] using mem_eval.mpr ⟨.refl, hstop route⟩
  | succ n ih =>
    have hcd : c ≠ d := by
      rintro rfl
      simp [apart] at hn
    have hcount := apart_closer hcd
    obtain ⟨-, hsame⟩ := unsigned_add_direction (hc.trans_lt hbound) (hd.trans_lt hbound) hcd
    have hrest := ih (closer_le hc hd) (fun hne ↦ (hsame hne).symm.trans (hdir hcd))
      (braid_merge route ⟨[node (closer c d)], [edge (node c) (node (closer c d))]⟩) (by omega)
    rw [reaches_eval (.single (hround c hc hcd (hdir hcd) route)), along, if_pos hcd]
    simpa [braid_merge] using hrest

theorem mem_eval_colRound (h : S.nodes < 2 ^ 32) (hr : r ≤ S.num_rows) (hc : c ≤ S.num_cols)
    (hd : d ≤ S.num_cols) (route : Route) :
    ⟨r, d, r * (S.num_cols + 1) + d,
        braid_merge route (dorCols S.num_cols r d (apart c d) c (r * (S.num_cols + 1) + c))⟩
      ∈ eval (colRound S.num_cols d (direction c d)) ⟨r, c, r * (S.num_cols + 1) + c, route⟩ := by
  have hbound := num_cols_lt h
  rw [dorCols_eq_along]
  refine mem_eval_along (fun c route ↦ ⟨r, c, r * (S.num_cols + 1) + c, route⟩) hbound hd
    (fun route ↦ if_neg (not_not.mpr rfl)) (fun c' hc' hcd hdir route ↦ ?_) hc (fun _ ↦ rfl) route
  have hnext := (unsigned_add_direction (hc'.trans_lt hbound) (hd.trans_lt hbound) hcd).1
  rw [colRound, if_pos hcd, ← hdir, hnext, DorState.advance, unsigned_node h hr (closer_le hc' hd)]

theorem mem_eval_rowRound (h : S.nodes < 2 ^ 32) (hr : r ≤ S.num_rows) (hc : c ≤ S.num_cols)
    (hd : d ≤ S.num_rows) (route : Route) :
    ⟨d, c, d * (S.num_cols + 1) + c,
        braid_merge route (dorRows S.num_cols c d (apart r d) r (r * (S.num_cols + 1) + c))⟩
      ∈ eval (rowRound S.num_cols d (direction r d)) ⟨r, c, r * (S.num_cols + 1) + c, route⟩ := by
  have hbound := num_rows_lt h
  rw [dorRows_eq_along]
  refine mem_eval_along (fun r route ↦ ⟨r, c, r * (S.num_cols + 1) + c, route⟩) hbound hd
    (fun route ↦ if_neg (not_not.mpr rfl)) (fun r' hr' hrd hdir route ↦ ?_) hr (fun _ ↦ rfl) route
  have hnext := (unsigned_add_direction (hr'.trans_lt hbound) (hd.trans_lt hbound) hrd).1
  rw [rowRound, if_pos hrd, ← hdir, hnext, DorState.advance, unsigned_node h (closer_le hr' hd) hc]

theorem braid_dor_mem_dorLoops {src : ℕ} (h : S.nodes < 2 ^ 32) (hsrc : src < S.nodes)
    (hdest : dest < S.nodes) (YX : Bool) :
    braid_dor S.num_cols src dest YX ∈ dorLoops S.num_cols src dest YX := by
  obtain ⟨r, c, hr, hc, rfl⟩ := Program.lt_nodes_iff.mp hsrc
  obtain ⟨r', c', hr', hc', rfl⟩ := Program.lt_nodes_iff.mp hdest
  rw [braid_dor, dorLoops, unsigned_width h, row_node r hc, col_node r hc, row_node r' hc',
    col_node r' hc']
  refine Part.mem_map_iff _ |>.mpr ?_
  cases YX with
  | true =>
    exact ⟨_, Part.mem_bind (mem_eval_colRound h hr hc hc' ⟨[], []⟩)
      (mem_eval_rowRound h hr hc' hr' _), rfl⟩
  | false =>
    exact ⟨_, Part.mem_bind (mem_eval_rowRound h hr hc hr' ⟨[], []⟩)
      (mem_eval_colRound h hr' hc hc' _), rfl⟩

/-- **Dimension ordered routes.** Both ways round the loops come to their end, the route is a
simple path as short as possible, and so the two have the same ends and the same length. -/
theorem dor_right {src : ℕ} (hsrc : src < S.nodes) (hdest : dest < S.nodes) :
    (∀ YX, S.IsPath src dest (braid_dor S.num_cols src dest YX) ∧
      (S.nodes < 2 ^ 32 →
        braid_dor S.num_cols src dest YX ∈ dorLoops S.num_cols src dest YX)) ∧
      (src :: (braid_dor S.num_cols src dest true).nodes).getLast?
        = (src :: (braid_dor S.num_cols src dest false).nodes).getLast? ∧
      (braid_dor S.num_cols src dest true).nodes.length
        = (braid_dor S.num_cols src dest false).nodes.length ∧
      (braid_dor S.num_cols src dest true).links.length
        = (braid_dor S.num_cols src dest false).links.length := by
  have hpath := braid_dor_isPath hsrc hdest
  have hnodes := (hpath true).length_nodes.trans (hpath false).length_nodes.symm
  refine ⟨fun YX ↦ ⟨hpath YX, fun h ↦ braid_dor_mem_dorLoops h hsrc hdest YX⟩,
    (hpath true).last.trans (hpath false).last.symm, hnodes, ?_⟩
  rw [(hpath true).length_links, (hpath false).length_links, hnodes]

theorem dor_right_square :
    (∀ YX, (⟨2, 2⟩ : Shape).IsPath 0 5 (braid_dor 2 0 5 YX) ∧
      ((⟨2, 2⟩ : Shape).nodes < 2 ^ 32 → braid_dor 2 0 5 YX ∈ dorLoops 2 0 5 YX)) ∧
      (0 :: (braid_dor 2 0 5 true).nodes).getLast? = (0 :: (braid_dor 2 0 5 false).nodes).getLast? ∧
      (braid_dor 2 0 5 true).nodes.length = (braid_dor 2 0 5 false).nodes.length ∧
      (braid_dor 2 0 5 true).links.length = (braid_dor 2 0 5 false).links.length :=
  dor_right (S := ⟨2, 2⟩) (by decide) (by decide)

end ScaffCC.Braid
