import Mathlib.Data.List.Lattice
import Mathlib.Data.List.Nodup
import Mathlib.Data.List.Perm.Basic
import Mathlib.Tactic.Linarith
import Mathlib.Tactic.Ring
import Mathlib.Tactic.Zify

/-!
# Placing the nodes of a module

The recursive bisection of the layout optimiser. The graph is cut in two by an external
partitioner, whose answer is corrected until the parts have the wanted sizes, and the rectangle is
cut along with it. The partitioner is a parameter: it answers a part for every node, as it likes.
-/

namespace ScaffCC.Arrange

/-! ## The source -/

/-- A point; `y` grows downwards. -/
@[ext]
structure Point where
  x : ℤ
  y : ℤ
deriving DecidableEq

/-- A node of the interaction graph, with the weight of the edge to every node. -/
structure Node where
  index : ℕ
  weights : List ℕ
deriving DecidableEq

/-- The edges among some nodes, each counted at both its ends; a loop has one. -/
def countNumEdges (nodes : List Node) : ℕ :=
  (nodes.map fun src ↦ nodes.countP fun dst ↦ src.weights.getD dst.index 0 ≠ 0).sum / 2

/-- The numbers `a`, …, `b - 1`. -/
def range (a b : ℤ) : List ℤ :=
  (List.range (b - a).toNat).map fun i : ℕ ↦ a + i

/-- Some nodes are popped off one list and appended to the other. -/
def popAppend {α : Type*} : ℕ → List α → List α → Option (List α × List α)
  | 0, src, dst => some (src, dst)
  | k + 1, src, dst =>
    match src.getLast? with
    | none => none
    | some node => popAppend k src.dropLast (dst ++ [node])

/-- The answer of the partitioner, corrected until the first part has the wanted size. -/
def partition (part : ℕ → Bool) (nodes : List Node) (size : ℤ) :
    Option (List Node × List Node) := do
  let nodesTl := (nodes.zipIdx.filter fun p ↦ !part p.2).map Prod.fst
  let nodesBr := (nodes.zipIdx.filter fun p ↦ part p.2).map Prod.fst
  let (nodesTl, nodesBr) ← popAppend (nodesTl.length - size).toNat nodesTl nodesBr
  let (nodesBr, nodesTl) ← popAppend (size - nodesTl.length).toNat nodesBr nodesTl
  return (nodesTl, nodesBr)

def columns (tl br : Point) : List Point :=
  (range tl.x (br.x + 1)).flatMap fun x ↦ (range tl.y (br.y + 1)).map fun y ↦ ⟨x, y⟩

/-- The places of the nodes in a rectangle, nothing on an error or when the fuel is used up. -/
def getLocations (metis : Point → Point → ℕ → Bool) :
    ℕ → List Node → Point → Point → Option (List (Node × Point))
  | 0, _, _, _ => none
  | _ + 1, [node], tl, _ => some [(node, tl)]
  | _ + 1, [node₀, node₁], tl, br => some [(node₀, tl), (node₁, br)]
  | fuel + 1, nodes, tl, br =>
    if countNumEdges nodes = 0 then some (nodes.zip (columns tl br))
    -- only the first call may have room to spare
    else if (nodes.length : ℤ) < (br.x - tl.x + 1) * (br.y - tl.y + 1) then
      if tl ≠ ⟨0, 0⟩ then none
      else
        let rows := (nodes.length : ℤ) / (br.x + 1)
        let size := (br.x + 1) * rows
        if size = nodes.length then getLocations metis fuel nodes ⟨0, 0⟩ ⟨br.x, rows - 1⟩
        else do
          let (nodesTl, nodesBr) ← partition (metis tl br) nodes size
          let ret ← getLocations metis fuel nodesTl ⟨0, 0⟩ ⟨br.x, rows - 1⟩
          let ret' ← getLocations metis fuel nodesBr ⟨0, rows⟩
            ⟨(nodes.length : ℤ) % (br.x + 1) - 1, rows⟩
          return ret ++ ret'
    else if br.x - tl.x > br.y - tl.y then do
      let half := tl.x + (br.x - tl.x - 1) / 2
      let (nodesTl, nodesBr) ←
        partition (metis tl br) nodes ((half - tl.x + 1) * (br.y - tl.y + 1))
      let ret ← getLocations metis fuel nodesTl tl ⟨half, br.y⟩
      let ret' ← getLocations metis fuel nodesBr ⟨half + 1, tl.y⟩ br
      return ret ++ ret'
    else do
      let half := tl.y + (br.y - tl.y - 1) / 2
      let (nodesTl, nodesBr) ←
        partition (metis tl br) nodes ((br.x - tl.x + 1) * (half - tl.y + 1))
      let ret ← getLocations metis fuel nodesTl tl ⟨br.x, half⟩
      let ret' ← getLocations metis fuel nodesBr ⟨tl.x, half + 1⟩ br
      return ret ++ ret'

/-! ## Placements -/

/-- A point lies in a rectangle. -/
def Point.Inside (tl br p : Point) : Prop :=
  tl.x ≤ p.x ∧ p.x ≤ br.x ∧ tl.y ≤ p.y ∧ p.y ≤ br.y

/-- Every node has one place, in the rectangle, and no two nodes have the same place. -/
structure Placed (nodes : List Node) (tl br : Point) (locations : List (Node × Point)) : Prop where
  perm : (locations.map Prod.fst).Perm nodes
  nodup : (locations.map Prod.snd).Nodup
  inside : ∀ l ∈ locations, Point.Inside tl br l.2

theorem Placed.append {nodes nodes₀ nodes₁ : List Node} {tl br tl₀ br₀ tl₁ br₁ : Point}
    {ret₀ ret₁ : List (Node × Point)} (hnodes : (nodes₀ ++ nodes₁).Perm nodes)
    (h₀ : Placed nodes₀ tl₀ br₀ ret₀) (h₁ : Placed nodes₁ tl₁ br₁ ret₁)
    (hin₀ : ∀ p, Point.Inside tl₀ br₀ p → Point.Inside tl br p)
    (hin₁ : ∀ p, Point.Inside tl₁ br₁ p → Point.Inside tl br p)
    (hdisj : ∀ p, Point.Inside tl₀ br₀ p → ¬ Point.Inside tl₁ br₁ p) :
    Placed nodes tl br (ret₀ ++ ret₁) where
  perm := by
    rw [List.map_append]
    exact (h₀.perm.append h₁.perm).trans hnodes
  nodup := by
    rw [List.map_append]
    refine h₀.nodup.append h₁.nodup fun p hp₀ hp₁ ↦ ?_
    obtain ⟨l₀, hl₀, rfl⟩ := List.mem_map.mp hp₀
    obtain ⟨l₁, hl₁, hl⟩ := List.mem_map.mp hp₁
    exact hdisj l₀.2 (h₀.inside l₀ hl₀) (hl ▸ h₁.inside l₁ hl₁)
  inside l hl := by
    rcases List.mem_append.mp hl with hl | hl
    · exact hin₀ l.2 (h₀.inside l hl)
    · exact hin₁ l.2 (h₁.inside l hl)

/-! ## The points of a rectangle -/

theorem mem_range {a b i : ℤ} : i ∈ range a b ↔ a ≤ i ∧ i < b := by
  simp only [range, List.mem_map, List.mem_range]
  constructor
  · rintro ⟨k, hk, rfl⟩
    omega
  · intro h
    exact ⟨(i - a).toNat, by omega, by omega⟩

theorem nodup_range (a b : ℤ) : (range a b).Nodup :=
  List.nodup_range.map fun i j h ↦ by simpa using h

theorem length_range (a b : ℤ) : (range a b).length = (b - a).toNat := by
  rw [range, List.length_map, List.length_range]

theorem mem_columns {tl br p : Point} : p ∈ columns tl br ↔ Point.Inside tl br p := by
  simp only [columns, List.mem_flatMap, List.mem_map, mem_range, Point.Inside]
  constructor
  · rintro ⟨x, hx, y, hy, rfl⟩
    exact ⟨hx.1, Int.lt_add_one_iff.mp hx.2, hy.1, Int.lt_add_one_iff.mp hy.2⟩
  · rintro ⟨hx₀, hx₁, hy₀, hy₁⟩
    exact ⟨p.x, ⟨hx₀, Int.lt_add_one_iff.mpr hx₁⟩, p.y, ⟨hy₀, Int.lt_add_one_iff.mpr hy₁⟩, rfl⟩

theorem nodup_columns (tl br : Point) : (columns tl br).Nodup := by
  rw [columns, List.nodup_flatMap]
  constructor
  · intro x _
    exact (nodup_range _ _).map fun y y' h ↦ congrArg Point.y h
  · refine (nodup_range _ _).imp fun {x x'} hne p hp hp' ↦ hne ?_
    obtain ⟨y, -, rfl⟩ := List.mem_map.mp hp
    obtain ⟨y', -, h⟩ := List.mem_map.mp hp'
    exact (congrArg Point.x h).symm

theorem length_columns (tl br : Point) :
    (columns tl br).length = (br.x + 1 - tl.x).toNat * (br.y + 1 - tl.y).toNat := by
  simp only [columns, List.length_flatMap, List.length_map, length_range, List.map_const',
    List.sum_replicate_nat]

/-- A graph without edges fills its rectangle column by column. -/
theorem placed_zip {nodes : List Node} {tl br : Point}
    (hroom : nodes.length ≤ (columns tl br).length) :
    Placed nodes tl br (nodes.zip (columns tl br)) where
  perm := by rw [List.map_fst_zip hroom]
  nodup := by
    rw [List.zip_eq_zip_take_min, List.map_snd_zip (by simp)]
    exact (nodup_columns tl br).sublist (List.take_sublist _ _)
  inside l hl := mem_columns.mp (List.of_mem_zip hl).2

/-! ## The two parts -/

theorem popAppend_eq {α : Type*} (k : ℕ) (src : List α) (h : k ≤ src.length) (dst : List α) :
    ∃ src' dst', popAppend k src dst = some (src', dst') ∧ (src' ++ dst').Perm (src ++ dst) ∧
      src'.length = src.length - k := by
  induction k generalizing src dst with
  | zero => exact ⟨src, dst, rfl, .refl _, rfl⟩
  | succ k ih =>
    rcases List.eq_nil_or_concat' src with rfl | ⟨src, node, rfl⟩
    · exact absurd h (by simp)
    · rw [List.length_append, List.length_singleton] at h ⊢
      obtain ⟨src', dst', heq, hperm, hlen⟩ := ih _ (Nat.le_of_add_le_add_right h) (dst ++ [node])
      refine ⟨src', dst', by simp [popAppend, heq], ?_, by rw [hlen, Nat.add_sub_add_right]⟩
      refine hperm.trans ?_
      rw [List.append_assoc src]
      exact List.perm_append_comm.append_left src

/-- **The parts have the wanted sizes, whatever the partitioner answers.** -/
theorem partition_eq (part : ℕ → Bool) {nodes : List Node} {size : ℤ} (hsize : 0 ≤ size)
    (h : size ≤ nodes.length) :
    ∃ nodesTl nodesBr, partition part nodes size = some (nodesTl, nodesBr) ∧
      (nodesTl ++ nodesBr).Perm nodes ∧ (nodesTl.length : ℤ) = size := by
  set zeros := (nodes.zipIdx.filter fun p ↦ !part p.2).map Prod.fst with hzeros
  set ones := (nodes.zipIdx.filter fun p ↦ part p.2).map Prod.fst with hones
  have hperm : (zeros ++ ones).Perm nodes := by
    rw [hzeros, hones, ← List.map_append]
    have hparts := (List.perm_append_comm.trans
      (List.filter_append_perm (fun p : Node × ℕ ↦ part p.2) nodes.zipIdx)).map Prod.fst
    rwa [List.zipIdx_map_fst] at hparts
  have hlen : zeros.length + ones.length = nodes.length := by
    rw [← List.length_append, hperm.length_eq]
  -- the nodes that are too many are popped, then the ones that are missing are fetched
  obtain ⟨tl, br, hpop, hpopped, htl⟩ :=
    popAppend_eq (zeros.length - size).toNat zeros (by omega) ones
  have hbr := hpopped.length_eq
  rw [List.length_append, List.length_append] at hbr
  obtain ⟨br', tl', hfetch, hfetched, hbr'⟩ :=
    popAppend_eq (size - tl.length).toNat br (by omega) tl
  have htl' := hfetched.length_eq
  rw [List.length_append, List.length_append] at htl'
  refine ⟨tl', br', ?_, ?_, by omega⟩
  · simp only [partition, ← hzeros, ← hones, hpop, hfetch, Option.bind_eq_bind, Option.bind_some,
      Option.pure_def]
  · calc List.Perm (tl' ++ br') (br' ++ tl') := List.perm_append_comm
      List.Perm _ (br ++ tl) := hfetched
      List.Perm _ (tl ++ br) := List.perm_append_comm
      List.Perm _ (zeros ++ ones) := hpopped
      List.Perm _ nodes := hperm

/-! ## The bisection -/

private theorem area_cut {w h k : ℤ} (hh : 0 < h) (hk : 0 < k) (hkw : k < w) :
    0 < k * h ∧ k * h < w * h ∧ (w - k) * h = w * h - k * h :=
  ⟨mul_pos hk hh, mul_lt_mul_of_pos_right hkw hh, sub_mul w k h⟩

/-- Two calls, on the two parts and on two rectangles that have exactly the room for them. -/
private theorem placed_split {metis : Point → Point → ℕ → Bool} {fuel : ℕ} {nodes : List Node}
    {tl br tl₀ br₀ tl₁ br₁ : Point} {size : ℤ}
    (ih : ∀ {nodes' : List Node} {tl br : Point}, nodes'.length < fuel → tl.x ≤ br.x + 1 →
      tl.y ≤ br.y + 1 → (nodes'.length : ℤ) = (br.x - tl.x + 1) * (br.y - tl.y + 1) →
      ∃ ret, getLocations metis fuel nodes' tl br = some ret ∧ Placed nodes' tl br ret)
    (hpos : 0 ≤ size) (hle : size ≤ nodes.length) (hfuel₀ : size < fuel)
    (hfuel₁ : nodes.length - size < fuel) (hx₀ : tl₀.x ≤ br₀.x + 1)
    (hy₀ : tl₀.y ≤ br₀.y + 1) (hx₁ : tl₁.x ≤ br₁.x + 1) (hy₁ : tl₁.y ≤ br₁.y + 1)
    (harea₀ : size = (br₀.x - tl₀.x + 1) * (br₀.y - tl₀.y + 1))
    (harea₁ : nodes.length - size = (br₁.x - tl₁.x + 1) * (br₁.y - tl₁.y + 1))
    (hin₀ : ∀ p, Point.Inside tl₀ br₀ p → Point.Inside tl br p)
    (hin₁ : ∀ p, Point.Inside tl₁ br₁ p → Point.Inside tl br p)
    (hdisj : ∀ p, Point.Inside tl₀ br₀ p → ¬ Point.Inside tl₁ br₁ p) :
    ∃ ret, (partition (metis tl br) nodes size).bind (fun p ↦
      (getLocations metis fuel p.1 tl₀ br₀).bind fun ret ↦
        (getLocations metis fuel p.2 tl₁ br₁).bind fun ret' ↦ some (ret ++ ret')) = some ret ∧
      Placed nodes tl br ret := by
  obtain ⟨nodesTl, nodesBr, hpart, hperm, hsize⟩ := partition_eq (metis tl br) hpos hle
  have hlen := hperm.length_eq
  rw [List.length_append] at hlen
  obtain ⟨ret₀, heq₀, hplaced₀⟩ := @ih nodesTl _ _ (by omega) hx₀ hy₀ (by omega)
  obtain ⟨ret₁, heq₁, hplaced₁⟩ := @ih nodesBr _ _ (by omega) hx₁ hy₁ (by omega)
  refine ⟨ret₀ ++ ret₁, ?_, hplaced₀.append hperm hplaced₁ hin₀ hin₁ hdisj⟩
  rw [hpart, Option.bind_some, heq₀, Option.bind_some, heq₁, Option.bind_some]

private theorem sides_pos {n : ℕ} {tl br : Point} (hpos : 0 < n) (hx : tl.x ≤ br.x + 1)
    (harea : (n : ℤ) ≤ (br.x - tl.x + 1) * (br.y - tl.y + 1)) :
    tl.x ≤ br.x ∧ tl.y ≤ br.y := by
  have hmul : 0 < (br.x - tl.x + 1) * (br.y - tl.y + 1) := by omega
  rcases pos_and_pos_or_neg_and_neg_of_mul_pos hmul with h | h <;> omega

private theorem getLocations_small (metis : Point → Point → ℕ → Bool) (fuel : ℕ)
    {nodes : List Node} {tl br : Point} (hlen : nodes.length < 3) (hx : tl.x ≤ br.x + 1)
    (harea : (nodes.length : ℤ) ≤ (br.x - tl.x + 1) * (br.y - tl.y + 1)) :
    ∃ ret, getLocations metis (fuel + 1) nodes tl br = some ret ∧ Placed nodes tl br ret := by
  match nodes with
  | [] => exact ⟨[], rfl, .refl _, List.nodup_nil, by simp⟩
  | [node] =>
    obtain ⟨hx', hy'⟩ := sides_pos Nat.one_pos hx harea
    exact ⟨[(node, tl)], rfl, .refl _, List.nodup_singleton _,
      List.forall_mem_singleton.mpr ⟨le_rfl, hx', le_rfl, hy'⟩⟩
  | [node₀, node₁] =>
    obtain ⟨hx', hy'⟩ := sides_pos Nat.two_pos hx harea
    have hne : tl ≠ br := by
      rintro rfl
      simp at harea
    refine ⟨[(node₀, tl), (node₁, br)], rfl, .refl _, by simpa using hne, ?_⟩
    intro l hl
    rcases List.mem_pair.mp hl with rfl | rfl
    · exact ⟨le_rfl, hx', le_rfl, hy'⟩
    · exact ⟨hx', le_rfl, hy', le_rfl⟩
  | node₀ :: node₁ :: node₂ :: rest => exact absurd hlen (by simp)

/-- **A rectangle with exactly the room for its nodes is filled.** -/
theorem getLocations_full (metis : Point → Point → ℕ → Bool) {fuel : ℕ} {nodes : List Node}
    {tl br : Point} (hfuel : nodes.length < fuel) (hx : tl.x ≤ br.x + 1) (hy : tl.y ≤ br.y + 1)
    (harea : (nodes.length : ℤ) = (br.x - tl.x + 1) * (br.y - tl.y + 1)) :
    ∃ ret, getLocations metis fuel nodes tl br = some ret ∧ Placed nodes tl br ret := by
  induction fuel generalizing nodes tl br with
  | zero => exact absurd hfuel (Nat.not_lt_zero _)
  | succ fuel ih =>
    rcases Nat.lt_or_ge nodes.length 3 with hlen | hlen
    · exact getLocations_small metis fuel hlen hx harea.le
    obtain ⟨hx', hy'⟩ := sides_pos (by omega) hx harea.le
    have hroom : ¬ (nodes.length : ℤ) < (br.x - tl.x + 1) * (br.y - tl.y + 1) := harea.not_lt
    rw [getLocations, if_neg hroom]
    rotate_left
    · rintro node rfl
      exact absurd hlen (by simp)
    · rintro node₀ node₁ rfl
      exact absurd hlen (by simp)
    by_cases hedges : countNumEdges nodes = 0
    · -- without edges the nodes are placed column by column
      rw [if_pos hedges]
      refine ⟨_, rfl, placed_zip ?_⟩
      rw [length_columns]
      zify
      rw [Int.toNat_of_nonneg (by omega), Int.toNat_of_nonneg (by omega), harea]
      exact le_of_eq (by ring)
    rw [if_neg hedges]
    by_cases hwide : br.x - tl.x > br.y - tl.y
    · -- a part on the left and one on the right
      rw [if_pos hwide]
      have hsize : tl.x + (br.x - tl.x - 1) / 2 - tl.x + 1 = (br.x - tl.x - 1) / 2 + 1 := by ring
      obtain ⟨hpos, hlt, hrest⟩ := area_cut (w := br.x - tl.x + 1) (h := br.y - tl.y + 1)
        (k := (br.x - tl.x - 1) / 2 + 1) (by omega) (by omega) (by omega)
      rw [← harea] at hlt hrest
      simp only [hsize]
      refine placed_split ih hpos.le hlt.le (by omega) (by omega) (by dsimp only; omega) hy
        (by dsimp only; omega) hy ?_ ?_ ?_ ?_ ?_
      · rw [hsize]
      · rw [← hrest]
        congr 1
        ring
      all_goals
        rintro p ⟨hpx, hpx', hpy, hpy'⟩
        dsimp only at hpx hpx' hpy hpy'
      · exact ⟨hpx, by omega, hpy, hpy'⟩
      · exact ⟨by omega, hpx', hpy, hpy'⟩
      · exact fun h ↦ absurd h.1 (by dsimp only; omega)
    · -- a part at the top and one at the bottom
      rw [if_neg hwide]
      -- a single cell would hold one node only
      have htall : tl.y < br.y := by
        by_contra hflat
        have hx'' : br.x = tl.x := by omega
        have hy'' : br.y = tl.y := by omega
        rw [hx'', hy'', sub_self, sub_self] at harea
        omega
      have hsize : tl.y + (br.y - tl.y - 1) / 2 - tl.y + 1 = (br.y - tl.y - 1) / 2 + 1 := by ring
      obtain ⟨hpos, hlt, hrest⟩ := area_cut (w := br.y - tl.y + 1) (h := br.x - tl.x + 1)
        (k := (br.y - tl.y - 1) / 2 + 1) (by omega) (by omega) (by omega)
      rw [mul_comm (br.y - tl.y + 1), ← harea] at hlt hrest
      simp only [hsize, mul_comm (br.x - tl.x + 1)]
      refine placed_split ih hpos.le hlt.le (by omega) (by omega) hx (by dsimp only; omega)
        hx (by dsimp only; omega) ?_ ?_ ?_ ?_ ?_
      · rw [hsize, mul_comm]
      · rw [← hrest, mul_comm]
        congr 1
        ring
      all_goals
        rintro p ⟨hpx, hpx', hpy, hpy'⟩
        dsimp only at hpx hpx' hpy hpy'
      · exact ⟨hpx, hpx', hpy, by omega⟩
      · exact ⟨hpx, hpx', by omega, hpy'⟩
      · exact fun h ↦ absurd h.2.2.1 (by dsimp only; omega)

private theorem rows_cut {n w h : ℤ} (hw : 0 < w) (hn : 0 ≤ n) (hroom : n < w * h) :
    0 ≤ n / w ∧ n / w < h ∧ w * (n / w) + n % w = n ∧ 0 ≤ n % w ∧ n % w < w :=
  ⟨Int.ediv_nonneg hn hw.le, Int.ediv_lt_of_lt_mul hw (by rwa [mul_comm]),
    Int.mul_ediv_add_emod n w, Int.emod_nonneg n hw.ne', Int.emod_lt_of_pos n hw⟩

/-- **A rectangle with room for its nodes holds them.** -/
theorem getLocations_placed (metis : Point → Point → ℕ → Bool) {fuel : ℕ} {nodes : List Node}
    {br : Point} (hfuel : nodes.length + 1 < fuel) (hx : -1 ≤ br.x) (hy : -1 ≤ br.y)
    (harea : (nodes.length : ℤ) ≤ (br.x + 1) * (br.y + 1)) :
    ∃ ret, getLocations metis fuel nodes ⟨0, 0⟩ br = some ret ∧ Placed nodes ⟨0, 0⟩ br ret := by
  have hx' : (⟨0, 0⟩ : Point).x ≤ br.x + 1 := by dsimp only; omega
  have hy' : (⟨0, 0⟩ : Point).y ≤ br.y + 1 := by dsimp only; omega
  rcases harea.eq_or_lt with harea | harea
  · exact getLocations_full metis (Nat.lt_of_succ_lt hfuel) hx' hy' (by simpa using harea)
  obtain ⟨fuel, rfl⟩ : ∃ fuel', fuel = fuel' + 1 := ⟨fuel - 1, by omega⟩
  rcases Nat.lt_or_ge nodes.length 3 with hlen | hlen
  · exact getLocations_small metis fuel hlen hx' (by simpa using harea.le)
  obtain ⟨hw, -⟩ := sides_pos (show 0 < nodes.length by omega) hx' (by simpa using harea.le)
  obtain ⟨hrows, hlast, hsum, hrest, hwidth⟩ :=
    rows_cut (Int.lt_add_one_iff.mpr hw) (Int.natCast_nonneg nodes.length) harea
  have hroom : (nodes.length : ℤ) < (br.x - 0 + 1) * (br.y - 0 + 1) := by simpa using harea
  rw [getLocations, if_pos hroom, if_neg (not_not.mpr rfl)]
  rotate_left
  · rintro node rfl
    exact absurd hlen (by simp)
  · rintro node₀ node₁ rfl
    exact absurd hlen (by simp)
  by_cases hedges : countNumEdges nodes = 0
  · rw [if_pos hedges]
    refine ⟨_, rfl, placed_zip ?_⟩
    rw [length_columns]
    zify
    rw [Int.toNat_of_nonneg (by omega), Int.toNat_of_nonneg (by omega)]
    simpa using harea.le
  rw [if_neg hedges]
  set rows : ℤ := nodes.length / (br.x + 1)
  have hmul : (br.x + 1) * rows = (br.x - 0 + 1) * (rows - 1 - 0 + 1) := by ring
  by_cases hall : (br.x + 1) * rows = nodes.length
  · rw [if_pos hall]
    obtain ⟨ret, heq, hplaced⟩ := getLocations_full metis (Nat.lt_of_succ_lt_succ hfuel)
      (show (⟨0, 0⟩ : Point).x ≤ (⟨br.x, rows - 1⟩ : Point).x + 1 from hx') (by dsimp only; omega)
      (hall.symm.trans hmul)
    refine ⟨ret, heq, hplaced.perm, hplaced.nodup, fun l hl ↦ ?_⟩
    obtain ⟨hpx, hpx', hpy, hpy'⟩ := hplaced.inside l hl
    exact ⟨hpx, hpx', hpy, by dsimp only at hpy'; omega⟩
  · -- the full rows, and the row below them
    rw [if_neg hall]
    have hsize : 0 ≤ (br.x + 1) * rows := mul_nonneg (by omega) hrows
    refine placed_split (fun {_ _ _} ↦ getLocations_full metis) hsize (by omega) (by omega)
      (by omega) hx' (by dsimp only; omega) (by dsimp only; omega) (by dsimp only; omega)
      hmul ?_ ?_ ?_ ?_
    · dsimp only
      rw [sub_self, zero_add, mul_one]
      omega
    all_goals
      rintro p ⟨hpx, hpx', hpy, hpy'⟩
      dsimp only at hpx hpx' hpy hpy'
    · exact ⟨hpx, hpx', hpy, by omega⟩
    · exact ⟨hpx, by omega, by dsimp only; omega, by omega⟩
    · exact fun h ↦ absurd h.2.2.1 (by dsimp only; omega)

end ScaffCC.Arrange
