import Mathlib.Data.Nat.Count
import ScaffCC.Braid.Dor
import ScaffCC.Transition.Search

/-!
# Data qubits around factories

With interleaved factories the mesh has a block of tiles for each kind of magic state, and the data
qubits are moved out of their way. To find the tile of a data qubit, a loop goes over the tiles and
counts those that are not in a block. It stops as soon as it has counted enough of them, and the
tile it has come to is not looked at.

So the tiles are different and on the mesh, but the first tile of a block is given to the qubit that
has all data tiles before it counted.
-/

open StateTransition

namespace ScaffCC.Braid

variable (factory_block_set : Finset ℕ)

/-- A round of the loop, with the variables `new_arg` and `data_counter`. -/
def tileRound (arg : ℕ) (s : ℕ × ℕ) : Option (ℕ × ℕ) :=
  if s.2 ≠ arg then
    if s.1 ∈ factory_block_set then some (s.1 + 1, s.2) else some (s.1 + 1, s.2 + 1)
  else none

/-- The tile of a data qubit, undefined if the loop has no end. -/
def new_arg (arg : ℕ) : Part ℕ := (eval (tileRound factory_block_set arg) (0, 0)).map Prod.fst

/-- The tiles of `n` data qubits are different, none of them belongs to a factory, and all of them
are on the mesh. -/
structure TilesRight (tiles n : ℕ) : Prop where
  ends : ∀ arg < n, (new_arg factory_block_set arg).Dom
  injective : ∀ a < n, ∀ b < n, ∀ t, t ∈ new_arg factory_block_set a →
    t ∈ new_arg factory_block_set b → a = b
  data : ∀ arg < n, ∀ t ∈ new_arg factory_block_set arg, t ∉ factory_block_set
  inside : ∀ arg < n, ∀ t ∈ new_arg factory_block_set arg, t < tiles

variable {factory_block_set} {arg n t tiles : ℕ}

/-! ## Where the loop stops -/

/-- The counter is the number of data tiles that were passed. -/
theorem tileRound_eq (h : Nat.count (· ∉ factory_block_set) t ≠ arg) :
    tileRound factory_block_set arg (t, Nat.count (· ∉ factory_block_set) t)
      = some (t + 1, Nat.count (· ∉ factory_block_set) (t + 1)) := by
  rw [tileRound, if_pos h, Nat.count_succ]
  split_ifs <;> rfl

/-- **The tile of a data qubit** is the first one with as many data tiles before it as there are
qubits before this one. -/
theorem mem_new_arg (hcount : Nat.count (· ∉ factory_block_set) t = arg)
    (h : ∀ u < t, Nat.count (· ∉ factory_block_set) u ≠ arg) :
    t ∈ new_arg factory_block_set arg := by
  have hend := mem_eval_of_isLeast (f := tileRound factory_block_set arg)
    (s := fun t ↦ (t, Nat.count (· ∉ factory_block_set) t))
    (p := fun t ↦ Nat.count (· ∉ factory_block_set) t = arg) (fun t ↦ tileRound_eq)
    (fun t ht ↦ if_neg (not_not.mpr ht))
    ⟨hcount, fun u hu ↦ not_lt.mp fun hlt ↦ h u hlt hu⟩
  exact (Part.mem_map_iff _).mpr ⟨_, hend, rfl⟩

theorem exists_mem_new_arg (h : arg ≤ Nat.count (· ∉ factory_block_set) tiles) :
    ∃ t ≤ tiles, t ∈ new_arg factory_block_set arg ∧
      Nat.count (· ∉ factory_block_set) t = arg := by
  have hex : ∃ t, arg ≤ Nat.count (· ∉ factory_block_set) t := ⟨tiles, h⟩
  have hle := Nat.find_spec hex
  have hlt : ∀ u < Nat.find hex, Nat.count (· ∉ factory_block_set) u < arg := fun u hu ↦
    not_le.mp (Nat.find_min hex hu)
  have heq : Nat.count (· ∉ factory_block_set) (Nat.find hex) = arg := by
    refine hle.antisymm' ?_
    cases hfind : Nat.find hex with
    | zero => exact (Nat.count_zero _).le.trans (Nat.zero_le _)
    | succ t =>
      have hprev := hlt t (by omega)
      rw [Nat.count_succ]
      split_ifs <;> omega
  exact ⟨_, Nat.find_min' hex h, mem_new_arg heq fun u hu ↦ (hlt u hu).ne, heq⟩

/-- As many data tiles are before the tile as data qubits before the qubit. -/
theorem count_of_mem_new_arg (h : arg ≤ Nat.count (· ∉ factory_block_set) tiles)
    (ht : t ∈ new_arg factory_block_set arg) :
    Nat.count (· ∉ factory_block_set) t = arg := by
  obtain ⟨u, -, hu, hcount⟩ := exists_mem_new_arg h
  exact Part.mem_unique ht hu ▸ hcount

theorem new_arg_injective {a b : ℕ} (ha : a ≤ Nat.count (· ∉ factory_block_set) tiles)
    (hb : b ≤ Nat.count (· ∉ factory_block_set) tiles) (hta : t ∈ new_arg factory_block_set a)
    (htb : t ∈ new_arg factory_block_set b) : a = b :=
  (count_of_mem_new_arg ha hta).symm.trans (count_of_mem_new_arg hb htb)

theorem new_arg_lt (h : arg < Nat.count (· ∉ factory_block_set) tiles)
    (ht : t ∈ new_arg factory_block_set arg) : t < tiles := by
  refine Nat.lt_of_count_lt_count (p := (· ∉ factory_block_set)) ?_
  rwa [count_of_mem_new_arg h.le ht]

/-- A tile that is not beyond the first factory is the tile of the qubit with its number. -/
theorem mem_new_arg_self (h : ∀ u < t, u ∉ factory_block_set) :
    t ∈ new_arg factory_block_set t := by
  have hcount : ∀ u ≤ t, Nat.count (· ∉ factory_block_set) u = u := fun u hu ↦
    Nat.count_iff_forall.mpr fun v hv ↦ h v (by omega)
  refine mem_new_arg (hcount t le_rfl) fun u hu ↦ ?_
  rw [hcount u hu.le]
  exact hu.ne

/-! ## Right tiles -/

/-- **The tiles are right** exactly if all factories are behind the first `n` tiles. -/
theorem tilesRight_iff (hfit : n ≤ Nat.count (· ∉ factory_block_set) tiles) :
    TilesRight factory_block_set tiles n ↔ ∀ t ∈ factory_block_set, n ≤ t := by
  have hle : ∀ arg < n, arg ≤ Nat.count (· ∉ factory_block_set) tiles := fun arg harg ↦
    harg.le.trans hfit
  constructor
  · intro hright t ht
    by_contra hlt
    -- the first factory is given to a qubit
    have hex : ∃ t, t ∈ factory_block_set := ⟨t, ht⟩
    have hfirst := Nat.find_min' hex ht
    have hself : Nat.find hex ∈ new_arg factory_block_set (Nat.find hex) :=
      mem_new_arg_self fun u hu ↦ Nat.find_min hex hu
    exact hright.data _ (by omega) _ hself (Nat.find_spec hex)
  · intro hbehind
    have hself : ∀ arg < n, arg ∈ new_arg factory_block_set arg := fun arg harg ↦
      mem_new_arg_self fun u hu hmem ↦ by
        have := hbehind u hmem
        omega
    refine ⟨fun arg harg ↦ Part.dom_iff_mem.mpr ⟨arg, hself arg harg⟩,
      fun a ha b hb t ↦ new_arg_injective (hle a ha) (hle b hb), fun arg harg t ht hmem ↦ ?_,
      fun arg harg t ↦ new_arg_lt (harg.trans_le hfit)⟩
    have := hbehind t hmem
    have := Part.mem_unique ht (hself arg harg)
    omega

theorem tilesRight_iff_seven :
    TilesRight (factory_block 3 3 1 1).toFinset 9 4 ↔
      ∀ t ∈ (factory_block 3 3 1 1).toFinset, 4 ≤ t :=
  tilesRight_iff (by decide)

/-- Seven data qubits and a factory in the middle of nine tiles: the fifth qubit gets its tile. -/
theorem not_tilesRight_middle :
    7 ≤ Nat.count (· ∉ (factory_block 3 3 1 1).toFinset) 9 ∧
      ¬ TilesRight (factory_block 3 3 1 1).toFinset 9 7 := by
  refine ⟨by decide, fun h ↦ h.data 4 (by decide) 4 (mem_new_arg_self ?_) (by decide)⟩
  decide

end ScaffCC.Braid
