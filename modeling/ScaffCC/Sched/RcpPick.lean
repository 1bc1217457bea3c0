import Mathlib.Order.Bounds.Basic
import ScaffCC.Sched.Rcp

/-!
# The region and the type that are chosen

The weight of a type of operation in a region is the sum of the weights of the ready operations of
the type. `rcp_calc_weights` adds them up and keeps the highest sum that it has come across, which
is the highest in the end unless some weights are negative. `rcp_sched_next_simd` sorts the
available regions by a comparison that looks up the keys `a` and `b`. There are no such keys, so
both weights are undefined and count as equal, and the lowest region comes first.

The weights are arbitrary here, one for each operation and region.
-/

namespace ScaffCC.Sched

/-! ## The source -/

/-- A key of the hash of weights: a region, or a word. -/
inductive WeightsKey
  | region (simd : ℕ)
  | word (c : Char)
  deriving DecidableEq, Repr

variable (ops : List Op)

/-- The entry of a region, with the operations of `$rcpq` in the order of `keys`. -/
def regionWeights (w : ℕ → ℤ) (keys : List ℕ) : Weights :=
  keys.foldl (fun ret i ↦ ret.add (opAt ops i).op (w i)) .init

/-- `rcp_calc_weights` for the available regions. -/
def calc_weights (w : ℕ → ℕ → ℤ) (keys simds : List ℕ) : WeightsKey → Option Weights
  | .region simd => if simd ∈ simds then some (regionWeights ops (fun i ↦ w i simd) keys) else none
  | .word _ => none

/-- The field `max` of an entry, `0` if there is none. -/
def maxAt (weights : WeightsKey → Option Weights) (key : WeightsKey) : ℤ :=
  ((weights key).map Weights.max).getD 0

/-- The comparison of two regions. -/
def sortBlock (weights : WeightsKey → Option Weights) (a b : ℕ) : Ordering :=
  (compare (maxAt weights (.word 'a')) (maxAt weights (.word 'b'))).then (compare a b)

/-- The first region in the order of the comparison. -/
def next_simd (weights : WeightsKey → Option Weights) (simds : List ℕ) : Option ℕ :=
  (simds.mergeSort fun a b ↦ (sortBlock weights a b).isLE).head?

/-- `rcp_sched_next_simd` for the available regions, with the region as its result. -/
def sched_next_simd (P : RcpParams) (w : ℕ → ℕ → ℤ) (keys simds : List ℕ) (s : RcpState) :
    Option (ℕ × RcpState) :=
  let weights := calc_weights ops w keys simds
  (next_simd weights simds).map fun simd ↦
    let ret := rcpq_extract_optype ops P ((weights (.region simd)).bind Weights.op) 0 [] keys
    let sched := sched_ops ops s.sched ret s.ts simd
    (simd, { s with
      sched
      rcpq := s.rcpq.filter (· ∉ ret)
      op_cnt := s.op_cnt + (sched.opsAt (s.ts, simd)).length })

/-! ## What should be chosen -/

/-- The weight of a type of operation among some operations. -/
def typeWeight (w : ℕ → ℤ) (keys : List ℕ) (t : OpType) : ℤ :=
  ((keys.filter fun i ↦ (opAt ops i).op = t).map w).sum

/-- For each region the maximum over the types is recorded, and the region and the type that are
chosen have the highest weight. -/
structure PickRight (w : ℕ → ℕ → ℤ) (keys simds : List ℕ) : Prop where
  max : ∀ simd ∈ simds, ∃ W, calc_weights ops w keys simds (.region simd) = some W ∧
    IsGreatest {x | ∃ i ∈ keys, x = typeWeight ops (fun i ↦ w i simd) keys (opAt ops i).op} W.max
  pick : ∃ simd ∈ simds, next_simd (calc_weights ops w keys simds) simds = some simd ∧
    ∃ W i, calc_weights ops w keys simds (.region simd) = some W ∧ i ∈ keys ∧
      W.op = some (opAt ops i).op ∧ ∀ r ∈ simds, ∀ j ∈ keys,
        typeWeight ops (fun i ↦ w i r) keys (opAt ops j).op
          ≤ typeWeight ops (fun i ↦ w i simd) keys (opAt ops i).op

/-- The weight of its type is `x` when the operation at the end of `pre` is added. -/
def Attains (w : ℕ → ℤ) (keys pre : List ℕ) (i : ℕ) (x : ℤ) : Prop :=
  pre ++ [i] <+: keys ∧ typeWeight ops w (pre ++ [i]) (opAt ops i).op = x

/-- The highest weight that a type has at any time is the weight of a type in the end. -/
def Steady (w : ℕ → ℤ) (keys : List ℕ) : Prop :=
  ∃ i ∈ keys, -2 ^ 63 ≤ typeWeight ops w keys (opAt ops i).op ∧
    ∀ pre j x, Attains ops w keys pre j x → x ≤ typeWeight ops w keys (opAt ops i).op

/-- The operation has the type that is the first to reach the highest weight, and this type has the
highest weight in the end, too. -/
def Leads (w : ℕ → ℤ) (keys : List ℕ) (i : ℕ) : Prop :=
  ∃ pre x, Attains ops w keys pre i x ∧ -2 ^ 63 < x ∧ typeWeight ops w keys (opAt ops i).op = x ∧
    (∀ pre' j y, Attains ops w keys pre' j y → y ≤ x) ∧
    ∀ pre' j y, Attains ops w pre pre' j y → y < x

variable {ops} {w : ℕ → ℤ} {keys simds : List ℕ} {i simd : ℕ} {t : OpType}

/-! ## Weights of types -/

theorem typeWeight_append (keys keys' : List ℕ) :
    typeWeight ops w (keys ++ keys') t = typeWeight ops w keys t + typeWeight ops w keys' t := by
  rw [typeWeight, List.filter_append, List.map_append, List.sum_append, ← typeWeight, ← typeWeight]

theorem typeWeight_singleton (i : ℕ) :
    typeWeight ops w [i] t = if (opAt ops i).op = t then w i else 0 := by
  rw [typeWeight, List.filter_singleton]
  by_cases h : (opAt ops i).op = t <;> simp [h]

/-- The weight of a type is what it has when its last operation is added. -/
theorem exists_attains (hi : i ∈ keys) : ∃ pre j, (opAt ops j).op = (opAt ops i).op ∧
    Attains ops w keys pre j (typeWeight ops w keys (opAt ops i).op) := by
  induction keys using List.reverseRecOn with
  | nil => exact absurd hi List.not_mem_nil
  | append_singleton keys k ih =>
    by_cases hk : (opAt ops k).op = (opAt ops i).op
    · exact ⟨keys, k, hk, List.prefix_rfl, by rw [hk]⟩
    · have hmem : i ∈ keys := by
        refine (List.mem_append.mp hi).resolve_right fun hik ↦ hk ?_
        rw [List.mem_singleton.mp hik]
      obtain ⟨pre, j, hj, hpre, hx⟩ := ih hmem
      refine ⟨pre, j, hj, hpre.trans (List.prefix_append ..), ?_⟩
      rw [hx, typeWeight_append, typeWeight_singleton, if_neg hk, add_zero]

theorem attains_append_singleton {pre : List ℕ} {j k : ℕ} {x : ℤ} :
    Attains ops w (keys ++ [k]) pre j x ↔ Attains ops w keys pre j x ∨
      (pre = keys ∧ j = k ∧ typeWeight ops w (keys ++ [k]) (opAt ops k).op = x) := by
  rw [Attains, Attains, List.prefix_concat_iff]
  constructor
  · rintro ⟨heq | hpre, hx⟩
    · obtain ⟨rfl, rfl⟩ := List.append_singleton_inj.mp heq
      exact .inr ⟨rfl, rfl, hx⟩
    · exact .inl ⟨hpre, hx⟩
  · rintro (⟨hpre, hx⟩ | ⟨rfl, rfl, hx⟩)
    · exact ⟨.inr hpre, hx⟩
    · exact ⟨.inl rfl, hx⟩

/-! ## The entry of a region -/

/-- What the entry of a region records. -/
structure Records (ops : List Op) (w : ℕ → ℤ) (keys : List ℕ) (W : Weights) : Prop where
  weight : ∀ t, W.weight t = typeWeight ops w keys t
  le : ∀ pre j x, Attains ops w keys pre j x → x ≤ W.max
  found : (W.op = none ∧ W.max = -2 ^ 63) ∨ ∃ pre i, Attains ops w keys pre i W.max ∧
    W.op = some (opAt ops i).op ∧ -2 ^ 63 < W.max ∧
    ∀ pre' j y, Attains ops w pre pre' j y → y < W.max

theorem Records.low (h : Records ops w keys W) : -2 ^ 63 ≤ W.max := by
  rcases h.found with ⟨-, heq⟩ | ⟨-, -, -, -, hlt, -⟩
  · exact heq.ge
  · exact hlt.le

theorem records_regionWeights (ops : List Op) (w : ℕ → ℤ) (keys : List ℕ) :
    Records ops w keys (regionWeights ops w keys) := by
  induction keys using List.reverseRecOn with
  | nil =>
    refine ⟨fun t ↦ rfl, fun pre j x h ↦ ?_, .inl ⟨rfl, rfl⟩⟩
    exact absurd (List.prefix_nil.mp h.1) (by simp)
  | append_singleton keys k ih =>
    rw [regionWeights, List.foldl_append, List.foldl_cons, List.foldl_nil, ← regionWeights]
    generalize regionWeights ops w keys = W at ih
    have hweight : ∀ t, Function.update W.weight (opAt ops k).op (W.weight (opAt ops k).op + w k) t
        = typeWeight ops w (keys ++ [k]) t := by
      intro t
      rw [typeWeight_append, typeWeight_singleton, ← ih.weight, Function.update_apply]
      by_cases ht : t = (opAt ops k).op
      · rw [if_pos ht, if_pos ht.symm, ht]
      · rw [if_neg ht, if_neg fun h ↦ ht h.symm, add_zero]
    rw [Weights.add]
    simp only [hweight]
    split_ifs with hmax
    · have hall : ∀ pre j x, Attains ops w keys pre j x →
          x < typeWeight ops w (keys ++ [k]) (opAt ops k).op := fun pre j x h ↦
        (ih.le pre j x h).trans_lt hmax
      refine ⟨fun t ↦ hweight t, fun pre j x h ↦ ?_,
        .inr ⟨keys, k, ⟨List.prefix_rfl, rfl⟩, rfl, ih.low.trans_lt hmax, hall⟩⟩
      rcases attains_append_singleton.mp h with h | ⟨-, -, rfl⟩
      · exact (hall pre j x h).le
      · exact le_rfl
    · refine ⟨fun t ↦ hweight t, fun pre j x h ↦ ?_, ih.found.imp_right ?_⟩
      · rcases attains_append_singleton.mp h with h | ⟨-, -, rfl⟩
        · exact ih.le pre j x h
        · exact not_lt.mp hmax
      · rintro ⟨pre, i, hattains, hop, hlow, hfirst⟩
        exact ⟨pre, i, attains_append_singleton.mpr (.inl hattains), hop, hlow, hfirst⟩

variable {W : Weights}

/-- **The maximum.** What is recorded is the maximum if and only if no type has a higher weight in
between. -/
theorem Records.isGreatest_iff (h : Records ops w keys W) :
    IsGreatest {x | ∃ i ∈ keys, x = typeWeight ops w keys (opAt ops i).op} W.max
      ↔ Steady ops w keys := by
  constructor
  · rintro ⟨⟨i, hi, hmax⟩, -⟩
    exact ⟨i, hi, hmax ▸ h.low, fun pre j x hx ↦ hmax ▸ h.le pre j x hx⟩
  · rintro ⟨i, hi, hlow, hall⟩
    obtain ⟨pre, j, -, hattains⟩ := exists_attains (w := w) hi
    have hle : typeWeight ops w keys (opAt ops i).op ≤ W.max := h.le pre j _ hattains
    have hmax : W.max = typeWeight ops w keys (opAt ops i).op := by
      refine le_antisymm ?_ hle
      rcases h.found with ⟨-, heq⟩ | ⟨pre, j, hattains, -⟩
      · exact heq.le.trans hlow
      · exact hall pre j _ hattains
    refine ⟨⟨i, hi, hmax⟩, ?_⟩
    rintro x ⟨k, hk, rfl⟩
    obtain ⟨pre, j, -, hattains⟩ := exists_attains (w := w) hk
    exact h.le pre j _ hattains

theorem Records.op_of_leads (h : Records ops w keys W) (hi : Leads ops w keys i) :
    W.op = some (opAt ops i).op := by
  obtain ⟨pre, x, hattains, hlow, -, hall, hfirst⟩ := hi
  have hle := h.le pre i x hattains
  rcases h.found with ⟨-, heq⟩ | ⟨pre', j, hattains', hop, -, hfirst'⟩
  · omega
  · have hmax : W.max = x := le_antisymm (hall pre' j _ hattains') hle
    -- both are the first to reach the maximum
    have hpre : pre ++ [i] = pre' ++ [j] := by
      rcases List.prefix_or_prefix_of_prefix hattains.1 hattains'.1 with hp | hp
      · rcases List.prefix_concat_iff.mp hp with heq | hp
        · exact heq
        · have := hfirst' pre i x ⟨hp, hattains.2⟩
          omega
      · rcases List.prefix_concat_iff.mp hp with heq | hp
        · exact heq.symm
        · have := hfirst pre' j _ ⟨hp, hattains'.2⟩
          omega
    rw [hop, (List.append_singleton_inj.mp hpre).2]

theorem mem_of_prefix {pre : List ℕ} (h : pre ++ [i] <+: keys) : i ∈ keys :=
  h.subset (List.mem_append_right _ List.mem_cons_self)

theorem Records.leads_of_op (h : Records ops w keys W) (hop : W.op = some (opAt ops i).op)
    (hmax : ∀ j ∈ keys, typeWeight ops w keys (opAt ops j).op
      ≤ typeWeight ops w keys (opAt ops i).op)
    (hgreatest : IsGreatest {x | ∃ i ∈ keys, x = typeWeight ops w keys (opAt ops i).op} W.max) :
    ∃ j ∈ keys, (opAt ops j).op = (opAt ops i).op ∧ Leads ops w keys j := by
  rcases h.found with ⟨hnone, -⟩ | ⟨pre, j, hattains, hop', hlow, hfirst⟩
  · rw [hnone] at hop
    exact absurd hop.symm (Option.some_ne_none _)
  · have hj : (opAt ops j).op = (opAt ops i).op := Option.some.inj (hop'.symm.trans hop)
    refine ⟨j, mem_of_prefix hattains.1, hj, pre, W.max, hattains, hlow, ?_, h.le, hfirst⟩
    obtain ⟨k, hk, hkmax⟩ := hgreatest.1
    refine le_antisymm (hgreatest.2 ⟨j, mem_of_prefix hattains.1, rfl⟩) ?_
    rw [hkmax, hj]
    exact hmax k hk

/-! ## The region -/

/-- The comparison is that of the numbers of the regions. -/
theorem sortBlock_calc_weights (w : ℕ → ℕ → ℤ) (keys simds : List ℕ) (a b : ℕ) :
    (sortBlock (calc_weights ops w keys simds) a b).isLE = decide (a ≤ b) := by
  have hcompare : (compare a b).isLE = decide (a ≤ b) := by
    rw [Bool.eq_iff_iff, Nat.isLE_compare, decide_eq_true_iff]
  rw [sortBlock, maxAt, maxAt, calc_weights, calc_weights]
  simpa using hcompare

/-- **The region** is the lowest one. -/
theorem next_simd_calc_weights (w : ℕ → ℕ → ℤ) (keys : List ℕ) (hsimd : simd ∈ simds)
    (hmin : ∀ r ∈ simds, simd ≤ r) :
    next_simd (calc_weights ops w keys simds) simds = some simd := by
  rw [next_simd]
  simp only [sortBlock_calc_weights]
  have hperm := List.mergeSort_perm simds fun a b ↦ decide (a ≤ b)
  have hsorted : (simds.mergeSort fun a b ↦ decide (a ≤ b)).Pairwise fun a b ↦ decide (a ≤ b) :=
    List.pairwise_mergeSort (by simpa using fun a b c ↦ le_trans) (by simpa using le_total) simds
  cases hsort : simds.mergeSort fun a b ↦ decide (a ≤ b) with
  | nil =>
    rw [hsort] at hperm
    rw [hperm.nil_eq.symm] at hsimd
    exact absurd hsimd List.not_mem_nil
  | cons r rest =>
    rw [hsort] at hperm hsorted
    have hr : r ∈ simds := hperm.subset List.mem_cons_self
    rcases List.mem_cons.mp (hperm.symm.subset hsimd) with rfl | hrest
    · rfl
    · have hle := of_decide_eq_true ((List.pairwise_cons.mp hsorted).1 simd hrest)
      rw [List.head?_cons, le_antisymm hle (hmin r hr)]

theorem calc_weights_region {w : ℕ → ℕ → ℤ} (hsimd : simd ∈ simds) :
    calc_weights ops w keys simds (.region simd)
      = some (regionWeights ops (fun i ↦ w i simd) keys) := if_pos hsimd

/-- **The choice is right** if and only if the recorded weights are the maxima, in the lowest region
the type that is the first to reach the maximum has it in the end, and no type has a higher weight
in another region. -/
theorem pickRight_iff (w : ℕ → ℕ → ℤ) (keys : List ℕ) (hsimd : simd ∈ simds)
    (hmin : ∀ r ∈ simds, simd ≤ r) :
    PickRight ops w keys simds ↔ (∀ r ∈ simds, Steady ops (fun i ↦ w i r) keys) ∧
      ∃ i, Leads ops (fun i ↦ w i simd) keys i ∧ ∀ r ∈ simds, ∀ j ∈ keys,
        typeWeight ops (fun i ↦ w i r) keys (opAt ops j).op
          ≤ typeWeight ops (fun i ↦ w i simd) keys (opAt ops i).op := by
  have hrecords := fun r ↦ records_regionWeights ops (fun i ↦ w i r) keys
  have hnext : next_simd (calc_weights ops w keys simds) simds = some simd :=
    next_simd_calc_weights w keys hsimd hmin
  constructor
  · rintro ⟨hmax, r, hr, hpick, W, i, hW, hi, hop, hbest⟩
    obtain rfl : simd = r := Option.some.inj (hnext.symm.trans hpick)
    have hgreatest : ∀ r ∈ simds, IsGreatest
        {x | ∃ i ∈ keys, x = typeWeight ops (fun i ↦ w i r) keys (opAt ops i).op}
        (regionWeights ops (fun i ↦ w i r) keys).max := by
      intro r hr
      obtain ⟨W, hW, hgreatest⟩ := hmax r hr
      rw [calc_weights_region hr] at hW
      rwa [Option.some.inj hW]
    rw [calc_weights_region hsimd] at hW
    obtain rfl := Option.some.inj hW
    obtain ⟨j, -, hj, hleads⟩ := (hrecords simd).leads_of_op hop (hbest simd hsimd)
      (hgreatest simd hsimd)
    refine ⟨fun r hr ↦ (hrecords r).isGreatest_iff.mp (hgreatest r hr), j, hleads, ?_⟩
    rwa [hj]
  · rintro ⟨hsteady, i, hleads, hbest⟩
    refine ⟨fun r hr ↦ ⟨_, calc_weights_region hr, (hrecords r).isGreatest_iff.mpr (hsteady r hr)⟩,
      simd, hsimd, hnext, _, i, calc_weights_region hsimd, ?_,
      (hrecords simd).op_of_leads hleads, hbest⟩
    obtain ⟨pre, x, hattains, -⟩ := hleads
    exact mem_of_prefix hattains.1

/-! ## Weights that are not negative -/

/-! ## The schedule -/

/-- With the weights of the script and the lowest region this is a step of the scheduler. -/
theorem sched_next_simd_eq (P : RcpParams) (s : RcpState) (hsimd : simd ∈ simds)
    (hmin : ∀ r ∈ simds, simd ≤ r) :
    sched_next_simd ops P (fun i r ↦ rcp_op_weight ops P s.locations.loc i r)
      (P.order.keys s.ts simd s.rcpq) simds s
      = some (simd, rcp_sched_next_simd ops P simd s) := by
  rw [sched_next_simd, next_simd_calc_weights _ _ hsimd hmin, Option.map_some]
  simp only [calc_weights_region hsimd, Option.bind_some]
  rfl

theorem pickRight_iff_one :
    PickRight [opOn .H ['q']] (fun _ _ ↦ 1) [0] [1, 2] ↔
      (∀ r ∈ [1, 2], Steady [opOn .H ['q']] (fun _ ↦ 1) [0]) ∧
        ∃ i, Leads [opOn .H ['q']] (fun _ ↦ 1) [0] i ∧ ∀ r ∈ [1, 2], ∀ j ∈ [0],
          typeWeight [opOn .H ['q']] (fun _ ↦ 1) [0] (opAt [opOn .H ['q']] j).op
            ≤ typeWeight [opOn .H ['q']] (fun _ ↦ 1) [0] (opAt [opOn .H ['q']] i).op :=
  pickRight_iff (fun _ _ ↦ 1) [0] (show 1 ∈ [1, 2] by decide) (by decide)

/-- With the weights that are set at the start, a gate on a qubit in region `1` has the weight `0`
there and `1` in region `2`, and it is region `1` that is chosen. -/
theorem not_pickRight_first : ¬ PickRight [opOn .H ['q']]
    (rcp_op_weight [opOn .H ['q']] (.default 2 4) fun _ ↦ 1) [0] [1, 2] := by
  rintro ⟨-, simd, -, hpick, W, i, -, hi, -, hbest⟩
  rw [next_simd_calc_weights _ _ (show 1 ∈ [1, 2] by decide) (by decide)] at hpick
  obtain rfl := Option.some.inj hpick
  obtain rfl := List.mem_singleton.mp hi
  exact absurd (hbest 2 (by decide) 0 (by decide)) (by decide)

end ScaffCC.Sched
