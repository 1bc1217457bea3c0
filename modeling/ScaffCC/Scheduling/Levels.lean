import Mathlib.Algebra.Ring.Nat
import Mathlib.Data.Finset.Lattice.Fold
import Mathlib.Data.List.Chain
import Mathlib.Data.List.NodupEquivFin
import Mathlib.Logic.Relation
import Mathlib.Order.Bounds.Basic
import Mathlib.Order.WellFounded

/-!
# Going through a graph level by level

The greatest weight of a path to each vertex of an acyclic graph is found level by level. The
vertices that no edge goes to come first. In each round the values of the successors of the vertices
found in the last round are raised, and the edges to them taken away. A vertex is found when the
last edge to it is about to be taken away, so its value is final by then.

Values are added by an addition that may wrap around. What is noted along the way, each time a value
is assigned, is a parameter.
-/

namespace Scheduling

/-! ## Acyclic graphs -/

/-- A graph of vertices with numbers below a size, without cycles. -/
structure Dag where
  size : ℕ
  edge : ℕ → ℕ → Bool
  lt_size : ∀ u v, edge u v → u < size ∧ v < size
  acyclic : ∃ rank : ℕ → ℕ, ∀ u v, edge u v → rank u < rank v

namespace Dag

/-- The graph with all edges turned round. -/
def reverse (D : Dag) : Dag where
  size := D.size
  edge u v := D.edge v u
  lt_size u v h := (D.lt_size v u h).symm
  acyclic := by
    obtain ⟨rank, hrank⟩ := D.acyclic
    obtain ⟨b, hb⟩ : ∃ b, ∀ v < D.size, rank v ≤ b :=
      ⟨(Finset.range D.size).sup rank, fun v hv ↦ Finset.le_sup (Finset.mem_range.mpr hv)⟩
    refine ⟨fun v ↦ b - rank v, fun u v h ↦ ?_⟩
    have hlt := hrank v u h
    have hle := hb u (D.lt_size v u h).2
    change b - rank u < b - rank v
    omega

variable {D : Dag} {w L : ℕ → ℕ} {u v : ℕ}

theorem wellFounded (D : Dag) : WellFounded fun u v ↦ D.edge u v = true := by
  obtain ⟨rank, hrank⟩ := D.acyclic
  exact Subrelation.wf (fun h ↦ hrank _ _ h) (InvImage.wf rank wellFounded_lt)

theorem edge_irrefl (D : Dag) (v : ℕ) : ¬ D.edge v v := by
  obtain ⟨rank, hrank⟩ := D.acyclic
  exact fun h ↦ lt_irrefl _ (hrank v v h)

/-! ## The greatest weight of a path -/

/-- The greatest weight of a path to each vertex: its own weight, and that of a path to one of its
predecessors if it has any. -/
structure Longest (D : Dag) (w L : ℕ → ℕ) : Prop where
  source : ∀ v, (∀ u, ¬ D.edge u v) → L v = w v
  le : ∀ u v, D.edge u v → L u + w v ≤ L v
  attained : ∀ u v, D.edge u v → ∃ u', D.edge u' v ∧ L v = L u' + w v

theorem exists_longest (D : Dag) (w : ℕ → ℕ) : ∃ L, D.Longest w L := by
  classical
  obtain ⟨L, hL⟩ : ∃ L : ℕ → ℕ, ∀ v,
      L v = (Finset.range D.size).sup (fun u ↦ if D.edge u v then L u else 0) + w v := by
    refine ⟨D.wellFounded.fix fun v ih ↦
      (Finset.range D.size).sup (fun u ↦ if h : D.edge u v then ih u h else 0) + w v, fun v ↦ ?_⟩
    rw [WellFounded.fix_eq]
    simp only [dite_eq_ite]
  have hle : ∀ u v, D.edge u v → L u + w v ≤ L v := by
    intro u v h
    have hsup := Finset.le_sup (f := fun u ↦ if D.edge u v then L u else 0)
      (Finset.mem_range.mpr (D.lt_size u v h).1)
    rw [if_pos h] at hsup
    rw [hL v]
    exact Nat.add_le_add_right hsup _
  refine ⟨L, fun v hv ↦ ?_, hle, fun u v h ↦ ?_⟩
  · rw [hL v, Nat.add_eq_right, ← Nat.bot_eq_zero, Finset.sup_eq_bot_iff]
    exact fun u _ ↦ if_neg (hv u)
  · obtain ⟨u', -, hu'⟩ := Finset.exists_mem_eq_sup (Finset.range D.size)
      ⟨u, Finset.mem_range.mpr (D.lt_size u v h).1⟩ fun u ↦ if D.edge u v then L u else 0
    by_cases hedge : D.edge u' v
    · rw [if_pos hedge] at hu'
      exact ⟨u', hedge, by rw [hL v, hu']⟩
    · -- all predecessors have the value zero
      rw [if_neg hedge] at hu'
      refine ⟨u, h, le_antisymm ?_ (hle u v h)⟩
      rw [hL v, hu']
      exact Nat.add_le_add_right (Nat.zero_le _) _

/-- The weights of a vertex and its predecessors decide the greatest weight. -/
theorem Longest.unique {L' : ℕ → ℕ} (h : D.Longest w L) (h' : D.Longest w L') : L = L' := by
  funext v
  induction v using D.wellFounded.induction with
  | _ v ih =>
    by_cases hv : ∃ u, D.edge u v
    · obtain ⟨u, hu⟩ := hv
      obtain ⟨a, ha, hLa⟩ := h.attained u v hu
      obtain ⟨b, hb, hLb⟩ := h'.attained u v hu
      have hle := h.le b v hb
      have hle' := h'.le a v ha
      rw [ih b hb] at hle
      rw [← ih a ha] at hle'
      omega
    · rw [h.source v (not_exists.mp hv), h'.source v (not_exists.mp hv)]

theorem Longest.sum_le (h : D.Longest w L) {c : List ℕ}
    (hc : (c ++ [v]).IsChain fun u v ↦ D.edge u v = true) : ((c ++ [v]).map w).sum ≤ L v := by
  induction c using List.reverseRecOn generalizing v with
  | nil =>
    have hw : w v ≤ L v := by
      by_cases hv : ∃ u, D.edge u v
      · obtain ⟨u, hu⟩ := hv
        exact (Nat.le_add_left ..).trans (h.le u v hu)
      · exact (h.source v (not_exists.mp hv)).ge
    simpa using hw
  | append_singleton c u ih =>
    obtain ⟨hpre, -, hedge⟩ := List.isChain_append.mp hc
    have huv : D.edge u v := hedge u (by simp) v (by simp)
    calc ((c ++ [u] ++ [v]).map w).sum
        = ((c ++ [u]).map w).sum + w v := by simp [add_assoc]
      _ ≤ L u + w v := Nat.add_le_add_right (ih hpre) _
      _ ≤ L v := h.le u v huv

theorem Longest.exists_sum_eq (h : D.Longest w L) (hv : v < D.size) :
    ∃ c, (c ++ [v]).IsChain (fun u v ↦ D.edge u v = true) ∧ (∀ u ∈ c ++ [v], u < D.size) ∧
      ((c ++ [v]).map w).sum = L v := by
  induction v using D.wellFounded.induction with
  | _ v ih =>
    by_cases hpred : ∃ u, D.edge u v
    · obtain ⟨u, hu⟩ := hpred
      obtain ⟨u', hu', hL⟩ := h.attained u v hu
      obtain ⟨c, hc, hlt, hsum⟩ := ih u' hu' (D.lt_size u' v hu').1
      refine ⟨c ++ [u'], ?_, ?_, ?_⟩
      · rw [List.isChain_append]
        exact ⟨hc, List.isChain_singleton v, by simpa using hu'⟩
      · rw [List.forall_mem_append]
        exact ⟨hlt, List.forall_mem_singleton.mpr hv⟩
      · rw [List.map_append, List.sum_append, hsum, hL]
        simp
    · refine ⟨[], List.isChain_singleton v, List.forall_mem_singleton.mpr hv, ?_⟩
      simp [h.source v (not_exists.mp hpred)]

theorem Longest.isGreatest (h : D.Longest w L) (hv : v < D.size) :
    IsGreatest {x | ∃ c, (c ++ [v]).IsChain (fun u v ↦ D.edge u v = true) ∧
      x = ((c ++ [v]).map w).sum} (L v) := by
  obtain ⟨c, hc, -, hsum⟩ := h.exists_sum_eq hv
  refine ⟨⟨c, hc, hsum.symm⟩, ?_⟩
  rintro _ ⟨c, hc, rfl⟩
  exact h.sum_le hc

/-- Edges that are made up of others do not change the greatest weights. -/
theorem Longest.of_transGen {D' : Dag} (h : D'.Longest w L)
    (hsub : ∀ u v, D'.edge u v → D.edge u v)
    (hpath : ∀ u v, D.edge u v → Relation.TransGen (fun u v ↦ D'.edge u v = true) u v) :
    D.Longest w L where
  source v hv := h.source v fun u hu ↦ hv u (hsub u v hu)
  le u v huv := by
    have hpath := hpath u v huv
    clear huv
    induction hpath with
    | single hedge => exact h.le _ _ hedge
    | tail _ hedge ih =>
      have := h.le _ _ hedge
      omega
  attained u v huv := by
    obtain ⟨a, -, hedge⟩ := Relation.TransGen.tail'_iff.mp (hpath u v huv)
    obtain ⟨b, hb, hL⟩ := h.attained a v hedge
    exact ⟨b, hsub b v hb, hL⟩

end Dag

/-! ## The rounds -/

/-- The number of edges to a vertex. -/
def inDegree (n : ℕ) (edge : ℕ → ℕ → Bool) (v : ℕ) : ℕ := (List.range n).countP fun u ↦ edge u v

/-- The vertices that a vertex has edges to. -/
def succs (n : ℕ) (edge : ℕ → ℕ → Bool) (u : ℕ) : List ℕ := (List.range n).filter fun v ↦ edge u v

/-- The edges without those that start at a vertex. -/
def clearOut (edge : ℕ → ℕ → Bool) (u : ℕ) : ℕ → ℕ → Bool := fun i j ↦ edge i j && i != u

def hasEdge (n : ℕ) (edge : ℕ → ℕ → Bool) : Bool :=
  (List.range n).any fun u ↦ (List.range n).any fun v ↦ edge u v

/-- The edges that are left, the values, what has been noted, and the vertices found in the
round. -/
structure Levels (β : Type*) where
  edge : ℕ → ℕ → Bool
  value : ℕ → Option ℕ
  out : β
  next : List ℕ

namespace Levels

variable {β : Type*} (n : ℕ) (w : ℕ → ℕ) (add : ℕ → ℕ → ℕ) (note : β → ℕ → ℕ → β)

/-- A vertex gets a value. -/
def assign (s : Levels β) (v x : ℕ) : Levels β :=
  { s with value := Function.update s.value v (some x), out := note s.out v x }

/-- The value of a successor, raised to what it is by way of a vertex. -/
def raised (s : Levels β) (u v : ℕ) : ℕ :=
  match s.value v with
  | some y => max y (add ((s.value u).getD 0) (w v))
  | none => add ((s.value u).getD 0) (w v)

/-- The value of a successor is raised. It is found if this is the last edge to it. -/
def relax (u : ℕ) (s : Levels β) (v : ℕ) : Levels β :=
  let s' := s.assign note v (s.raised w add u v)
  if inDegree n s.edge v = 1 then { s' with next := s'.next ++ [v] } else s'

/-- The values of all successors are raised, and the edges to them taken away. -/
def expand (s : Levels β) (u : ℕ) : Levels β :=
  let s' := (succs n s.edge u).foldl (relax n w add note u) s
  { s' with edge := clearOut s'.edge u }

/-- A round: the vertices found in the last one, one after the other. -/
def level (s : Levels β) : Levels β :=
  s.next.foldl (expand n w add note) { s with next := [] }

/-- The rounds, as long as there is an edge or a vertex was found, for at most a number of them. -/
def run : ℕ → Levels β → Option (Levels β)
  | 0, s => if hasEdge n s.edge ∨ s.next ≠ [] then none else some s
  | fuel + 1, s =>
    if hasEdge n s.edge ∨ s.next ≠ [] then run fuel (level n w add note s) else some s

/-- The vertices that no edge goes to get their own weight. -/
def start (edge : ℕ → ℕ → Bool) (out : β) : Levels β :=
  ((List.range n).filter fun v ↦ inDegree n edge v = 0).foldl
    (fun s v ↦ { s.assign note v (w v) with next := s.next ++ [v] }) ⟨edge, fun _ ↦ none, out, []⟩

def levels (edge : ℕ → ℕ → Bool) (out : β) : Option (Levels β) :=
  run n w add note n (start n w note edge out)

variable {n w add note} {edge : ℕ → ℕ → Bool} {out : β} {s s' : Levels β} {u v : ℕ} {fuel : ℕ}

/-! ## What holds of values and notes -/

section Noted

variable {R : (ℕ → Option ℕ) → β → Prop}

/-- Whatever is kept when a vertex gets a value, which is no less than the one it had. -/
def Kept (n : ℕ) (note : β → ℕ → ℕ → β) (R : (ℕ → Option ℕ) → β → Prop) : Prop :=
  ∀ value out v x, v < n → R value out → (∀ y, value v = some y → y ≤ x) →
    R (Function.update value v (some x)) (note out v x)

theorem Kept.relax (hR : Kept n note R) (hv : v < n) (h : R s.value s.out) :
    R (s.relax n w add note u v).value (s.relax n w add note u v).out := by
  have hassign : R (s.assign note v (s.raised w add u v)).value
      (s.assign note v (s.raised w add u v)).out := by
    refine hR _ _ _ _ hv h fun y hy ↦ ?_
    rw [raised, hy]
    exact le_max_left ..
  rw [Levels.relax]
  split_ifs <;> exact hassign

theorem Kept.expand (hR : Kept n note R) (h : R s.value s.out) :
    R (s.expand n w add note u).value (s.expand n w add note u).out := by
  have hfold : ∀ vs : List ℕ, (∀ v ∈ vs, v < n) → ∀ s : Levels β, R s.value s.out →
      R (vs.foldl (Levels.relax n w add note u) s).value
        (vs.foldl (Levels.relax n w add note u) s).out := by
    intro vs
    induction vs with
    | nil => exact fun _ _ h ↦ h
    | cons v vs ih =>
      intro hlt s h
      obtain ⟨hv, hvs⟩ := List.forall_mem_cons.mp hlt
      exact ih hvs _ (hR.relax hv h)
  exact hfold _ (fun v hv ↦ List.mem_range.mp (List.mem_of_mem_filter hv)) s h

theorem Kept.level (hR : Kept n note R) (h : R s.value s.out) :
    R (s.level n w add note).value (s.level n w add note).out := by
  have hfold : ∀ us : List ℕ, ∀ s : Levels β, R s.value s.out →
      R (us.foldl (Levels.expand n w add note) s).value
        (us.foldl (Levels.expand n w add note) s).out := by
    intro us
    induction us with
    | nil => exact fun _ h ↦ h
    | cons u us ih => exact fun s h ↦ ih _ (hR.expand h)
  exact hfold _ _ h

theorem Kept.run (hR : Kept n note R) (h : R s.value s.out)
    (hrun : run n w add note fuel s = some s') : R s'.value s'.out := by
  induction fuel generalizing s with
  | zero =>
    rw [Levels.run] at hrun
    split_ifs at hrun
    exact Option.some.inj hrun ▸ h
  | succ fuel ih =>
    rw [Levels.run] at hrun
    split_ifs at hrun
    · exact ih (hR.level h) hrun
    · exact Option.some.inj hrun ▸ h

theorem Kept.start (hR : Kept n note R) (h : R (fun _ ↦ none) out) :
    R (start n w note edge out).value (start n w note edge out).out := by
  have hfold : ∀ vs : List ℕ, vs.Nodup → (∀ v ∈ vs, v < n) → ∀ s : Levels β, R s.value s.out →
      (∀ v ∈ vs, s.value v = none) →
      R (vs.foldl (fun s v ↦ { s.assign note v (w v) with next := s.next ++ [v] }) s).value
        (vs.foldl (fun s v ↦ { s.assign note v (w v) with next := s.next ++ [v] }) s).out := by
    intro vs
    induction vs with
    | nil => exact fun _ _ _ h _ ↦ h
    | cons v vs ih =>
      intro hnodup hlt s h hnone
      obtain ⟨hv, hvs⟩ := List.nodup_cons.mp hnodup
      obtain ⟨hltv, hltvs⟩ := List.forall_mem_cons.mp hlt
      obtain ⟨hnv, hnvs⟩ := List.forall_mem_cons.mp hnone
      refine ih hvs hltvs _ (hR _ _ _ _ hltv h fun y hy ↦ ?_) fun v' hv' ↦ ?_
      · rw [hnv] at hy
        exact absurd hy.symm (Option.some_ne_none y)
      · have hne : v' ≠ v := fun heq ↦ hv (heq ▸ hv')
        exact (Function.update_of_ne hne ..).trans (hnvs v' hv')
  exact hfold _ (List.nodup_range.filter _)
    (fun v hv ↦ List.mem_range.mp (List.mem_of_mem_filter hv)) _ h fun _ _ ↦ rfl

/-- **What holds of values and notes** at the start and is kept by each of them holds at the end. -/
theorem Kept.levels (hR : Kept n note R) (h : R (fun _ ↦ none) out)
    (hrun : levels n w add note edge out = some s) : R s.value s.out :=
  hR.run (hR.start h) hrun

end Noted

/-! ## What a vertex changes -/

theorem mem_succs : v ∈ succs n edge u ↔ v < n ∧ edge u v := by
  rw [succs, List.mem_filter, List.mem_range]

theorem nodup_succs : (succs n edge u).Nodup := List.nodup_range.filter _

/-- An edge is the last one to a vertex when no other vertex has one. -/
theorem inDegree_eq_one_iff (hu : u < n) (huv : edge u v) :
    inDegree n edge v = 1 ↔ ∀ u' < n, edge u' v → u' = u := by
  have hmem : u ∈ (List.range n).filter fun u ↦ edge u v :=
    List.mem_filter.mpr ⟨List.mem_range.mpr hu, huv⟩
  rw [inDegree, List.countP_eq_length_filter, List.length_eq_one_iff]
  constructor
  · rintro ⟨a, ha⟩ u' hu' hedge
    have hmem' : u' ∈ (List.range n).filter fun u ↦ edge u v :=
      List.mem_filter.mpr ⟨List.mem_range.mpr hu', hedge⟩
    rw [ha, List.mem_singleton] at hmem hmem'
    rw [hmem, hmem']
  · intro h
    refine ⟨u, List.perm_singleton.mp ((List.perm_ext_iff_of_nodup (List.nodup_range.filter _)
      (List.nodup_singleton u)).mpr fun u' ↦ ?_)⟩
    rw [List.mem_singleton]
    constructor
    · intro hu'
      rw [List.mem_filter, List.mem_range] at hu'
      exact h u' hu'.1 hu'.2
    · rintro rfl
      exact hmem

theorem inDegree_eq_zero_iff : inDegree n edge v = 0 ↔ ∀ u < n, ¬ edge u v := by
  rw [inDegree, List.countP_eq_zero]
  simp

theorem hasEdge_iff : hasEdge n edge ↔ ∃ u < n, ∃ v < n, edge u v := by
  simp [hasEdge]

/-- The successors have their values raised, and those without another edge to them are found. -/
theorem foldl_relax (n : ℕ) (w : ℕ → ℕ) (note : β → ℕ → ℕ → β) (vs : List ℕ) (hu : u ∉ vs)
    (hvs : vs.Nodup) (s : Levels β) :
    (vs.foldl (relax n w add note u) s).edge = s.edge ∧
      (vs.foldl (relax n w add note u) s).next
        = s.next ++ vs.filter (fun v ↦ inDegree n s.edge v = 1) ∧
      ∀ v, (vs.foldl (relax n w add note u) s).value v
        = if v ∈ vs then some (s.raised w add u v) else s.value v := by
  induction vs generalizing s with
  | nil => exact ⟨rfl, (List.append_nil _).symm, fun v ↦ (if_neg List.not_mem_nil).symm⟩
  | cons v₀ vs ih =>
    obtain ⟨hv₀, hvs⟩ := List.nodup_cons.mp hvs
    obtain ⟨hne, hu⟩ := not_or.mp (List.mem_cons.not.mp hu)
    obtain ⟨hedge, hnext, hvalue⟩ := ih hu hvs (s.relax n w add note u v₀)
    have hedge₀ : (s.relax n w add note u v₀).edge = s.edge := by
      rw [relax]
      split_ifs <;> rfl
    have hvalue₀ : (s.relax n w add note u v₀).value
        = Function.update s.value v₀ (some (s.raised w add u v₀)) := by
      rw [relax]
      split_ifs <;> rfl
    rw [List.foldl_cons, hedge, hnext, hedge₀]
    refine ⟨rfl, ?_, fun v ↦ ?_⟩
    · by_cases hone : inDegree n s.edge v₀ = 1
      · simp [relax, hone, assign]
      · simp [relax, hone, assign]
    · rw [hvalue]
      by_cases hv : v = v₀
      · subst hv
        rw [if_neg hv₀, if_pos List.mem_cons_self, hvalue₀, Function.update_self]
      · simp only [List.mem_cons, hv, false_or]
        split_ifs
        · rw [raised, raised, hvalue₀, Function.update_of_ne hv, Function.update_of_ne hne]
        · rw [hvalue₀, Function.update_of_ne hv]

/-! ## The values are final -/

variable {D : Dag} {L : ℕ → ℕ} {E pending : List ℕ} {x : ℕ}

/-- What holds when the vertices of a list have been expanded and others have been found. -/
structure Progress (D : Dag) (w L : ℕ → ℕ) (E pending : List ℕ) (s : Levels β) : Prop where
  edge : ∀ u v, s.edge u v ↔ D.edge u v ∧ u ∉ E
  found : ∀ v < D.size, v ∈ E ++ pending ↔ ∀ u, D.edge u v → u ∈ E
  nodup : (E ++ pending).Nodup
  lt_size : ∀ v ∈ E ++ pending, v < D.size
  source : ∀ v < D.size, (∀ u, ¬ D.edge u v) → s.value v = some (w v)
  raised : ∀ u v, D.edge u v → u ∈ E → ∃ x, s.value v = some x ∧ L u + w v ≤ x
  attained : ∀ u v x, D.edge u v → s.value v = some x → ∃ u' ∈ E, D.edge u' v ∧ x = L u' + w v

theorem Progress.value_eq (h : Progress D w L E pending s) (hL : D.Longest w L)
    (hv : v ∈ E ++ pending) : s.value v = some (L v) := by
  have hlt := h.lt_size v hv
  have hpred := (h.found v hlt).mp hv
  by_cases hsource : ∃ u, D.edge u v
  · obtain ⟨u, hu⟩ := hsource
    obtain ⟨a, ha, hLa⟩ := hL.attained u v hu
    obtain ⟨x, hx, hle⟩ := h.raised a v ha (hpred a ha)
    obtain ⟨b, -, hb, hxb⟩ := h.attained u v x hu hx
    have hle' := hL.le b v hb
    rw [hx, Option.some.injEq]
    omega
  · rw [h.source v hlt (not_exists.mp hsource), hL.source v (not_exists.mp hsource)]

/-- The value of a successor is raised to the weight of the path by way of the vertex. -/
theorem raised_eq (hu : s.value u = some (L u)) (hadd : add (L u) (w v) = L u + w v) :
    L u + w v ≤ s.raised w add u v ∧
      (∀ y, s.value v = some y → y ≤ s.raised w add u v) ∧
      (s.raised w add u v = L u + w v ∨ s.value v = some (s.raised w add u v)) := by
  rw [raised, hu, Option.getD_some, hadd]
  cases s.value v with
  | none => exact ⟨le_rfl, fun y hy ↦ absurd hy.symm (Option.some_ne_none y), .inl rfl⟩
  | some y =>
    refine ⟨le_max_right .., fun z hz ↦ ?_, ?_⟩
    · rw [← Option.some.inj hz]
      exact le_max_left ..
    · rcases max_choice y (L u + w v) with heq | heq
      · exact .inr (congrArg some heq.symm)
      · exact .inl heq

/-- **A vertex is expanded.** -/
theorem Progress.expand (note : β → ℕ → ℕ → β) {rest : List ℕ}
    (h : Progress D w L E (u :: (rest ++ s.next)) s)
    (hL : D.Longest w L) (hadd : ∀ v, D.edge u v → add (L u) (w v) = L u + w v) :
    Progress D w L (E ++ [u]) (rest ++ (s.expand D.size w add note u).next)
      (s.expand D.size w add note u) := by
  have hu : u ∉ E := fun hu ↦ (List.nodup_append.mp h.nodup).2.2 u hu u List.mem_cons_self rfl
  have hedge : ∀ v, s.edge u v ↔ D.edge u v := fun v ↦ by rw [h.edge, and_iff_left hu]
  have husize : u < D.size := h.lt_size u (by simp)
  have hvalue : s.value u = some (L u) := h.value_eq hL (by simp)
  have hmem : ∀ v, v ∈ succs D.size s.edge u ↔ D.edge u v := fun v ↦ by
    rw [mem_succs, hedge, and_iff_right_iff_imp]
    exact fun h ↦ (D.lt_size u v h).2
  -- a loop would relax the vertex that is expanded
  have hself : u ∉ succs D.size s.edge u := fun h ↦ D.edge_irrefl u ((hmem u).mp h)
  obtain ⟨hedge', hnext', hvalue'⟩ :=
    foldl_relax D.size w note _ hself nodup_succs s
  -- the vertices that are found now
  set F := (succs D.size s.edge u).filter fun v ↦ inDegree D.size s.edge v = 1 with hF
  have hmemF : ∀ v, v ∈ F ↔ D.edge u v ∧ ∀ u', D.edge u' v → u' ∈ E ++ [u] := by
    intro v
    rw [hF, List.mem_filter, hmem, decide_eq_true_eq]
    refine and_congr_right fun huv ↦ ?_
    rw [inDegree_eq_one_iff husize ((hedge v).mpr huv)]
    constructor
    · intro honly u' hu'
      by_cases hmem : u' ∈ E
      · exact List.mem_append_left _ hmem
      · rw [honly u' (D.lt_size u' v hu').1 ((h.edge u' v).mpr ⟨hu', hmem⟩)]
        simp
    · intro hall u' _ hu'
      obtain ⟨hu', hmem⟩ := (h.edge u' v).mp hu'
      exact List.mem_singleton.mp ((List.mem_append.mp (hall u' hu')).resolve_left hmem)
  -- the order of discovery grows at its end only
  have hlist : (E ++ [u]) ++ (rest ++ (s.expand D.size w add note u).next)
      = (E ++ u :: (rest ++ s.next)) ++ F := by
    change (E ++ [u]) ++ (rest ++ ((succs D.size s.edge u).foldl _ s).next) = _
    rw [hnext']
    simp
  have hval : ∀ v, (s.expand D.size w add note u).value v
      = if D.edge u v then some (s.raised w add u v) else s.value v := by
    intro v
    refine (hvalue' v).trans ?_
    simp only [hmem]
  refine ⟨fun a b ↦ ?_, fun v hv ↦ ?_, ?_, ?_, fun v hv hsource ↦ ?_, fun a v ha hmemE ↦ ?_,
    fun a v x ha hx ↦ ?_⟩
  · change clearOut ((succs D.size s.edge u).foldl _ s).edge u a b ↔ _
    rw [hedge', clearOut, Bool.and_eq_true, h.edge, bne_iff_ne, List.mem_append,
      List.mem_singleton, not_or, and_assoc]
  · rw [hlist, List.mem_append, h.found v hv, hmemF]
    constructor
    · rintro (hold | ⟨-, hnew⟩)
      · exact fun u' hu' ↦ List.mem_append_left _ (hold u' hu')
      · exact hnew
    · intro hall
      by_cases huv : D.edge u v
      · exact .inr ⟨huv, hall⟩
      · refine .inl fun u' hu' ↦ (List.mem_append.mp (hall u' hu')).resolve_right fun heq ↦ ?_
        rw [List.mem_singleton.mp heq] at hu'
        exact huv hu'
  · rw [hlist, List.nodup_append]
    refine ⟨h.nodup, nodup_succs.filter _, fun a ha b hb heq ↦ ?_⟩
    subst heq
    have huv := ((hmemF a).mp hb).1
    exact hu ((h.found a (D.lt_size u a huv).2).mp ha u huv)
  · rw [hlist, List.forall_mem_append]
    exact ⟨h.lt_size, fun v hv ↦ (D.lt_size u v ((hmemF v).mp hv).1).2⟩
  · rw [hval, if_neg (hsource u)]
    exact h.source v hv hsource
  · rw [hval]
    by_cases huv : D.edge u v
    · rw [if_pos huv]
      obtain ⟨hle, hold, -⟩ := raised_eq hvalue (hadd v huv)
      refine ⟨_, rfl, ?_⟩
      -- the bound is an old one of `v`, or the one that `u` gives
      rcases List.mem_append.mp hmemE with hmemE | heq
      · obtain ⟨x, hx, hxle⟩ := h.raised a v ha hmemE
        exact hxle.trans (hold x hx)
      · rw [List.mem_singleton.mp heq]
        exact hle
    · rw [if_neg huv]
      refine h.raised a v ha ((List.mem_append.mp hmemE).resolve_right fun heq ↦ huv ?_)
      rwa [List.mem_singleton.mp heq] at ha
  · rw [hval] at hx
    by_cases huv : D.edge u v
    · rw [if_pos huv, Option.some.injEq] at hx
      subst hx
      obtain ⟨-, -, heq | hold⟩ := raised_eq hvalue (hadd v huv)
      · exact ⟨u, by simp, huv, heq⟩
      · obtain ⟨u', hu', hedge', heq⟩ := h.attained a v _ ha hold
        exact ⟨u', List.mem_append_left _ hu', hedge', heq⟩
    · rw [if_neg huv] at hx
      obtain ⟨u', hu', hedge', heq⟩ := h.attained a v x ha hx
      exact ⟨u', List.mem_append_left _ hu', hedge', heq⟩

/-- A round expands the vertices found in the last one. -/
theorem Progress.level (note : β → ℕ → ℕ → β) (h : Progress D w L E s.next s) (hL : D.Longest w L)
    (hadd : ∀ u v, D.edge u v → add (L u) (w v) = L u + w v) :
    Progress D w L (E ++ s.next) (s.level D.size w add note).next (s.level D.size w add note) := by
  have hfold : ∀ (us E : List ℕ) (s : Levels β), Progress D w L E (us ++ s.next) s →
      Progress D w L (E ++ us) (us.foldl (Levels.expand D.size w add note) s).next
        (us.foldl (Levels.expand D.size w add note) s) := by
    intro us
    induction us with
    | nil => exact fun E s h ↦ by rwa [List.append_nil]
    | cons u us ih =>
      intro E s h
      have hstep := ih (E ++ [u]) _ (h.expand note hL (hadd u))
      rwa [List.append_assoc, List.singleton_append] at hstep
  refine hfold s.next E { s with next := [] } ?_
  rw [List.append_nil]
  exact ⟨h.edge, h.found, h.nodup, h.lt_size, h.source, h.raised, h.attained⟩

/-- When nothing more is found all vertices have been expanded. -/
theorem Progress.mem (h : Progress D w L E [] s) (hv : v < D.size) : v ∈ E := by
  induction v using D.wellFounded.induction with
  | _ v ih =>
    have hfound := h.found v hv
    rw [List.append_nil] at hfound
    exact hfound.mpr fun u hu ↦ ih u hu (D.lt_size u v hu).1

theorem Progress.hasEdge_eq_false (h : Progress D w L E [] s) :
    ¬ (hasEdge D.size s.edge ∨ ([] : List ℕ) ≠ []) := by
  rintro (hedge | hne)
  · obtain ⟨u, hu, v, -, huv⟩ := hasEdge_iff.mp hedge
    exact ((h.edge u v).mp huv).2 (h.mem hu)
  · exact hne rfl

/-- The rounds end, and all vertices have been expanded. -/
theorem Progress.run (note : β → ℕ → ℕ → β) (h : Progress D w L E s.next s) (hL : D.Longest w L)
    (hadd : ∀ u v, D.edge u v → add (L u) (w v) = L u + w v)
    (hfuel : D.size ≤ fuel + E.length) :
    ∃ E' s', run D.size w add note fuel s = some s' ∧ Progress D w L E' [] s' := by
  have hstop : s.next = [] → Progress D w L E [] s ∧
      ¬ (hasEdge D.size s.edge ∨ s.next ≠ []) := fun hnext ↦ by
    rw [hnext] at h ⊢
    exact ⟨h, h.hasEdge_eq_false⟩
  induction fuel generalizing s E with
  | zero =>
    -- all vertices have been expanded, so none is left to be found
    have hlen : (E ++ s.next).length ≤ (List.range D.size).length :=
      (h.nodup.subperm fun v hv ↦ List.mem_range.mpr (h.lt_size v hv)).length_le
    rw [List.length_append, List.length_range] at hlen
    obtain ⟨hdone, hno⟩ := hstop (List.length_eq_zero_iff.mp (by omega))
    exact ⟨E, s, by rw [Levels.run, if_neg hno], hdone⟩
  | succ fuel ih =>
    by_cases hnext : s.next = []
    · obtain ⟨hdone, hno⟩ := hstop hnext
      exact ⟨E, s, by rw [Levels.run, if_neg hno], hdone⟩
    · have hlevel := h.level note hL hadd
      have hpos : 0 < s.next.length := List.length_pos_iff.mpr hnext
      rw [Levels.run, if_pos (.inr hnext)]
      refine ih hlevel ?_ fun hnext' ↦ ?_
      · rw [List.length_append]
        omega
      · rw [hnext'] at hlevel ⊢
        exact ⟨hlevel, hlevel.hasEdge_eq_false⟩

theorem Progress.start (note : β → ℕ → ℕ → β) (out : β) :
    Progress D w L [] (Levels.start D.size w note D.edge out).next
    (Levels.start D.size w note D.edge out) := by
  -- assigning a list of vertices writes their weights and queues them in order
  have hfold : ∀ (vs : List ℕ) (s : Levels β),
      (vs.foldl (fun s v ↦ { s.assign note v (w v) with next := s.next ++ [v] }) s).edge
          = s.edge ∧
        (vs.foldl (fun s v ↦ { s.assign note v (w v) with next := s.next ++ [v] }) s).next
          = s.next ++ vs ∧
        ∀ v, (vs.foldl (fun s v ↦ { s.assign note v (w v) with next := s.next ++ [v] }) s).value v
          = if v ∈ vs then some (w v) else s.value v := by
    intro vs
    induction vs with
    | nil => exact fun s ↦ ⟨rfl, (List.append_nil _).symm, fun v ↦ (if_neg List.not_mem_nil).symm⟩
    | cons v₀ vs ih =>
      intro s
      obtain ⟨hedge, hnext, hvalue⟩ := ih { s.assign note v₀ (w v₀) with next := s.next ++ [v₀] }
      refine ⟨hedge, hnext.trans (by simp), fun v ↦ (hvalue v).trans ?_⟩
      by_cases hmem : v ∈ vs
      · rw [if_pos hmem, if_pos (List.mem_cons_of_mem _ hmem)]
      · by_cases hv : v = v₀
        · simp [hv, assign]
        · simp [hv, hmem, assign]
  obtain ⟨hedge, hnext, hvalue⟩ := hfold
    ((List.range D.size).filter fun v ↦ inDegree D.size D.edge v = 0)
    ⟨D.edge, fun _ ↦ none, out, []⟩
  have hmem : ∀ v, v ∈ (Levels.start D.size w note D.edge out).next ↔
      v < D.size ∧ ∀ u, ¬ D.edge u v := by
    intro v
    rw [Levels.start, hnext, List.nil_append, List.mem_filter, List.mem_range, decide_eq_true_eq,
      inDegree_eq_zero_iff]
    exact and_congr_right fun _ ↦ ⟨fun h u hu ↦ h u (D.lt_size u v hu).1 hu, fun h u _ ↦ h u⟩
  have hval : ∀ v, (Levels.start D.size w note D.edge out).value v
      = if v ∈ (Levels.start D.size w note D.edge out).next then some (w v) else none := by
    intro v
    rw [Levels.start, hvalue, hnext, List.nil_append]
  refine ⟨fun u v ↦ ?_, fun v hv ↦ ?_, ?_, fun v hv ↦ ((hmem v).mp hv).1, fun v hv hsource ↦ ?_,
    fun u v _ hu ↦ absurd hu List.not_mem_nil, fun u v x huv hx ↦ ?_⟩
  · rw [Levels.start, hedge]
    simp
  · rw [List.nil_append, hmem]
    simp [hv]
  · rw [List.nil_append, Levels.start, hnext, List.nil_append]
    exact List.nodup_range.filter _
  · rw [hval, if_pos ((hmem v).mpr ⟨hv, hsource⟩)]
  · rw [hval, if_neg fun hv ↦ ((hmem v).mp hv).2 u huv] at hx
    exact absurd hx.symm (Option.some_ne_none x)

/-- **The greatest weights are found**, where no addition along a path wraps around. -/
theorem exists_levels (add : ℕ → ℕ → ℕ) (note : β → ℕ → ℕ → β) (out : β) (hL : D.Longest w L)
    (hadd : ∀ u v, D.edge u v → add (L u) (w v) = L u + w v) :
    ∃ s, levels D.size w add note D.edge out = some s ∧ ∀ v < D.size, s.value v = some (L v) := by
  obtain ⟨E, s, hrun, hdone⟩ :=
    (Progress.start note out).run note hL hadd (Nat.le_add_right D.size _)
  exact ⟨s, hrun, fun v hv ↦ hdone.value_eq hL (by simpa using hdone.mem hv)⟩

end Levels

end Scheduling
