import Mathlib.Tactic.NormNum
import ScaffCC.Braid.Dag
import ScaffCC.Braid.Event
import ScaffCC.Scheduling.Levels

/-!
# The critical path and the criticality of a gate

`get_critical_clk` goes through the dependency graph level by level and finds the greatest latency
of a chain of gates. `assign_criticality` goes through the graph with all edges turned round, and
gives each gate the greatest latency of a chain that starts with it. The first counts in 64 bits.
The second is meant to be exactly like it but counts in 32 bits, and the criticality is a signed
number.

So the two agree, and the criticality of each gate is its latency and the greatest criticality of
its successors, exactly when no chain of gates has a latency of `2 ^ 31` or more.
-/

open Scheduling

namespace ScaffCC.Braid

/-! ## The graph -/

/-- The gates with their dependencies. No sequence number is used twice. -/
structure GateDag extends Dag where
  gates : List Gate
  size_eq : size = gates.length
  nodup : (gates.map Gate.seq).Nodup

/-- The graph of the gates of a module. -/
def GateDag.ofGates (gates : List Gate) (nodup : (gates.map Gate.seq).Nodup) : GateDag where
  size := gates.length
  edge := dagEdge gates
  lt_size _ _ h := by
    obtain ⟨-, q, hi, hj⟩ := sharesBefore_of_dagEdge h
    exact ⟨lt_length_of_mem_qidAt hi, lt_length_of_mem_qidAt hj⟩
  acyclic := ⟨id, fun _ _ h ↦ (sharesBefore_of_dagEdge h).1⟩
  gates := gates
  size_eq := rfl
  nodup := nodup

/-- The position of the gate with a sequence number. -/
def gate_map (gates : List Gate) (seq : ℕ) : ℕ := gates.findIdx fun g ↦ g.seq = seq

/-! ## Latencies -/

/-- The sum of the timers of some events, in 32 bits. -/
def timersSum (code_distance : ℕ) (types : List EventType) : ℕ :=
  ((types.map (event_timers code_distance)).sum % 2 ^ 32).toNat

/-- The latency of a gate. That of a `T` is the timer of its only event, and there is no entry for
its inverse, which is zero then. -/
def get_gate_latency (code_distance : ℕ) (g : Gate) : ℕ :=
  match g.op with
  | .CNOT _ _ => timersSum code_distance [.cnot1, .cnot2, .cnot3, .cnot4, .cnot5, .cnot6, .cnot7]
  | .H _ => timersSum code_distance [.h1, .h2]
  | .T _ => 1
  | .Tdag _ | .S _ | .Sdag _ => 0

namespace GateDag

variable (D : GateDag) (code_distance : ℕ)

/-- The latency of the gate at a position. -/
def latency (v : ℕ) : ℕ := (D.gates[v]?.map (get_gate_latency code_distance)).getD 0

/-! ## The two walks -/

/-- The result is raised to the value that a gate gets. -/
def raiseResult (result _v x : ℕ) : ℕ := if x > result then x else result

/-- The latency of the slowest chain of gates. -/
def get_critical_clk : Option ℕ :=
  (Levels.levels D.size (D.latency code_distance) (fun a b ↦ (a + b) % 2 ^ 64) raiseResult
    D.edge 0).map Levels.out

/-- A gate gets its criticality, by way of its sequence number. -/
def setCriticality (criticality : ℕ → ℤ) (v x : ℕ) : ℕ → ℤ :=
  match D.gates[v]? with
  | some g => Function.update criticality (gate_map D.gates g.seq) (Int.bmod x (2 ^ 32))
  | none => criticality

def assign_criticality : Option (ℕ → ℤ) :=
  (Levels.levels D.size (D.latency code_distance) (fun a b ↦ (a + b) % 2 ^ 32)
    D.setCriticality D.reverse.edge fun _ ↦ -1).map Levels.out

/-! ## What they should find -/

/-- A number is the greatest criticality of a gate. It is zero if there are no gates. -/
structure GreatestCriticality (criticality : ℕ → ℤ) (clk : ℕ) : Prop where
  le : ∀ v < D.size, criticality v ≤ clk
  attained : D.size = 0 ∧ clk = 0 ∨ ∃ v < D.size, criticality v = clk

/-- The criticality of each gate is its latency, and the greatest criticality of its successors if
it has any. -/
structure SuccessorCriticality (criticality : ℕ → ℤ) : Prop where
  alone : ∀ v < D.size, (∀ u, ¬ D.edge v u) → criticality v = D.latency code_distance v
  le : ∀ v u, D.edge v u → D.latency code_distance v + criticality u ≤ criticality v
  attained : ∀ v u, D.edge v u →
    ∃ u', D.edge v u' ∧ criticality v = D.latency code_distance v + criticality u'

/-- **What both walks together should find.** -/
def CriticalityRight : Prop :=
  ∃ clk criticality, D.get_critical_clk code_distance = some clk ∧
    D.assign_criticality code_distance = some criticality ∧
    D.GreatestCriticality criticality clk ∧ D.SuccessorCriticality code_distance criticality

/-- Some gates, each of which depends on the one before it. -/
def IsChain (c : List ℕ) : Prop := c.IsChain fun u v ↦ D.edge u v = true

/-- No chain of gates takes too long to be counted. -/
def ShortChains : Prop := ∀ c, D.IsChain c → (c.map (D.latency code_distance)).sum < 2 ^ 31

variable {D code_distance} {L K : ℕ → ℕ} {clk : ℕ} {criticality : ℕ → ℤ} {u v : ℕ} {g : Gate}

/-! ## Latencies of chains -/

theorem gate_map_seq (h : D.gates[v]? = some g) : gate_map D.gates g.seq = v := by
  obtain ⟨hv, rfl⟩ := List.getElem?_eq_some_iff.mp h
  rw [gate_map, List.findIdx_eq hv]
  refine ⟨decide_eq_true rfl, fun j hj ↦ decide_eq_false fun heq ↦ ?_⟩
  have hj' : j < D.gates.length := hj.trans hv
  have hseq : (D.gates.map Gate.seq)[j]? = (D.gates.map Gate.seq)[v]? := by
    simp [hj', hv, heq]
  exact hj.ne ((List.getElem?_inj (by simpa using hj') D.nodup).mp hseq)

theorem isChain_reverse {c : List ℕ} :
    c.reverse.IsChain (fun u v ↦ D.reverse.edge u v = true) ↔ D.IsChain c :=
  List.isChain_reverse

/-- A chain that ends with a gate is no slower than the slowest chain to it. -/
theorem sum_le_longest {c : List ℕ} (hL : D.Longest (D.latency code_distance) L)
    (hc : D.IsChain (c ++ [v])) : ((c ++ [v]).map (D.latency code_distance)).sum ≤ L v :=
  hL.sum_le hc

/-- A chain that starts with a gate is no slower than the slowest chain from it. -/
theorem sum_le_longest_reverse {c : List ℕ} (hK : D.reverse.Longest (D.latency code_distance) K)
    (hc : D.IsChain (v :: c)) : ((v :: c).map (D.latency code_distance)).sum ≤ K v := by
  have hrev := isChain_reverse.mpr hc
  rw [List.reverse_cons] at hrev
  have hle := hK.sum_le hrev
  rwa [← List.reverse_cons, List.map_reverse, List.sum_reverse] at hle

/-- The slowest chain to a gate is no slower than the slowest chain from some gate. -/
theorem exists_longest_le_reverse (hL : D.Longest (D.latency code_distance) L)
    (hK : D.reverse.Longest (D.latency code_distance) K) (hv : v < D.size) :
    ∃ u < D.size, L v ≤ K u := by
  obtain ⟨c, hc, hlt, hsum⟩ := hL.exists_sum_eq hv
  obtain ⟨u, d, hud⟩ := List.exists_cons_of_ne_nil (List.append_ne_nil_of_right_ne_nil c
    (List.cons_ne_nil v []))
  rw [hud] at hc hlt hsum
  exact ⟨u, hlt u List.mem_cons_self, hsum ▸ sum_le_longest_reverse hK hc⟩

/-- The slowest chain from a gate is no slower than the slowest chain to some gate. -/
theorem exists_reverse_le_longest (hL : D.Longest (D.latency code_distance) L)
    (hK : D.reverse.Longest (D.latency code_distance) K) (hv : v < D.size) :
    ∃ u < D.size, K v ≤ L u := by
  obtain ⟨c, hc, hlt, hsum⟩ := hK.exists_sum_eq hv
  have hrev : (c ++ [v]).reverse = v :: c.reverse := by simp
  obtain ⟨d, u, hdu⟩ := (List.eq_nil_or_concat (c ++ [v]).reverse).resolve_left
    (hrev ▸ List.cons_ne_nil v c.reverse)
  rw [List.concat_eq_append] at hdu
  have hchain : D.IsChain (d ++ [u]) := by
    rw [← hdu, ← isChain_reverse, List.reverse_reverse]
    exact hc
  refine ⟨u, hlt u (List.mem_reverse.mp ?_), ?_⟩
  · rw [hdu]
    simp
  · rw [← hsum, ← List.sum_reverse, ← List.map_reverse, hdu]
    exact sum_le_longest hL hchain

theorem ShortChains.longest_lt (h : D.ShortChains code_distance)
    (hL : D.Longest (D.latency code_distance) L) (hv : v < D.size) : L v < 2 ^ 31 := by
  obtain ⟨c, hc, -, hsum⟩ := hL.exists_sum_eq hv
  exact hsum ▸ h _ hc

theorem ShortChains.reverse_lt (h : D.ShortChains code_distance)
    (hK : D.reverse.Longest (D.latency code_distance) K) (hv : v < D.size) : K v < 2 ^ 31 := by
  obtain ⟨u, hu, hle⟩ := exists_reverse_le_longest (D.exists_longest _).choose_spec hK hv
  exact hle.trans_lt (h.longest_lt (D.exists_longest _).choose_spec hu)

/-! ## What the walks find -/

theorem kept_raiseResult {n : ℕ} :
    Levels.Kept n raiseResult fun value result ↦
      (∀ v < n, ∀ x, value v = some x → x ≤ result) ∧
        (result = 0 ∨ ∃ v < n, ∃ x, value v = some x ∧ result ≤ x) := by
  intro value result v x hv ⟨hle, hatt⟩ hmono
  have hself : Function.update value v (some x) v = some x := Function.update_self ..
  by_cases hx : x > result
  · rw [raiseResult, if_pos hx]
    refine ⟨fun v' hv' y hy ↦ ?_, .inr ⟨v, hv, x, hself, le_rfl⟩⟩
    by_cases heq : v' = v
    · subst heq
      rw [hself] at hy
      exact (Option.some.inj hy).ge
    · rw [Function.update_of_ne heq] at hy
      exact (hle v' hv' y hy).trans hx.le
  · rw [raiseResult, if_neg hx]
    refine ⟨fun v' hv' y hy ↦ ?_, hatt.imp_right ?_⟩
    · by_cases heq : v' = v
      · subst heq
        rw [hself] at hy
        exact (Option.some.inj hy) ▸ not_lt.mp hx
      · rw [Function.update_of_ne heq] at hy
        exact hle v' hv' y hy
    · rintro ⟨v', hv', y, hy, hley⟩
      by_cases heq : v' = v
      · subst heq
        exact ⟨v', hv', x, hself, hley.trans (hmono y hy)⟩
      · exact ⟨v', hv', y, by rwa [Function.update_of_ne heq], hley⟩

theorem kept_setCriticality :
    Levels.Kept D.size D.setCriticality fun value criticality ↦
      (∀ v, criticality v < 2 ^ 31) ∧
        ∀ v < D.size, ∀ x, value v = some x → criticality v = Int.bmod x (2 ^ 32) := by
  intro value criticality v x hv ⟨hlt, heq⟩ _
  obtain ⟨g, hgate⟩ : ∃ g, D.gates[v]? = some g :=
    ⟨_, List.getElem?_eq_getElem (D.size_eq ▸ hv)⟩
  rw [setCriticality, hgate]
  dsimp only
  rw [gate_map_seq hgate]
  refine ⟨fun v' ↦ ?_, fun v' hv' y hy ↦ ?_⟩
  · by_cases hne : v' = v
    · subst hne
      rw [Function.update_self]
      exact Int.bmod_lt (by norm_num)
    · rw [Function.update_of_ne hne]
      exact hlt v'
  · by_cases hne : v' = v
    · subst hne
      rw [Function.update_self, Option.some.injEq] at hy
      rw [Function.update_self, hy]
    · rw [Function.update_of_ne hne] at hy ⊢
      exact heq v' hv' y hy

theorem ShortChains.get_critical_clk (h : D.ShortChains code_distance)
    (hL : D.Longest (D.latency code_distance) L) :
    ∃ clk, D.get_critical_clk code_distance = some clk ∧ (∀ v < D.size, L v ≤ clk) ∧
      (D.size = 0 ∧ clk = 0 ∨ ∃ v < D.size, clk = L v) := by
  have hadd : ∀ u v, D.edge u v →
      (L u + D.latency code_distance v) % 2 ^ 64 = L u + D.latency code_distance v := by
    intro u v huv
    have hle := hL.le u v huv
    have hlt := h.longest_lt hL (D.lt_size u v huv).2
    exact Nat.mod_eq_of_lt (by omega)
  obtain ⟨s, hs, hvalue⟩ := Levels.exists_levels (fun a b ↦ (a + b) % 2 ^ 64) raiseResult 0
    hL hadd
  obtain ⟨hle, hatt⟩ := kept_raiseResult.levels
    ⟨fun v _ x hx ↦ absurd hx.symm (Option.some_ne_none x), .inl rfl⟩ hs
  refine ⟨s.out, by rw [GateDag.get_critical_clk, hs, Option.map_some],
    fun v hv ↦ hle v hv _ (hvalue v hv), ?_⟩
  rcases hatt with hzero | ⟨v, hv, x, hx, hlex⟩
  · rcases Nat.eq_zero_or_pos D.size with hsize | hsize
    · exact .inl ⟨hsize, hzero⟩
    · have hle0 := hle 0 hsize _ (hvalue 0 hsize)
      exact .inr ⟨0, hsize, by omega⟩
  · rw [hvalue v hv, Option.some.injEq] at hx
    have hlev := hle v hv _ (hvalue v hv)
    exact .inr ⟨v, hv, by omega⟩

theorem ShortChains.assign_criticality (h : D.ShortChains code_distance)
    (hK : D.reverse.Longest (D.latency code_distance) K) :
    ∃ criticality, D.assign_criticality code_distance = some criticality ∧
      ∀ v < D.size, criticality v = K v := by
  have hadd : ∀ u v, D.reverse.edge u v →
      (K u + D.latency code_distance v) % 2 ^ 32 = K u + D.latency code_distance v := by
    intro u v huv
    have hle := hK.le u v huv
    have hlt := h.reverse_lt hK (D.lt_size v u huv).1
    exact Nat.mod_eq_of_lt (by omega)
  obtain ⟨s, hs, hvalue⟩ := Levels.exists_levels (fun a b ↦ (a + b) % 2 ^ 32) D.setCriticality
    (fun _ ↦ -1) hK hadd
  obtain ⟨-, heq⟩ := kept_setCriticality.levels
    ⟨fun _ ↦ by norm_num, fun v _ x hx ↦ absurd hx.symm (Option.some_ne_none x)⟩ hs
  refine ⟨s.out, ?_, fun v hv ↦ ?_⟩
  · rw [GateDag.assign_criticality]
    exact congrArg (Option.map Levels.out) hs
  · have hlt := h.reverse_lt hK hv
    rw [heq v hv _ (hvalue v hv), Int.bmod_eq_of_le (by omega) (by omega)]

theorem assign_criticality_lt (h : D.assign_criticality code_distance = some criticality) :
    criticality v < 2 ^ 31 := by
  obtain ⟨s, hs, rfl⟩ := Option.map_eq_some_iff.mp h
  exact (kept_setCriticality.levels
    ⟨fun _ ↦ by norm_num, fun v _ x hx ↦ absurd hx.symm (Option.some_ne_none x)⟩ hs).1 v

theorem SuccessorCriticality.eq (h : D.SuccessorCriticality code_distance criticality)
    (hK : D.reverse.Longest (D.latency code_distance) K) (hv : v < D.size) :
    criticality v = K v := by
  induction v using D.reverse.wellFounded.induction with
  | _ v ih =>
    by_cases hsucc : ∃ u, D.edge v u
    · obtain ⟨u, hu⟩ := hsucc
      obtain ⟨a, ha, hcrit⟩ := h.attained v u hu
      obtain ⟨b, hb, hKb⟩ := hK.attained u v hu
      have hle := h.le v b hb
      have hle' := hK.le a v ha
      rw [ih b hb (D.lt_size v b hb).2] at hle
      rw [ih a ha (D.lt_size v a ha).2] at hcrit
      omega
    · rw [h.alone v hv (not_exists.mp hsucc), hK.source v (not_exists.mp hsucc)]

/-- What both walks should find excludes slow chains. -/
theorem CriticalityRight.shortChains (h : D.CriticalityRight code_distance) :
    D.ShortChains code_distance := by
  obtain ⟨-, criticality, -, hcrit, -, hsucc⟩ := h
  obtain ⟨K, hK⟩ := D.reverse.exists_longest (D.latency code_distance)
  intro c hc
  cases c with
  | nil => norm_num
  | cons v c =>
    have hle := sum_le_longest_reverse hK hc
    by_cases hv : v < D.size
    · have hlt := assign_criticality_lt (v := v) hcrit
      rw [hsucc.eq hK hv] at hlt
      omega
    · have hsource := hK.source v fun u hu ↦ hv (D.lt_size v u hu).1
      have hnone : D.gates[v]? = none := List.getElem?_eq_none (D.size_eq ▸ not_lt.mp hv)
      rw [latency, hnone] at hsource
      exact (hle.trans hsource.le).trans_lt (by norm_num)

/-- **Both walks find what they should** exactly if no chain of gates has a latency of `2 ^ 31` or
more. -/
theorem criticalityRight_iff (D : GateDag) (code_distance : ℕ) :
    D.CriticalityRight code_distance ↔ D.ShortChains code_distance := by
  refine ⟨CriticalityRight.shortChains, fun h ↦ ?_⟩
  obtain ⟨L, hL⟩ := D.exists_longest (D.latency code_distance)
  obtain ⟨K, hK⟩ := D.reverse.exists_longest (D.latency code_distance)
  obtain ⟨clk, hclk, hle, hatt⟩ := h.get_critical_clk hL
  obtain ⟨criticality, hcrit, heq⟩ := h.assign_criticality hK
  refine ⟨clk, criticality, hclk, hcrit, ⟨fun v hv ↦ ?_, hatt.imp_right ?_⟩,
    ⟨fun v hv hnone ↦ ?_, fun v u hu ↦ ?_, fun v u hu ↦ ?_⟩⟩
  · obtain ⟨u, hu, hKL⟩ := exists_reverse_le_longest hL hK hv
    rw [heq v hv, Int.ofNat_le]
    exact hKL.trans (hle u hu)
  · rintro ⟨v, hv, hclkL⟩
    obtain ⟨u, hu, hLK⟩ := exists_longest_le_reverse hL hK hv
    obtain ⟨u', hu', hKL⟩ := exists_reverse_le_longest hL hK hu
    have hle' := hle u' hu'
    exact ⟨u, hu, by rw [heq u hu]; omega⟩
  · rw [heq v hv, hK.source v hnone]
  · obtain ⟨hv, hu'⟩ := D.lt_size v u hu
    have hleK := hK.le u v hu
    rw [heq v hv, heq u hu']
    omega
  · obtain ⟨u', hu', hKv⟩ := hK.attained u v hu
    refine ⟨u', hu', ?_⟩
    rw [heq v (D.lt_size v u hu).1, heq u' (D.lt_size v u' hu').2, hKv]
    omega

/-! ## A chain that takes too long -/

/-- A number of `H` gates on one qubit. -/
def hadamards (n : ℕ) : List Gate := (List.range n).map fun i ↦ ⟨i + 1, .H 0⟩

theorem hadamards_nodup (n : ℕ) : ((hadamards n).map Gate.seq).Nodup := by
  rw [hadamards, List.map_map]
  exact List.nodup_range.map fun i j h ↦ Nat.succ.inj h

theorem getElem?_hadamards {n i : ℕ} (hi : i < n) :
    (hadamards n)[i]? = some ⟨i + 1, .H 0⟩ := by
  rw [hadamards, List.getElem?_map, List.getElem?_range hi, Option.map_some]

theorem isChain_hadamards (n : ℕ) :
    (GateDag.ofGates (hadamards n) (hadamards_nodup n)).IsChain (List.range n) := by
  rw [IsChain, List.isChain_iff_getElem]
  intro i hi
  rw [List.length_range] at hi
  have hmem : ∀ j < n, 0 ∈ qidAt (hadamards n) j := fun j hj ↦
    (mem_qidAt (getElem?_hadamards hj)).mpr (List.mem_singleton.mpr rfl)
  rw [List.getElem_range, List.getElem_range]
  refine List.any_eq_true.mpr ⟨0, hmem i (by omega), beq_iff_eq.mpr (nextUse_eq_some.mpr
    ⟨i.lt_succ_self, hmem (i + 1) hi, fun k hik hki ↦ ?_⟩)⟩
  omega

theorem sum_latency_hadamards (n : ℕ) :
    ((List.range n).map ((GateDag.ofGates (hadamards n) (hadamards_nodup n)).latency 0)).sum
      = n * 9 := by
  have heq : (List.range n).map ((GateDag.ofGates (hadamards n) (hadamards_nodup n)).latency 0)
      = (List.range n).map fun _ ↦ 9 := by
    refine List.map_congr_left fun i hi ↦ ?_
    rw [latency]
    change ((hadamards n)[i]?.map (get_gate_latency 0)).getD 0 = 9
    rw [getElem?_hadamards (List.mem_range.mp hi)]
    rfl
  rw [heq, List.map_const', List.length_range, List.sum_replicate_nat]

/-- The criticality of the first of many `H` gates on one qubit is not what it should be. -/
theorem not_criticalityRight_hadamards :
    ¬ (GateDag.ofGates (hadamards 238609295) (hadamards_nodup _)).CriticalityRight 0 := by
  intro h
  have hlt := h.shortChains _ (isChain_hadamards _)
  rw [sum_latency_hadamards] at hlt
  omega

end GateDag

end ScaffCC.Braid
