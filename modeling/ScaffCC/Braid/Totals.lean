import Mathlib.Algebra.BigOperators.Group.List.Basic
import Mathlib.Algebra.Order.Monoid.NatCast
import Mathlib.Tactic.Linarith
import Mathlib.Tactic.Ring
import ScaffCC.Braid.Mesh
import ScaffCC.IR.Gate

/-!
# Cycles of all modules

The modules are simulated one after the other. After each of them its cycles are added to the
totals, once for each time the module is called, and the totals are multiplied by the latency of a
factory. So the cycles of a module are multiplied once more for every module that is simulated after
it, and the totals depend on the order of the modules.

The totals are as large as they should be if there is at most one factor, or if no total wraps
around, exactly then.
-/

namespace ScaffCC.Braid

/-- The three totals. -/
inductive Counter | serial | parallel | critical
  deriving DecidableEq, Repr

/-- A module: its name, its number of qubits and what its simulation comes to. -/
structure Module where
  name : Ident
  q_count : ℕ
  clk : Counter → ℕ

def Module.simulated (m : Module) : Bool :=
  ¬ (num_rows m.q_count = 1 ∧ num_cols m.q_count = 1)

/-- An `unsigned long long`. -/
def wrap (n : ℕ) : ℕ := n % 2 ^ 64

section Program

variable (module_freqs : Ident → Option ℕ) (single_A_latency : ℕ)

def Module.cycles (m : Module) (c : Counter) : ℕ := m.clk c * (module_freqs m.name).getD 1

/-- A round of the loop over the modules. -/
def addModule (totals : Counter → ℕ) (m : Module) : Counter → ℕ :=
  if m.simulated then fun c ↦
    wrap (wrap (totals c + wrap (m.cycles module_freqs c)) * single_A_latency)
  else totals

/-- The totals after the loop. -/
def totals (modules : List Module) : Counter → ℕ :=
  modules.foldl (addModule module_freqs single_A_latency) fun _ ↦ 0

def simulatedCycles (modules : List Module) (c : Counter) : List ℕ :=
  (modules.filter Module.simulated).map fun m ↦ m.cycles module_freqs c

/-- In every order of the modules each total is the latency times the sum. -/
def TotalsRight (modules : List Module) : Prop :=
  ∀ ms, ms.Perm modules → ∀ c, totals module_freqs single_A_latency ms c
    = single_A_latency * (simulatedCycles module_freqs modules c).sum

end Program

/-- The total without a limit to its size. -/
def rescaled (latency total : ℕ) (cycles : List ℕ) : ℕ :=
  cycles.foldl (fun total n ↦ (total + n) * latency) total

/-- The latency makes no difference, there is at most one module, or no module has any cycles. -/
def AtMostOnce (module_freqs : Ident → Option ℕ) (single_A_latency : ℕ) (modules : List Module) :
    Prop :=
  single_A_latency ≤ 1 ∨ (modules.filter Module.simulated).length ≤ 1 ∨
    ∀ c, ∀ n ∈ simulatedCycles module_freqs modules c, n = 0

/-- In some order a total becomes too large. -/
def Wraps (module_freqs : Ident → Option ℕ) (single_A_latency : ℕ) (modules : List Module) :
    Prop :=
  ∃ ms, ms.Perm modules ∧ ∃ c,
    2 ^ 64 ≤ rescaled single_A_latency 0 (simulatedCycles module_freqs ms c)

variable {module_freqs : Ident → Option ℕ} {A t : ℕ} {modules ms : List Module} {c : Counter}

/-! ## One total -/

theorem wrap_wrap_add (a b : ℕ) : wrap (wrap a + wrap b) = wrap (a + b) :=
  (Nat.add_mod a b _).symm

theorem wrap_wrap_mul (a b : ℕ) : wrap (wrap a * b) = wrap (a * b) := Nat.mod_mul_mod ..

theorem rescaled_cons (t n : ℕ) (ns : List ℕ) :
    rescaled A t (n :: ns) = rescaled A ((t + n) * A) ns := rfl

theorem rescaled_append (t : ℕ) (ns ns' : List ℕ) :
    rescaled A t (ns ++ ns') = rescaled A (rescaled A t ns) ns' := List.foldl_append

theorem totals_eq (modules : List Module) (c : Counter) :
    totals module_freqs A modules c
      = wrap (rescaled A 0 (simulatedCycles module_freqs modules c)) := by
  induction modules using List.reverseRecOn with
  | nil => rfl
  | append_singleton ms m ih =>
    rw [totals, List.foldl_append, ← totals, List.foldl_cons, List.foldl_nil, addModule,
      simulatedCycles, List.filter_append, List.map_append, ← simulatedCycles]
    by_cases hm : m.simulated
    · rw [if_pos hm, ih, List.filter_cons_of_pos hm, rescaled_append, wrap_wrap_add,
        wrap_wrap_mul]
      rfl
    · rw [if_neg hm, ih, List.filter_cons_of_neg hm, List.filter_nil, List.map_nil,
        List.append_nil]

theorem le_rescaled (hA : 1 ≤ A) (ns : List ℕ) (t : ℕ) : t + A * ns.sum ≤ rescaled A t ns := by
  induction ns generalizing t with
  | nil => exact (Nat.add_zero t).le
  | cons n ns ih =>
    rw [rescaled_cons, List.sum_cons]
    calc t + A * (n + ns.sum) ≤ (t + n) * A + A * ns.sum := by nlinarith
      _ ≤ rescaled A ((t + n) * A) ns := ih _

/-- The first of several numbers is multiplied more than once. -/
theorem lt_rescaled (hA : 2 ≤ A) {n n' : ℕ} (hn : 0 < n) (ns : List ℕ) :
    A * (n :: n' :: ns).sum < rescaled A 0 (n :: n' :: ns) := by
  rw [rescaled_cons, rescaled_cons, zero_add, List.sum_cons, List.sum_cons]
  have htwice : n * A < n * A * A := lt_mul_of_one_lt_right (by positivity) hA
  calc A * (n + (n' + ns.sum)) < (n * A + n') * A + A * ns.sum := by linarith
    _ ≤ rescaled A ((n * A + n') * A) ns := le_rescaled (by omega) ns _

theorem rescaled_one (ns : List ℕ) (t : ℕ) : rescaled 1 t ns = t + ns.sum := by
  induction ns generalizing t with
  | nil => rfl
  | cons n ns ih => rw [rescaled_cons, ih, List.sum_cons, mul_one, add_assoc]

theorem rescaled_zero (ns : List ℕ) : rescaled 0 0 ns = 0 := by
  induction ns with
  | nil => rfl
  | cons n ns ih => rw [rescaled_cons, mul_zero, ih]

theorem rescaled_of_le_one (hA : A ≤ 1) (ns : List ℕ) : rescaled A 0 ns = A * ns.sum := by
  rcases Nat.le_one_iff_eq_zero_or_eq_one.mp hA with rfl | rfl
  · rw [rescaled_zero, zero_mul]
  · rw [rescaled_one, zero_add, one_mul]

theorem rescaled_of_zero (ns : List ℕ) (h : ∀ n ∈ ns, n = 0) : rescaled A 0 ns = A * ns.sum := by
  induction ns with
  | nil => rfl
  | cons n ns ih =>
    obtain ⟨rfl, hns⟩ := List.forall_mem_cons.mp h
    rw [rescaled_cons, zero_add, zero_mul, ih hns, List.sum_cons, zero_add]

theorem rescaled_of_length_le {ns : List ℕ} (h : ns.length ≤ 1) : rescaled A 0 ns = A * ns.sum := by
  match ns, h with
  | [], _ => rfl
  | [n], _ =>
    rw [rescaled_cons, zero_add, List.sum_singleton, mul_comm]
    rfl

/-! ## All totals -/

theorem simulatedCycles_perm (h : ms.Perm modules) (c : Counter) :
    (simulatedCycles module_freqs ms c).Perm (simulatedCycles module_freqs modules c) :=
  (h.filter _).map _

theorem length_simulatedCycles (modules : List Module) (c : Counter) :
    (simulatedCycles module_freqs modules c).length = (modules.filter Module.simulated).length :=
  List.length_map _

theorem AtMostOnce.rescaled (h : AtMostOnce module_freqs A modules) (hms : ms.Perm modules)
    (c : Counter) : rescaled A 0 (simulatedCycles module_freqs ms c)
      = A * (simulatedCycles module_freqs modules c).sum := by
  have hperm : (simulatedCycles module_freqs ms c).Perm (simulatedCycles module_freqs modules c) :=
    simulatedCycles_perm hms c
  rw [← hperm.sum_eq]
  rcases h with hA | hlen | hzero
  · exact rescaled_of_le_one hA _
  · refine rescaled_of_length_le ?_
    rwa [hperm.length_eq, length_simulatedCycles]
  · exact rescaled_of_zero _ fun n hn ↦ hzero c n (hperm.mem_iff.mp hn)

/-- If a module has cycles and is not the last one, its order matters. -/
theorem exists_perm_lt (h : ¬ AtMostOnce module_freqs A modules) :
    ∃ ms, ms.Perm modules ∧ ∃ c, A * (simulatedCycles module_freqs modules c).sum
      < rescaled A 0 (simulatedCycles module_freqs ms c) := by
  obtain ⟨hA, h⟩ := not_or.mp h
  obtain ⟨hlen, h⟩ := not_or.mp h
  obtain ⟨c, h⟩ := not_forall.mp h
  obtain ⟨n, h⟩ := not_forall.mp h
  obtain ⟨hn, hpos⟩ := Classical.not_imp.mp h
  obtain ⟨m, hm, rfl⟩ := List.mem_map.mp hn
  obtain ⟨hmem, hsim⟩ := List.mem_filter.mp hm
  obtain ⟨pre, post, rfl⟩ := List.append_of_mem hmem
  -- the module comes first
  have hperm : (m :: (pre ++ post)).Perm (pre ++ m :: post) := List.perm_middle.symm
  have hcycles : (simulatedCycles module_freqs (m :: (pre ++ post)) c).Perm
      (simulatedCycles module_freqs (pre ++ m :: post) c) := simulatedCycles_perm hperm c
  have hfirst : simulatedCycles module_freqs (m :: (pre ++ post)) c
      = m.cycles module_freqs c :: simulatedCycles module_freqs (pre ++ post) c := by
    rw [simulatedCycles, List.filter_cons_of_pos hsim, List.map_cons, ← simulatedCycles]
  have hlength := hcycles.length_eq
  rw [hfirst, length_simulatedCycles, List.length_cons] at hlength
  refine ⟨_, hperm, c, ?_⟩
  rw [← hcycles.sum_eq, hfirst]
  cases hrest : simulatedCycles module_freqs (pre ++ post) c with
  | nil =>
    rw [hrest, List.length_nil] at hlength
    omega
  | cons n' ns => exact lt_rescaled (by omega) (Nat.pos_of_ne_zero hpos) ns

/-- **The totals.** They are right if the latency is a factor at most once and they are not too
large. If they are right, this is so, or in some order a total wraps around. -/
theorem totalsRight_iff (module_freqs : Ident → Option ℕ) (A : ℕ) (modules : List Module) :
    (AtMostOnce module_freqs A modules →
        (∀ c, A * (simulatedCycles module_freqs modules c).sum < 2 ^ 64) →
        TotalsRight module_freqs A modules) ∧
      (TotalsRight module_freqs A modules →
        (∀ c, A * (simulatedCycles module_freqs modules c).sum < 2 ^ 64) ∧
          (AtMostOnce module_freqs A modules ∨ Wraps module_freqs A modules)) := by
  refine ⟨fun honce hfits ms hms c ↦ ?_, fun hright ↦ ⟨fun c ↦ ?_, ?_⟩⟩
  · rw [totals_eq, honce.rescaled hms]
    exact Nat.mod_eq_of_lt (hfits c)
  · rw [← hright modules .rfl c, totals_eq]
    exact Nat.mod_lt _ (by positivity)
  · by_contra hnot
    obtain ⟨honce, hwraps⟩ := not_or.mp hnot
    obtain ⟨ms, hms, c, hlt⟩ := exists_perm_lt honce
    have hsmall : Braid.rescaled A 0 (simulatedCycles module_freqs ms c) < 2 ^ 64 :=
      not_le.mp fun hle ↦ hwraps ⟨ms, hms, c, hle⟩
    have htotal := hright ms hms c
    rw [totals_eq, wrap, Nat.mod_eq_of_lt hsmall] at htotal
    omega

theorem totalsRight_single :
    TotalsRight (fun _ ↦ some 3) 10 [⟨"main".toList, 2, fun _ ↦ 1350⟩] := by
  have hcycles : ∀ c,
      simulatedCycles (fun _ ↦ some 3) [⟨"main".toList, 2, fun _ ↦ 1350⟩] c = [4050] :=
    fun c ↦ by simp [simulatedCycles, Module.simulated, num_rows, num_cols, Module.cycles]
  refine (totalsRight_iff (fun _ ↦ some 3) 10 [⟨"main".toList, 2, fun _ ↦ 1350⟩]).1
    (.inr (.inl (List.length_filter_le ..))) fun c ↦ ?_
  rw [hcycles]
  decide

/-- Two modules with 150 Hadamard gates on one of their two qubits, nine cycles each, and the ten
cycles of a factory with one level. -/
theorem not_totalsRight_two :
    ¬ TotalsRight (fun _ ↦ none) 10
      [⟨"f".toList, 2, fun _ ↦ 1350⟩, ⟨"main".toList, 2, fun _ ↦ 1350⟩] := by
  have hcycles : simulatedCycles (fun _ ↦ none)
      [⟨"f".toList, 2, fun _ ↦ 1350⟩, ⟨"main".toList, 2, fun _ ↦ 1350⟩] .serial = [1350, 1350] := by
    simp [simulatedCycles, Module.simulated, num_rows, num_cols, Module.cycles]
  intro h
  have htotal := h _ .rfl .serial
  rw [totals_eq, hcycles] at htotal
  exact absurd htotal (by decide)

end ScaffCC.Braid
