import Mathlib.Data.List.Infix
import ScaffCC.Reverse.Denotation

/-!
# Visiting the calls of a module

The pass visits the functions in the order of the module, the inverses it appends included, and
resolves every call whose callee has the prefix `_reverse_`. The inverse of a function is cloned
from the body the function has at that moment, so it matters which calls inside it are resolved.

## The invariant

`Stage M V N` holds when the functions `V` of the module `M` are visited and `N` is what has become
of `M`: the bodies of `V` are resolved, the other bodies are as they were, and what stands under the
name of an inverse is that inverse. A function that still holds a prefixed call has no inverse then,
since a prefixed callee has no body to make one from.
-/

namespace ScaffCC.FunctionReverse

open Filter GateCall

/-! ## The pass -/

/-- The visit of one call. It fails when nothing is found behind the prefixes. -/
def visitCallInst (fuel : ℕ) (M : Module) : Instr → Option (Module × Instr)
  | .call n args =>
    if reversePrefix <+: n then
      let r := forwardFunctionName n
      match M.getFunction (if r.2 = "Toffoli".toList then "ToffoliImpl".toList else r.2) with
      | some f =>
        if Odd r.1 then
          (getOrCreateInverseFunction fuel M f.name).map fun s ↦ (s.1, .call s.2 args)
        else some (M, .call f.name args)
      | none => (intrinsic r.2 args).map fun g ↦ (M, .gate (if Odd r.1 then inverseGate g else g))
    else some (M, .call n args)
  | i => some (M, i)

/-- The visit of a body, first instruction first. -/
def visitBody (fuel : ℕ) (M : Module) : List Instr → Option (Module × List Instr)
  | [] => some (M, [])
  | i :: is =>
    (visitCallInst fuel M i).bind fun v ↦ (visitBody fuel v.1 is).map fun w ↦ (w.1, v.2 :: w.2)

def visitFunction (fuel : ℕ) (M : Module) (n : Ident) : Option Module :=
  match M.bodyOf n with
  | none => some M
  | some b => (visitBody fuel M b).map fun v ↦ v.1.setBody n v.2

/-- The visits from the `i`-th function on, until no function is left. -/
def visitFrom (fuel : ℕ) : ℕ → ℕ → Module → Option Module
  | 0, _, _ => none
  | steps + 1, i, M =>
    match M[i]? with
    | none => some M
    | some f => (visitFunction fuel M f.name).bind (visitFrom fuel steps (i + 1))

/-- The pass, with a bound on the depth of the recursion and the number of functions. -/
def runOnModule (fuel : ℕ) (M : Module) : Option Module := visitFrom fuel fuel 0 M

/-! ## The modules considered -/

/-- A module as the front end makes it: names are unique, callees are declared, what stands behind
prefixes is defined or an intrinsic, and the calls are acyclic. -/
structure WellFormed (M : Module) : Prop where
  nodup : (M.map Function.name).Nodup
  declared : ∀ n b, M.bodyOf n = some b → ∀ c args, Instr.call c args ∈ b → (M.getFunction c).isSome
  reversed : ∀ n b, M.bodyOf n = some b → ∀ k f args, k ≠ 0 → ¬ reversePrefix <+: f →
    Instr.call (stacked k f) args ∈ b →
    (M.bodyOf f).isSome ∨ M.getFunction f = none ∧ (intrinsic f args).isSome
  acyclic : ∃ rank : Ident → ℕ, ∀ n b, M.bodyOf n = some b → ∀ k f args, ¬ reversePrefix <+: f →
    Instr.call (stacked k f) args ∈ b → rank f < rank n

/-- No function has a name the pass reserves. -/
structure NamesFree (M : Module) : Prop where
  inverse : ∀ n, M.getFunction (reverseFuncName n) = none
  reverse : ∀ n, "_reverse".toList <+: n → M.bodyOf n = none
  toffoli : M.getFunction "Toffoli".toList = none
  toffoliImpl : M.getFunction "ToffoliImpl".toList = none
  store : M.bodyOf storeCbit = none

/-- The instruction a visit leaves, in the module `N` it leaves. -/
inductive ResolvedInstr (M N : Module) : Instr → Instr → Prop
  | same {i : Instr} : (∀ n args, i = .call n args → ¬ reversePrefix <+: n) → ResolvedInstr M N i i
  | function {k : ℕ} {f : Ident} {args : List Arg} : ¬ reversePrefix <+: f → k ≠ 0 →
      (M.bodyOf f).isSome → (Odd k → (N.getFunction (reverseFuncName f)).isSome) →
      ResolvedInstr M N (.call (stacked k f) args)
        (.call (if Odd k then reverseFuncName f else f) args)
  | intrinsic {k : ℕ} {f : Ident} {args : List Arg} {g : GateCall Operand} :
      ¬ reversePrefix <+: f → k ≠ 0 → M.getFunction f = none → intrinsic f args = some g →
      ResolvedInstr M N (.call (stacked k f) args) (.gate (if Odd k then inverseGate g else g))

/-- A body against the visited body. -/
abbrev Resolved (M N : Module) : List Instr → List Instr → Prop := List.Forall₂ (ResolvedInstr M N)

/-- A body without prefixed calls. -/
def NoReverse (b : List Instr) : Prop := ∀ c args, Instr.call c args ∈ b → ¬ reversePrefix <+: c

/-- The state of the pass when the functions `V` of `M` are visited. -/
structure Stage (M : Module) (V : Set Ident) (N : Module) : Prop where
  settled : Settled Set.univ N []
  names : M.map Function.name <+: N.map Function.name
  others : ∀ n, (∀ k, n ≠ reverseFuncName k) → M.bodyOf n = none → N.getFunction n = M.getFunction n
  unvisited : ∀ n ∉ V, ∀ b, M.bodyOf n = some b → N.bodyOf n = some b
  visited : ∀ n ∈ V, ∀ b, M.bodyOf n = some b → ∃ b', N.bodyOf n = some b' ∧ Resolved M N b b'

theorem ResolvedInstr.mono {M N N' : Module}
    (h : ∀ n, (N.getFunction n).isSome → (N'.getFunction n).isSome) {i j : Instr}
    (hij : ResolvedInstr M N i j) : ResolvedInstr M N' i j := by
  cases hij with
  | same hi => exact .same hi
  | function hf hk hb hrev => exact .function hf hk hb fun ho ↦ h _ (hrev ho)
  | intrinsic hf hk hn hg => exact .intrinsic hf hk hn hg

theorem exists_of_mem_right {R : Instr → Instr → Prop} {b b' : List Instr}
    (h : List.Forall₂ R b b') {j : Instr} (hj : j ∈ b') : ∃ i ∈ b, R i j := by
  induction h with
  | nil => exact absurd hj List.not_mem_nil
  | @cons i _ b _ hij _ ih =>
    rcases List.mem_cons.mp hj with rfl | hj
    · exact ⟨i, List.mem_cons_self, hij⟩
    · obtain ⟨i', hi', hr⟩ := ih hj
      exact ⟨i', List.mem_cons_of_mem i hi', hr⟩

theorem exists_of_mem_left {R : Instr → Instr → Prop} {b b' : List Instr}
    (h : List.Forall₂ R b b') {i : Instr} (hi : i ∈ b) : ∃ j ∈ b', R i j :=
  exists_of_mem_right h.flip hi

/-! ## Names -/

theorem reverse_prefix_of_reverseFuncName {k : Ident}
    (h : "_reverse".toList <+: reverseFuncName k) : "_reverse".toList <+: k := by
  rcases List.prefix_or_prefix_of_prefix h (List.prefix_append k _) with hk | ⟨t, ht⟩
  · exact hk
  · have htail : ∀ t ∈ "_reverse".toList.tails, t <+: "_Reverse".toList → t = [] := by decide
    rw [← ht, reverseFuncName, List.prefix_append_right_inj] at h
    obtain rfl := htail t ((List.mem_tails _ _).mpr ⟨k, ht⟩) h
    rw [← ht, List.append_nil]

theorem reverse_prefix_of_reversePrefix {n : Ident} (h : reversePrefix <+: n) :
    "_reverse".toList <+: n :=
  List.IsPrefix.trans (by decide) h

theorem underscore_notMem_name {ι : Type*} (ty : ι → QTy) (g : GateCall ι) : '_' ∉ g.name ty := by
  have hty : ∀ t : QTy, '_' ∉ tySuffix t := fun t ↦ by cases t <;> decide
  have hbase : g.baseName.elem '_' = false := by
    rcases g with ⟨_ | _⟩ | ⟨_ | _⟩ | ⟨_ | _⟩ | ⟨_ | _⟩ | _ | _ | _ <;> rfl
  intro h
  rcases List.mem_append.mp h with h | h
  · rcases List.mem_append.mp h with h | h
    · exact absurd h (by decide)
    · rw [List.elem_eq_true_of_mem h] at hbase
      contradiction
  · obtain ⟨l, hl, h⟩ := List.mem_flatten.mp h
    obtain ⟨q, -, rfl⟩ := List.mem_map.mp hl
    exact hty _ h

theorem intrinsic_reverseFuncName (n : Ident) (args : List Arg) :
    intrinsic (reverseFuncName n) args = none := by
  rw [intrinsic, List.find?_eq_none]
  intro g _ heq
  refine underscore_notMem_name Operand.ty g ?_
  rw [decide_eq_true_iff.mp heq, reverseFuncName, List.mem_append, List.mem_append, List.mem_append]
  exact .inl (.inr (.inr (by decide)))

section Names

variable {M N : Module} {V : Set Ident}

theorem mem_names_iff {n : Ident} : (M.getFunction n).isSome ↔ n ∈ M.map Function.name := by
  rw [Module.getFunction, List.find?_isSome, List.mem_map]
  simp

theorem Stage.isSome (h : Stage M V N) {n : Ident} (hn : (M.getFunction n).isSome) :
    (N.getFunction n).isSome :=
  mem_names_iff.mpr (h.names.subset (mem_names_iff.mp hn))

theorem Stage.bodyOf_eq_none (h : Stage M V N) {n : Ident} (hn : ∀ k, n ≠ reverseFuncName k)
    (hb : M.bodyOf n = none) : N.bodyOf n = none := by
  rw [Module.bodyOf, h.others n hn hb]
  exact hb

theorem Stage.bodyOf_of_reverse (hM : NamesFree M) (h : Stage M V N) {n : Ident}
    (hn : "_reverse".toList <+: n) : N.bodyOf n = none := by
  induction hl : n.length using Nat.strong_induction_on generalizing n with
  | _ l ih =>
    by_cases hrev : ∃ k, n = reverseFuncName k
    · obtain ⟨k, rfl⟩ := hrev
      have hlen : k.length < l := by
        rw [← hl, reverseFuncName, List.length_append]
        exact Nat.lt_add_of_pos_right (by decide)
      have hk := ih _ hlen (reverse_prefix_of_reverseFuncName hn) rfl
      by_contra hne
      obtain ⟨b, hb⟩ := Option.ne_none_iff_exists'.mp hne
      obtain ⟨b', hb', -⟩ := h.settled k trivial List.not_mem_nil (Module.isSome_of_bodyOf hb)
      rw [hk] at hb'
      contradiction
    · exact h.bodyOf_eq_none (fun k hk ↦ hrev ⟨k, hk⟩) (hM.reverse n hn)

theorem Stage.bodyOf_storeCbit (hM : NamesFree M) (h : Stage M V N) : N.bodyOf storeCbit = none :=
  h.bodyOf_eq_none (fun k hk ↦ reverseFuncName_ne_storeCbit k hk.symm) hM.store

theorem Stage.inverted_callee (h : Stage M V N) {n c : Ident} {b : List Instr} {args : List Arg}
    (hn : Inverted N n) (hb : N.bodyOf n = some b) (hc : Instr.call c args ∈ b)
    (hs : c ≠ storeCbit) : Inverted N c := by
  obtain ⟨b', hb', -, hcalls⟩ := hn
  obtain rfl := Option.some_injective _ (hb.symm.trans hb')
  exact h.settled c trivial List.not_mem_nil (hcalls c args hc hs)

theorem Stage.noReverse_of_inverted (hM : NamesFree M) (h : Stage M V N) {n : Ident}
    {b : List Instr} (hn : Inverted N n) (hb : N.bodyOf n = some b) : NoReverse b := by
  intro c args hc hp
  have hs : c ≠ storeCbit := by
    rintro rfl
    exact absurd hp (by decide)
  obtain ⟨b', hb', -⟩ := h.inverted_callee hn hb hc hs
  rw [h.bodyOf_of_reverse hM (reverse_prefix_of_reversePrefix hp)] at hb'
  contradiction

theorem Stage.noReverse_inverse (hM : NamesFree M) (h : Stage M V N) {n : Ident} {b : List Instr}
    (hb : N.bodyOf (reverseFuncName n) = some b) : NoReverse b := by
  have hn := h.settled n trivial List.not_mem_nil (Module.isSome_of_bodyOf hb)
  obtain ⟨b₀, hb₀, hrev, hcalls⟩ := hn
  obtain rfl := Option.some_injective _ (hb.symm.trans hrev)
  intro c args hc hp
  obtain ⟨m, hm, rfl⟩ := call_mem_inverseBody.mp hc
  by_cases hs : m = storeCbit
  · subst hs
    exact absurd hp (by decide)
  · rw [inverseName_of_ne hs] at hp
    have hmb := h.bodyOf_of_reverse hM
      (reverse_prefix_of_reverseFuncName (reverse_prefix_of_reversePrefix hp))
    obtain ⟨b', hb', -⟩ := h.settled m trivial List.not_mem_nil (hcalls m args hm hs)
    rw [hmb] at hb'
    contradiction

theorem Stage.delivered (h : Stage M V N) {A : Set Ident} {N' : Module}
    (hd : Delivered A [] N N') : Stage M V N' := by
  refine ⟨fun n _ hP hs ↦ ?_, h.names.trans hd.names, fun n hn hb ↦ ?_, fun n hn b hb ↦ ?_,
    fun n hn b hb ↦ ?_⟩
  · by_cases hn : n ∈ A
    · exact hd.ready.settled n hn hP hs
    · rw [hd.others _ fun k hk heq ↦ hn (by rwa [reverseFuncName_injective heq])] at hs
      exact (h.settled n trivial hP hs).mono hd.keeps
  · rw [hd.others n fun k _ ↦ hn k, h.others n hn hb]
  · exact hd.keeps.bodyOf (h.unvisited n hn b hb)
  · obtain ⟨b', hb', hres⟩ := h.visited n hn b hb
    exact ⟨b', hd.keeps.bodyOf hb', hres.imp fun _ _ hij ↦ hij.mono fun _ ↦ hd.keeps.isSome⟩

/-- Every callee exists at every stage, the one function of the runtime perhaps excepted. -/
theorem Stage.closed (hM : WellFormed M) (h : Stage M V N) {n c : Ident} {b : List Instr}
    {args : List Arg} (hb : N.bodyOf n = some b) (hc : Instr.call c args ∈ b) :
    (N.getFunction c).isSome ∨ c = storeCbit := by
  by_cases hrev : ∃ k, n = reverseFuncName k
  · obtain ⟨k, rfl⟩ := hrev
    obtain ⟨b₀, -, hb', hcalls⟩ := h.settled k trivial List.not_mem_nil (Module.isSome_of_bodyOf hb)
    obtain rfl := Option.some_injective _ (hb.symm.trans hb')
    obtain ⟨m, hm, rfl⟩ := call_mem_inverseBody.mp hc
    by_cases hs : m = storeCbit
    · exact .inr (by rw [inverseName, if_pos hs, hs])
    · exact .inl (by rw [inverseName_of_ne hs]; exact hcalls m args hm hs)
  · have hne : ∀ k, n ≠ reverseFuncName k := fun k hk ↦ hrev ⟨k, hk⟩
    obtain ⟨b₀, hb₀⟩ : ∃ b₀, M.bodyOf n = some b₀ := by
      by_contra hno
      have := h.bodyOf_eq_none hne (Option.eq_none_iff_forall_ne_some.mpr fun b hb ↦ hno ⟨b, hb⟩)
      rw [hb] at this
      contradiction
    left
    by_cases hn : n ∈ V
    · obtain ⟨b', hb', hres⟩ := h.visited n hn b₀ hb₀
      obtain rfl := Option.some_injective _ (hb.symm.trans hb')
      obtain ⟨i, hi, hic⟩ := exists_of_mem_right hres hc
      cases hic with
      | same _ => exact h.isSome (hM.declared n b₀ hb₀ c args hi)
      | @function k f _ hf hk hbf hr =>
        by_cases ho : Odd k
        · rw [if_pos ho]
          exact hr ho
        · obtain ⟨bf, hbf⟩ := Option.isSome_iff_exists.mp hbf
          rw [if_neg ho]
          exact h.isSome (Module.isSome_of_bodyOf hbf)
    · have := h.unvisited n hn b₀ hb₀
      obtain rfl := Option.some_injective _ (hb.symm.trans this)
      exact h.isSome (hM.declared n b hb₀ c args hc)

theorem Stage.ready (hM : WellFormed M) (h : Stage M V N) :
    Ready {n | (N.getFunction n).isSome ∨ n = storeCbit} [] N := by
  refine ⟨fun n hn hs ↦ hn.resolve_right hs, fun n _ b hb c args hc ↦ h.closed hM hb hc,
    h.settled.mono (Set.subset_univ _),
    fun _ hp ↦ absurd hp List.not_mem_nil⟩

end Names

/-! ## One call -/

theorem visitCallInst_of_forward {fuel : ℕ} {N : Module} {i : Instr}
    (hi : ∀ n args, i = .call n args → ¬ reversePrefix <+: n) :
    visitCallInst fuel N i = some (N, i) := by
  cases i with
  | alloca ty size => rfl
  | gate g => rfl
  | call n args => rw [visitCallInst, if_neg (hi n args rfl)]

section Call

variable {M N : Module} {V : Set Ident} {k : ℕ} {f : Ident} {args : List Arg}
  (hN : NamesFree M) (h : Stage M V N) (hf : ¬ reversePrefix <+: f) (hk : k ≠ 0)
include hN h hf hk

theorem visitCallInst_function (hb : (M.bodyOf f).isSome) (fuel : ℕ) :
    visitCallInst fuel N (.call (stacked k f) args) =
      if Odd k then (getOrCreateInverseFunction fuel N f).map fun s ↦ (s.1, .call s.2 args)
      else some (N, .call f args) := by
  obtain ⟨b, hb⟩ := Option.isSome_iff_exists.mp hb
  obtain ⟨g, hg⟩ := Option.isSome_iff_exists.mp (h.isSome (Module.isSome_of_bodyOf hb))
  have hT : f ≠ "Toffoli".toList := by
    rintro rfl
    have := Module.isSome_of_bodyOf hb
    rw [hN.toffoli] at this
    contradiction
  rw [visitCallInst, if_pos ((prefix_stacked hf).mpr hk), forwardFunctionName_stacked hf k]
  dsimp only
  rw [if_neg hT, hg]
  dsimp only
  rw [Module.name_of_getFunction hg]

theorem visitCallInst_intrinsic (hnone : M.getFunction f = none) {g : GateCall Operand}
    (hg : intrinsic f args = some g) (fuel : ℕ) :
    visitCallInst fuel N (.call (stacked k f) args) =
      some (N, .gate (if Odd k then inverseGate g else g)) := by
  have hlookup :
      N.getFunction (if f = "Toffoli".toList then "ToffoliImpl".toList else f) = none := by
    by_cases hT : f = "Toffoli".toList
    · rw [if_pos hT, h.others _ (fun k hk ↦ ?_) (by rw [Module.bodyOf, hN.toffoliImpl]; rfl),
        hN.toffoliImpl]
      have hlast := congrArg List.getLast? hk
      rw [reverseFuncName, List.getLast?_append,
        show "_Reverse".toList.getLast? = some 'e' by decide, Option.some_or] at hlast
      exact absurd hlast (by decide)
    · rw [if_neg hT, h.others _ (fun k hk ↦ ?_) (by rw [Module.bodyOf, hnone]; rfl), hnone]
      rw [hk, intrinsic_reverseFuncName] at hg
      contradiction
  rw [visitCallInst, if_pos ((prefix_stacked hf).mpr hk), forwardFunctionName_stacked hf k]
  dsimp only
  rw [hlookup]
  dsimp only
  rw [hg, Option.map_some]

end Call

end ScaffCC.FunctionReverse
