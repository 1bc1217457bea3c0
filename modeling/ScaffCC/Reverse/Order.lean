import Mathlib.Logic.Relation
import ScaffCC.Reverse.Visit

/-!
# The order of the functions

The pass gets through a module exactly when, at every odd call of a function `f`, the functions the
inverse of `f` is made from hold no prefixed call any more: those that held one must have been
visited. This is a condition on the module as written, `Ordered`, and the only one.

Soundness of a visit needs no acyclicity: once an inverse exists, the bodies below it are resolved.
Completeness goes by induction on the rank of the call graph.
-/

namespace ScaffCC.FunctionReverse

open Filter GateCall Relation

/-! ## The condition -/

/-- `f` calls `g` under an even number of prefixes. -/
def Forward (M : Module) (f g : Ident) : Prop :=
  ∃ b k args, M.bodyOf f = some b ∧ Even k ∧ ¬ reversePrefix <+: g ∧ (M.getFunction g).isSome ∧
    Instr.call (stacked k g) args ∈ b

/-- `n` calls `f` under an odd number of prefixes. -/
def OddCall (M : Module) (n f : Ident) : Prop :=
  ∃ b k args, M.bodyOf n = some b ∧ Odd k ∧ ¬ reversePrefix <+: f ∧ (M.getFunction f).isSome ∧
    Instr.call (stacked k f) args ∈ b

/-- The body of `n` holds a prefixed call. -/
def HasReverse (M : Module) (n : Ident) : Prop := ∃ b, M.bodyOf n = some b ∧ ¬ NoReverse b

/-- `g` can be cloned when the functions `V` are visited. -/
def Clonable (M : Module) (V : Set Ident) (g : Ident) : Prop :=
  g = storeCbit ∨ ((M.bodyOf g).isSome ∧ (HasReverse M g → g ∈ V))

/-- The odd calls of `n` can be resolved when the functions `V` are visited. -/
def ReadyAt (M : Module) (V : Set Ident) (n : Ident) : Prop :=
  ∀ f, OddCall M n f → ∀ g, ReflTransGen (Forward M) f g → Clonable M V g

/-- The functions a module starts with. -/
def namesOf (A : Module) : Set Ident := {n | n ∈ A.map Function.name}

/-- **The condition on the order.** When a function is reached, everything its odd calls are made
from is without prefixed calls or stands before it. -/
def Ordered (M : Module) : Prop := ∀ A F B, M = A ++ F :: B → ReadyAt M (namesOf A) F.name

/-! ## Inverses that exist -/

section Exists

variable {M N : Module} {V : Set Ident} (hM : WellFormed M) (hN : NamesFree M) (h : Stage M V N)

include hN in
theorem ne_reverseFuncName {n : Ident} (hn : (M.getFunction n).isSome) (k : Ident) :
    n ≠ reverseFuncName k := by
  rintro rfl
  rw [hN.inverse] at hn
  contradiction

include hN h

/-- A function whose inverse exists has a body, resolved if it needs to be. -/
theorem clonable_of_inverted {n : Ident} (hn : (M.getFunction n).isSome)
    (hrev : (N.getFunction (reverseFuncName n)).isSome) :
    (M.bodyOf n).isSome ∧ (HasReverse M n → n ∈ V) := by
  have hinv := h.settled n trivial List.not_mem_nil hrev
  obtain ⟨b', hb', -⟩ := id hinv
  constructor
  · by_contra hno
    rw [h.bodyOf_eq_none (ne_reverseFuncName hN hn) (Option.not_isSome_iff_eq_none.mp hno)] at hb'
    contradiction
  · rintro ⟨b, hb, hrev⟩
    by_contra hV
    exact hrev (h.noReverse_of_inverted hN hinv (h.unvisited n hV b hb))

omit hN in
theorem exists_resolved {n : Ident} {b : List Instr} (hb : M.bodyOf n = some b)
    (hV : HasReverse M n → n ∈ V) : ∃ b', N.bodyOf n = some b' ∧ Resolved M N b b' := by
  by_cases hn : n ∈ V
  · exact h.visited n hn b hb
  · refine ⟨b, h.unvisited n hn b hb, List.forall₂_same.mpr fun i hi ↦ .same ?_⟩
    rintro c args rfl
    exact Decidable.byContradiction fun hc ↦ hn (hV ⟨b, hb, fun hno ↦ hc (hno c args hi)⟩)

omit hN h in
theorem call_mem_of_even {b b' : List Instr} (hres : Resolved M N b b') {k : ℕ} {g : Ident}
    {args : List Arg} (hk : Even k) (hg : ¬ reversePrefix <+: g) (hsome : (M.getFunction g).isSome)
    (hc : Instr.call (stacked k g) args ∈ b) : Instr.call g args ∈ b' := by
  obtain ⟨j, hj, hij⟩ := exists_of_mem_left hres hc
  generalize hi : Instr.call (stacked k g) args = i at hij
  cases hij with
  | same hp =>
    have h0 : k = 0 := by
      by_contra hk0
      exact hp _ _ hi.symm ((prefix_stacked hg).mpr hk0)
    rw [← hi, h0] at hj
    exact hj
  | @function k' f args' hf _ _ _ =>
    obtain ⟨hs, rfl⟩ := Instr.call.inj hi
    obtain ⟨rfl, rfl⟩ := stacked_injective hg hf hs
    rwa [if_neg (Nat.not_odd_iff_even.mpr hk)] at hj
  | @intrinsic k' f args' g' hf _ hnone _ =>
    obtain ⟨hs, rfl⟩ := Instr.call.inj hi
    obtain ⟨rfl, rfl⟩ := stacked_injective hg hf hs
    rw [hnone] at hsome
    contradiction

/-- **Soundness.** Once the inverse of `f` exists, everything it is made from could be cloned. -/
theorem clonable_of_reaches {f g : Ident} (hf : (M.getFunction f).isSome)
    (hrev : (N.getFunction (reverseFuncName f)).isSome) (hfg : ReflTransGen (Forward M) f g) :
    Clonable M V g := by
  have key : g = storeCbit ∨ ((M.getFunction g).isSome ∧
      (N.getFunction (reverseFuncName g)).isSome) := by
    induction hfg with
    | refl => exact .inr ⟨hf, hrev⟩
    | @tail g g' _ hgg' ih =>
      obtain ⟨b, k, args, hb, hk, hp, hsome, hc⟩ := hgg'
      by_cases hs : g' = storeCbit
      · exact .inl hs
      rcases ih with rfl | ⟨hg, hgrev⟩
      · rw [hN.store] at hb
        contradiction
      · obtain ⟨b', hb', hres⟩ := exists_resolved h hb (clonable_of_inverted hN h hg hgrev).2
        have hmem := call_mem_of_even hres hk hp hsome hc
        obtain ⟨b₀, hb₀, -, hcalls⟩ := h.settled g trivial List.not_mem_nil hgrev
        obtain rfl := Option.some_injective _ (hb'.symm.trans hb₀)
        exact .inr ⟨hsome, hcalls g' args hmem hs⟩
  exact key.imp_right fun hg ↦ clonable_of_inverted hN h hg.1 hg.2

theorem invertible_reverseFuncName {n : Ident} (hn : Invertible N n)
    (hrev : (N.getFunction (reverseFuncName n)).isSome) : Invertible N (reverseFuncName n) := by
  induction hn with
  | store =>
    obtain ⟨b, hb, -⟩ := h.settled storeCbit trivial List.not_mem_nil hrev
    rw [h.bodyOf_storeCbit hN] at hb
    contradiction
  | @body n b hb _ ih =>
    obtain ⟨b', hb', hr, hcalls⟩ := h.settled n trivial List.not_mem_nil hrev
    obtain rfl := Option.some_injective _ (hb.symm.trans hb')
    refine .body hr fun c args hc ↦ ?_
    obtain ⟨m, hm, rfl⟩ := call_mem_inverseBody.mp hc
    by_cases hs : m = storeCbit
    · rw [inverseName, if_pos hs, hs]
      exact .store
    · rw [inverseName_of_ne hs]
      exact ih m args hm (hcalls m args hm hs)

include hM

/-- A resolved body can be inverted when the functions it calls itself can, and those whose
inverses it calls. -/
theorem invertible_of_resolved {n : Ident} {b b' : List Instr} (hb : M.bodyOf n = some b)
    (hb' : N.bodyOf n = some b') (hres : Resolved M N b b')
    (heven : ∀ g args, Forward M n g → Instr.call g args ∈ b' → Invertible N g)
    (hodd : ∀ f, OddCall M n f → (N.getFunction (reverseFuncName f)).isSome → Invertible N f) :
    Invertible N n := by
  refine .body hb' fun c args hc ↦ ?_
  obtain ⟨i, hi, hic⟩ := exists_of_mem_right hres hc
  cases hic with
  | same hp =>
    exact heven c args
      ⟨b, 0, args, hb, Even.zero, hp c args rfl, hM.declared n b hb c args hi, hi⟩ hc
  | @function k f _ hf hk hbf hr =>
    have hsome : (M.getFunction f).isSome := by
      obtain ⟨bf, hbf⟩ := Option.isSome_iff_exists.mp hbf
      exact Module.isSome_of_bodyOf hbf
    by_cases ho : Odd k
    · rw [if_pos ho]
      exact invertible_reverseFuncName hN h
        (hodd f ⟨b, k, args, hb, ho, hf, hsome, hi⟩ (hr ho)) (hr ho)
    · rw [if_neg ho] at hc ⊢
      exact heven f args ⟨b, k, args, hb, Nat.not_odd_iff_even.mp ho, hf, hsome, hi⟩ hc

theorem invertible_of_inverted {n : Ident} (hn : (M.getFunction n).isSome)
    (hrev : (N.getFunction (reverseFuncName n)).isSome) : Invertible N n := by
  obtain ⟨rank, hrank⟩ := hM.acyclic
  induction hr : rank n using Nat.strong_induction_on generalizing n with
  | _ r ih =>
    obtain ⟨hb, hV⟩ := clonable_of_inverted hN h hn hrev
    obtain ⟨b, hb⟩ := Option.isSome_iff_exists.mp hb
    obtain ⟨b', hb', hres⟩ := exists_resolved h hb hV
    refine invertible_of_resolved hM hN h hb hb' hres (fun g args hg hc ↦ ?_) fun f hf hfrev ↦ ?_
    · by_cases hs : g = storeCbit
      · exact hs ▸ .store
      obtain ⟨b₁, k, args', hb₁, -, hp, hsome, hmem⟩ := hg
      obtain ⟨b₀, hb₀, -, hcalls⟩ := h.settled n trivial List.not_mem_nil hrev
      obtain rfl := Option.some_injective _ (hb'.symm.trans hb₀)
      exact ih _ (hr ▸ hrank n b₁ hb₁ k g args' hp hmem) hsome (hcalls g args hc hs) rfl
    · obtain ⟨b₁, k, args', hb₁, -, hp, hsome, hmem⟩ := hf
      exact ih _ (hr ▸ hrank n b₁ hb₁ k f args' hp hmem) hsome hfrev rfl

/-- **Completeness.** A function can be inverted when everything it is made from can be cloned. -/
theorem invertible_of_clonable {f : Ident}
    (hf : ∀ g, ReflTransGen (Forward M) f g → Clonable M V g) : Invertible N f := by
  obtain ⟨rank, hrank⟩ := hM.acyclic
  induction hr : rank f using Nat.strong_induction_on generalizing f with
  | _ r ih =>
    rcases hf f .refl with rfl | ⟨hb, hV⟩
    · exact .store
    obtain ⟨b, hb⟩ := Option.isSome_iff_exists.mp hb
    obtain ⟨b', hb', hres⟩ := exists_resolved h hb hV
    refine invertible_of_resolved hM hN h hb hb' hres (fun g args hg _ ↦ ?_) fun f' hf' hfrev ↦ ?_
    · have hreach : ∀ g', ReflTransGen (Forward M) g g' → Clonable M V g' :=
        fun g' hg' ↦ hf g' (.head hg hg')
      obtain ⟨b₁, k, args', hb₁, -, hp, -, hmem⟩ := hg
      exact ih _ (hr ▸ hrank f b₁ hb₁ k g args' hp hmem) hreach rfl
    · obtain ⟨b₁, k, args', hb₁, -, hp, hsome, hmem⟩ := hf'
      exact invertible_of_inverted hM hN h hsome hfrev

end Exists

end ScaffCC.FunctionReverse
