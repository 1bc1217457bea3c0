import ScaffCC.Flatten.Acyclic
import ScaffCC.Reverse.Resolve

/-!
# What the pass on reversed calls keeps of a module

The functions of the new module are those it had, with resolved bodies, and inverses, among them
inverses of inverses. Names stay unique and operands stay within their functions. Every body has a
circuit, so that the functions that are called are there and the calls are acyclic.
-/

namespace ScaffCC.FunctionReverse

open Relation GateCall Flatten

variable {M M' R : Module} {n : Ident} {b b' : List Instr}

/-! ## Names -/

/-- The step keeps names unique. -/
def KeepsNodup (M M' : Module) : Prop :=
  (M.map Function.name).Nodup → (M'.map Function.name).Nodup

theorem KeepsNodup.trans {N : Module} (h : KeepsNodup M M') (h' : KeepsNodup M' N) :
    KeepsNodup M N := h' ∘ h

theorem keepsNodup_setBody (M : Module) (n : Ident) (b : List Instr) :
    KeepsNodup M (M.setBody n b) := fun h ↦ by rwa [Module.map_name_setBody]

theorem keepsNodup_append {f : Function} (h : M.getFunction f.name = none) :
    KeepsNodup M (M ++ [f]) := by
  intro hnodup
  rw [List.map_append, List.map_singleton, List.nodup_append]
  refine ⟨hnodup, List.nodup_singleton _, fun x hx y hy hxy ↦ ?_⟩
  rw [List.mem_singleton.mp hy] at hxy
  have hsome := mem_names_iff.mpr (hxy ▸ hx)
  rw [h] at hsome
  contradiction

theorem keepsNodup_invertCalls {inv : Module → Ident → Option (Module × Ident)}
    (hinv : ∀ ⦃M n M' r⦄, inv M n = some (M', r) → KeepsNodup M M') {is js : List Instr}
    (h : invertCalls inv M is = some (M', js)) : KeepsNodup M M' := by
  induction is generalizing M js with
  | nil =>
    obtain ⟨rfl, -⟩ := Prod.mk.inj (Option.some.inj h)
    exact id
  | cons i is ih =>
    rw [invertCalls] at h
    obtain ⟨⟨M₁, j⟩, hi, h⟩ := Option.bind_eq_some_iff.mp h
    obtain ⟨⟨M₂, js'⟩, his, h⟩ := Option.map_eq_some_iff.mp h
    obtain ⟨rfl, -⟩ := Prod.mk.inj h
    refine KeepsNodup.trans ?_ (ih his)
    cases i with
    | alloca ty size | gate g =>
      obtain ⟨rfl, -⟩ := Prod.mk.inj (Option.some.inj hi)
      exact id
    | call c args =>
      obtain ⟨⟨M₃, r⟩, hr, heq⟩ := Option.map_eq_some_iff.mp hi
      obtain ⟨rfl, -⟩ := Prod.mk.inj heq
      exact hinv hr

theorem keepsNodup_getOrCreateInverseFunction {fuel : ℕ} {r : Ident}
    (h : getOrCreateInverseFunction fuel M n = some (M', r)) : KeepsNodup M M' := by
  induction fuel generalizing M n M' r with
  | zero => nomatch h
  | succ fuel ih =>
    rcases getOrCreateInverseFunction_cases h with ⟨-, rfl, -⟩ | ⟨-, -, rfl, -⟩ |
      ⟨fuel', b, M₂, js, hfuel, -, hnone, -, hcalls, rfl, -⟩
    · exact id
    · exact id
    · obtain rfl := Nat.succ_injective hfuel
      have hclone := keepsNodup_append (f := ⟨reverseFuncName n, some b⟩) hnone
      exact (hclone.trans (keepsNodup_invertCalls (fun _ _ _ _ h ↦ ih h) hcalls)).trans
        (keepsNodup_setBody M₂ _ _)

theorem keepsNodup_visitCallInst {fuel : ℕ} {i j : Instr}
    (h : visitCallInst fuel M i = some (M', j)) : KeepsNodup M M' := by
  rw [visitCallInst.eq_def] at h
  split at h
  · split_ifs at h with hp
    · dsimp only at h
      split at h
      · split_ifs at h with ho
        · obtain ⟨⟨M₁, r⟩, hr, heq⟩ := Option.map_eq_some_iff.mp h
          obtain ⟨rfl, -⟩ := Prod.mk.inj heq
          exact keepsNodup_getOrCreateInverseFunction hr
        · obtain ⟨rfl, -⟩ := Prod.mk.inj (Option.some.inj h)
          exact id
      · obtain ⟨g, -, heq⟩ := Option.map_eq_some_iff.mp h
        obtain ⟨rfl, -⟩ := Prod.mk.inj heq
        exact id
    · obtain ⟨rfl, -⟩ := Prod.mk.inj (Option.some.inj h)
      exact id
  · obtain ⟨rfl, -⟩ := Prod.mk.inj (Option.some.inj h)
    exact id

theorem keepsNodup_visitBody {fuel : ℕ} {is js : List Instr}
    (h : visitBody fuel M is = some (M', js)) : KeepsNodup M M' := by
  induction is generalizing M js with
  | nil =>
    obtain ⟨rfl, -⟩ := Prod.mk.inj (Option.some.inj h)
    exact id
  | cons i is ih =>
    rw [visitBody] at h
    obtain ⟨⟨M₁, j⟩, hi, h⟩ := Option.bind_eq_some_iff.mp h
    obtain ⟨⟨M₂, js'⟩, his, h⟩ := Option.map_eq_some_iff.mp h
    obtain ⟨rfl, -⟩ := Prod.mk.inj h
    exact (keepsNodup_visitCallInst hi).trans (ih his)

theorem keepsNodup_visitFunction {fuel : ℕ} (h : visitFunction fuel M n = some M') :
    KeepsNodup M M' := by
  rw [visitFunction] at h
  split at h
  · obtain rfl := Option.some.inj h
    exact id
  · obtain ⟨⟨M₁, js⟩, hv, rfl⟩ := Option.map_eq_some_iff.mp h
    exact (keepsNodup_visitBody hv).trans (keepsNodup_setBody M₁ n js)

theorem keepsNodup_visitFrom {fuel steps i : ℕ} (h : visitFrom fuel steps i M = some M') :
    KeepsNodup M M' := by
  induction steps generalizing i M with
  | zero => nomatch h
  | succ steps ih =>
    rw [visitFrom] at h
    split at h
    · obtain rfl := Option.some.inj h
      exact id
    · obtain ⟨M₁, hv, hrest⟩ := Option.bind_eq_some_iff.mp h
      exact (keepsNodup_visitFunction hv).trans (ih hrest)

/-! ## Functions -/

section Functions

variable (hM : WellFormed M) (hN : NamesFree M) (h : Stage M (namesOf M) R)

include h in
/-- **A body of the new module** is a resolved body, or that of an inverse. -/
theorem body_cases (hb' : R.bodyOf n = some b') :
    (∃ b, M.bodyOf n = some b ∧ Resolved M R b b') ∨
      ∃ k b, n = reverseFuncName k ∧ Inverted R k ∧ R.bodyOf k = some b ∧ b' = inverseBody b := by
  by_cases hrev : ∃ k, n = reverseFuncName k
  · obtain ⟨k, rfl⟩ := hrev
    have hinverted := h.settled k trivial List.not_mem_nil (Module.isSome_of_bodyOf hb')
    obtain ⟨b, hb, hbr, -⟩ := id hinverted
    exact .inr ⟨k, b, rfl, hinverted, hb, Option.some_injective _ (hb'.symm.trans hbr)⟩
  · have hne : ∀ k, n ≠ reverseFuncName k := fun k hk ↦ hrev ⟨k, hk⟩
    cases hb : M.bodyOf n with
    | none =>
      rw [Module.bodyOf, h.others n hne hb, ← Module.bodyOf, hb] at hb'
      contradiction
    | some b =>
      have hV : n ∈ namesOf M := mem_names_iff.mp (Module.isSome_of_bodyOf hb)
      obtain ⟨b'', hb'', hres⟩ := h.visited n hV b hb
      obtain rfl := Option.some_injective _ (hb'.symm.trans hb'')
      exact .inl ⟨b, rfl, hres⟩

theorem length_reverseFuncName (k : Ident) : k.length < (reverseFuncName k).length := by
  rw [reverseFuncName, List.length_append]
  have hlen : "_Reverse".toList.length = 8 := by decide
  omega

include h in
/-- **What holds of the bodies of the new module**, if it holds of resolved bodies and is kept when
a body is turned round. -/
theorem body_rule {P : Ident → List Instr → Prop}
    (hres : ∀ n b b', M.bodyOf n = some b → R.bodyOf n = some b' → Resolved M R b b' → P n b')
    (hinv : ∀ k b, R.bodyOf k = some b → Inverted R k → P k b →
      P (reverseFuncName k) (inverseBody b))
    (hb' : R.bodyOf n = some b') : P n b' := by
  induction hlen : n.length using Nat.strong_induction_on generalizing n b' with
  | _ l ih =>
    rcases body_cases h hb' with ⟨b, hb, hr⟩ | ⟨k, b, rfl, hinverted, hb, rfl⟩
    · exact hres n b b' hb hb' hr
    · exact hinv k b hb hinverted (ih _ (hlen ▸ length_reverseFuncName k) hb rfl)

/-! ## Operands -/

theorem operands_intrinsic {f : Ident} {args : List Arg} {g : GateCall Operand}
    (hg : intrinsic f args = some g) {o : Operand} (ho : o ∈ g.operands) : .qubit o ∈ args := by
  have hmem := List.mem_of_find?_eq_some hg
  rw [intrinsicsOn.eq_def] at hmem
  split at hmem
  · simp only [List.mem_cons, List.not_mem_nil, or_false] at hmem
    rcases hmem with rfl | rfl | rfl | rfl | rfl | rfl | rfl | rfl | rfl | rfl <;>
      simpa [GateCall.operands] using ho
  · rw [List.mem_singleton.mp hmem] at ho
    simpa [GateCall.operands] using ho
  · simp only [List.mem_cons, List.not_mem_nil, or_false] at hmem
    rcases hmem with rfl | rfl <;> simpa [GateCall.operands] using ho
  · exact absurd hmem List.not_mem_nil

theorem numAllocas_resolved (hr : Resolved M R b b') : numAllocas b' = numAllocas b := by
  induction hr with
  | nil => rfl
  | cons hij _ ih =>
    rw [numAllocas, numAllocas] at ih
    rw [numAllocas, numAllocas, List.countP_cons, List.countP_cons, ih]
    cases hij <;> rfl

theorem scoped_resolved {k : ℕ} (hr : Resolved M R b b') (hb : Scoped k b) : Scoped k b' := by
  intro j hj o ho
  obtain ⟨i, hi, hij⟩ := exists_of_mem_right hr hj
  refine hb i hi o ?_
  cases hij with
  | same => exact ho
  | function => exact ho
  | @intrinsic m f args g _ _ _ hg =>
    have hmem : o ∈ g.operands := by
      rw [Flatten.operands] at ho
      split_ifs at ho
      · rwa [operands_inverseGate] at ho
      · exact ho
    exact List.mem_filterMap.mpr ⟨_, operands_intrinsic hg hmem, rfl⟩

theorem numAllocas_inverseBody (b : List Instr) : numAllocas (inverseBody b) = numAllocas b := by
  induction b with
  | nil => rfl
  | cons i b ih =>
    rw [numAllocas, numAllocas] at ih
    cases i with
    | alloca ty size =>
      rw [inverseBody_alloca, numAllocas, numAllocas, List.countP_cons, List.countP_cons, ih]
    | gate g =>
      rw [inverseBody_gate, numAllocas, numAllocas, List.countP_append, List.countP_cons, ih]
      rfl
    | call c args =>
      rw [inverseBody_call, numAllocas, numAllocas, List.countP_append, List.countP_cons, ih]
      rfl

theorem exists_operands_inverseBody {j : Instr} (hj : j ∈ inverseBody b) :
    ∃ i ∈ b, Flatten.operands j = Flatten.operands i := by
  rcases List.mem_append.mp hj with hj | hj
  · exact ⟨j, (List.mem_filter.mp hj).1, rfl⟩
  · obtain ⟨i, hi, rfl⟩ := List.mem_map.mp hj
    refine ⟨i, (List.mem_filter.mp (List.mem_reverse.mp hi)).1, ?_⟩
    cases i with
    | alloca | call => rfl
    | gate g => exact operands_inverseGate g

theorem scoped_inverseBody {k : ℕ} (hb : Scoped k b) : Scoped k (inverseBody b) := by
  intro j hj o ho
  obtain ⟨i, hi, heq⟩ := exists_operands_inverseBody hj
  exact hb i hi o (heq ▸ ho)

include h in
/-- **Operands stay within their functions.** -/
theorem scoped_of_stage (hbounded : ∀ n b, M.bodyOf n = some b → Scoped (numAllocas b) b)
    (hb' : R.bodyOf n = some b') : Scoped (numAllocas b') b' := by
  refine body_rule (P := fun _ b ↦ Scoped (numAllocas b) b) h (fun n b b' hb _ hr ↦ ?_)
    (fun k b _ _ hk ↦ ?_) hb'
  · rw [numAllocas_resolved hr]
    exact scoped_resolved hr (hbounded n b hb)
  · rw [numAllocas_inverseBody]
    exact scoped_inverseBody hk

/-! ## Circuits -/

include hM hN h

theorem invertible_of_stage {k : Ident} (hk : Inverted R k) : Invertible R k := by
  induction hlen : k.length using Nat.strong_induction_on generalizing k with
  | _ l ih =>
    obtain ⟨b, hb, hrev, -⟩ := id hk
    have hsome := Module.isSome_of_bodyOf hrev
    rcases body_cases h hb with ⟨b₀, hb₀, -⟩ | ⟨j, bj, rfl, hj, -⟩
    · exact invertible_of_inverted hM hN h (Module.isSome_of_bodyOf hb₀) hsome
    · exact invertible_reverseFuncName hN h (ih _ (hlen ▸ length_reverseFuncName j) hj rfl)
        (Module.isSome_of_bodyOf hb)

/-- **Every body has a circuit**, wherever its arrays lie. -/
theorem exists_expands_of_stage {ι : Type*} (hb' : R.bodyOf n = some b') :
    ∀ ρ : Env ι, ∃ C, Expands R ρ b' C := by
  refine body_rule (P := fun _ b ↦ ∀ ρ : Env ι, ∃ C, Expands R ρ b C) h
    (fun n b b' hb hb' _ ρ ↦ ?_) (fun k b hb hk ih ρ ↦ ?_) hb'
  · obtain ⟨b'', hb'', -, hmade⟩ := expands_iff_denotes (ι := ι) hM hN h hb
    obtain rfl := Option.some_injective _ (hb'.symm.trans hb'')
    obtain ⟨C, hC⟩ := hM.exists_denotes inverseGate hb (fun _ hi ↦ hi) ρ
    exact ⟨C, (hmade ρ C).mpr hC⟩
  · obtain ⟨b₀, hb₀, hrev, -⟩ := id hk
    obtain rfl := Option.some_injective _ (hb.symm.trans hb₀)
    have hstore : k ≠ storeCbit := by
      rintro rfl
      rw [h.bodyOf_storeCbit hN] at hb
      contradiction
    obtain ⟨b'', hb'', hiff⟩ := mirrorsAt (ι := ι) (h.settled.mono (Set.subset_univ _))
      (h.bodyOf_storeCbit hN) (invertible_of_stage hM hN h hk) hstore
      (Module.isSome_of_bodyOf hrev) b hb
    obtain rfl := Option.some_injective _ (hrev.symm.trans hb'')
    obtain ⟨C, hC⟩ := ih ρ
    exact ⟨inverse C, (hiff ρ _).mpr (by rwa [inverse_inverse])⟩

/-- **The module can be flattened**, whatever functions are called from outside. -/
theorem exists_program (hnodup : (R.map Function.name).Nodup)
    (hbounded : ∀ n b, M.bodyOf n = some b → Scoped (numAllocas b) b) (external : Set Ident) :
    ∃ P : Program, P.M = R ∧ P.external = external ∧ P.Acyclic := by
  have hexpands : ∀ n b, R.bodyOf n = some b → ∃ ρ : Env Unit, ∃ C, Expands R ρ b C :=
    fun n b hb ↦ ⟨fun _ _ ↦ (), exists_expands_of_stage hM hN h hb _⟩
  refine ⟨⟨R, external, hnodup, fun f b n args hb hc ↦ ?_,
    fun f b hb ↦ scoped_of_stage h hbounded hb⟩, rfl, rfl, not_transGen_calls hexpands⟩
  obtain ⟨ρ, C, hC⟩ := hexpands f b hb
  exact isSome_of_expands hC hc

end Functions

end ScaffCC.FunctionReverse
