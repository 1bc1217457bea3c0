import ScaffCC.Reverse.Inverse

/-!
# A function followed by its inverse

The circuit of an inverse function is the circuit of the function turned round gate by gate. The
turned circuit undoes the circuit when the table holds the true inverse of every gate. It does for
every unitary gate but the rotations, which it holds as their own inverses with the angle unchanged:
a rotation is undone only if its angle is zero, and a circuit with one other rotation is not undone.
-/

namespace ScaffCC.FunctionReverse

open Filter Quantum GateCall

/-! ## The circuit of an inverse -/

section Expansion

variable {ι : Type*}

/-- The circuit turned round, with each gate replaced by its entry in the table. -/
def inverse (C : List (GateCall ι)) : List (GateCall ι) := (C.map inverseGate).reverse

@[simp] theorem inverseGate_inverseGate (g : GateCall ι) : inverseGate (inverseGate g) = g := by
  rcases g with ⟨_ | _⟩ | _ | _ | _ | _ | _ | _ <;> rfl

theorem inverseGate_map {κ : Type*} (f : ι → κ) (g : GateCall ι) :
    inverseGate (g.map f) = (inverseGate g).map f := by
  rcases g with ⟨_ | _⟩ | _ | _ | _ | _ | _ | _ <;> rfl

theorem isUnitary_inverseGate {g : GateCall ι} (h : g.IsUnitary) : (inverseGate g).IsUnitary := by
  rcases g with ⟨_ | _⟩ | _ | _ | _ | _ | _ | _ <;> exact h

theorem operands_inverseGate (g : GateCall ι) : (inverseGate g).operands = g.operands := by
  rcases g with ⟨_ | _⟩ | _ | _ | _ | _ | _ | _ <;> rfl

theorem eq_rot_of_inverseGate {g : GateCall ι} {a : Axis} {q : ι} {θ : ℚ}
    (h : inverseGate g = rot a q θ) : g = rot a q θ := by
  rw [← inverseGate_inverseGate g, h]
  rfl

@[simp] theorem inverse_inverse (C : List (GateCall ι)) : inverse (inverse C) = C := by
  simp [inverse, Function.comp_def]

theorem inverse_eq_iff {C D : List (GateCall ι)} : inverse C = D ↔ C = inverse D :=
  ⟨fun h ↦ by rw [← h, inverse_inverse], fun h ↦ by rw [h, inverse_inverse]⟩

@[simp] theorem inverse_nil : inverse ([] : List (GateCall ι)) = [] := rfl

theorem inverse_cons (g : GateCall ι) (C : List (GateCall ι)) :
    inverse (g :: C) = inverse C ++ [inverseGate g] := by
  simp [inverse]

theorem inverse_append (C D : List (GateCall ι)) : inverse (C ++ D) = inverse D ++ inverse C := by
  simp [inverse]

theorem isUnitary_append_inverse {C : List (GateCall ι)} (h : ∀ g ∈ C, g.IsUnitary) :
    ∀ g ∈ C ++ inverse C, g.IsUnitary := by
  intro g hg
  rcases List.mem_append.mp hg with hg | hg
  · exact h g hg
  · obtain ⟨g', hg', rfl⟩ := List.mem_map.mp (List.mem_reverse.mp hg)
    exact isUnitary_inverseGate (h g' hg')

/-- The inverse of the function `n`, wherever its arguments and local arrays lie, performs the
circuits of `n` turned round. -/
def MirrorsAt (ι : Type*) (M : Module) (n : Ident) : Prop :=
  ∀ b, M.bodyOf n = some b → ∃ b', M.bodyOf (reverseFuncName n) = some b' ∧
    ∀ (ρ : Env ι) C, Expands M ρ b' C ↔ Expands M ρ b (inverse C)

theorem expands_inverseBody {M : Module} (hstore : M.bodyOf storeCbit = none) {b : List Instr}
    (hb : ∀ c args, Instr.call c args ∈ b → c ≠ storeCbit → (M.bodyOf c).isSome ∧ MirrorsAt ι M c)
    (ρ : Env ι) (C : List (GateCall ι)) :
    Expands M ρ (inverseBody b) C ↔ Expands M ρ b (inverse C) := by
  induction b generalizing C with
  | nil => rw [inverseBody_nil, Expands.nil_iff, Expands.nil_iff, inverse_eq_iff, inverse_nil]
  | cons i b ih =>
    have htail := ih fun c args hc ↦ hb c args (List.mem_cons_of_mem i hc)
    cases i with
    | alloca ty size => rw [inverseBody_alloca, Expands.alloca_iff, Expands.alloca_iff, htail]
    | gate g =>
      simp only [inverseBody_gate, Expands.append_iff, Expands.gate_iff, Expands.nil_iff, htail]
      constructor
      · rintro ⟨C₁, _, h, ⟨_, rfl, rfl⟩, rfl⟩
        refine ⟨_, h, ?_⟩
        rw [inverse_append, inverse_cons, inverse_nil, ← inverseGate_map, inverseGate_inverseGate]
        rfl
      · rintro ⟨C', h, hC⟩
        rw [inverse_eq_iff, inverse_cons, inverseGate_map] at hC
        exact ⟨inverse C', _, by rwa [inverse_inverse], ⟨[], rfl, rfl⟩, hC⟩
    | call n args =>
      simp only [inverseBody_call, Expands.append_iff, htail]
      -- a store is called as it stands, any other function by its inverse
      by_cases hn : n = storeCbit
      · subst hn
        simp only [inverseName, if_true, Expands.call_iff_of_none hstore, Expands.nil_iff]
        constructor
        · rintro ⟨C₁, _, h, ⟨hs, rfl⟩, rfl⟩
          exact ⟨hs, by rwa [List.append_nil]⟩
        · rintro ⟨hs, h⟩
          exact ⟨C, [], h, ⟨hs, rfl⟩, (List.append_nil C).symm⟩
      · obtain ⟨hsome, hmir⟩ := hb n args List.mem_cons_self hn
        obtain ⟨bn, hbn⟩ := Option.isSome_iff_exists.mp hsome
        obtain ⟨bn', hbn', hiff⟩ := hmir bn hbn
        simp only [inverseName_of_ne hn, Expands.call_iff_of_body hbn,
          Expands.call_iff_of_body hbn',
          Expands.nil_iff, hiff]
        constructor
        · rintro ⟨C₁, _, h, ⟨loc, D, _, hD, rfl, rfl⟩, rfl⟩
          refine ⟨loc, inverse D, inverse C₁, hD, h, ?_⟩
          rw [List.append_nil, inverse_append]
        · rintro ⟨loc, D, C', hD, h, hC⟩
          rw [inverse_eq_iff, inverse_append] at hC
          exact ⟨inverse C', inverse D, by rwa [inverse_inverse],
            ⟨loc, inverse D, [], by rwa [inverse_inverse], rfl, (List.append_nil _).symm⟩, hC⟩

/-- **The circuit of an inverse function is the circuit of the function turned round.** -/
theorem mirrorsAt {M : Module} {n : Ident} (hM : Settled (reached M n) M [])
    (hstore : M.bodyOf storeCbit = none) (hn : Invertible M n) (hs : n ≠ storeCbit)
    (hsome : (M.getFunction (reverseFuncName n)).isSome) : MirrorsAt ι M n := by
  induction hn with
  | store => exact absurd rfl hs
  | @body n b hb hcalls ih =>
    intro b₁ hb₁
    obtain rfl := Option.some_injective _ (hb.symm.trans hb₁)
    obtain ⟨b₂, hb₂, hrev, hcallees⟩ := hM n (mem_reached_self M n) List.not_mem_nil hsome
    obtain rfl := Option.some_injective _ (hb.symm.trans hb₂)
    refine ⟨_, hrev, expands_inverseBody hstore fun c args hc hcs ↦ ?_⟩
    refine ⟨?_, ih c args hc (hM.mono (reached_subset_of_call hb hc)) hcs (hcallees c args hc hcs)⟩
    cases hcalls c args hc with
    | store => exact absurd rfl hcs
    | body hbc _ => rw [hbc]; rfl

end Expansion

/-! ## Unitary functions -/

/-- An operand in an array passed by the caller. -/
def IsParam (o : Operand) : Prop := ∃ k, o.base = .param k

/-- A gate without outcomes or a call, on the function's parameters. -/
def UnitaryInstr : Instr → Prop
  | .alloca _ _ => False
  | .gate g => g.IsUnitary ∧ ∀ o ∈ g.operands, IsParam o
  | .call _ args => ∀ o, Arg.qubit o ∈ args → IsParam o

/-- A function made of unitary gates and of calls of such functions, without recursion. -/
inductive UnitaryFunction (M : Module) : Ident → Prop
  | body {n : Ident} {b : List Instr} : M.bodyOf n = some b → (∀ i ∈ b, UnitaryInstr i) →
      (∀ c args, Instr.call c args ∈ b → UnitaryFunction M c) → UnitaryFunction M n

theorem UnitaryFunction.invertible {M : Module} {n : Ident} (h : UnitaryFunction M n) :
    Invertible M n := by
  induction h with
  | body hb _ _ ih => exact .body hb ih

theorem UnitaryFunction.mono {M N : Module} (h : M.Keeps N) {n : Ident} (hn : UnitaryFunction M n) :
    UnitaryFunction N n := by
  induction hn with
  | body hb hunitary _ ih => exact .body (h.bodyOf hb) hunitary ih

theorem UnitaryFunction.ne_storeCbit {M : Module} (hstore : M.bodyOf storeCbit = none) {n : Ident}
    (h : UnitaryFunction M n) : n ≠ storeCbit := by
  rintro rfl
  obtain ⟨hb, -, -⟩ := h
  rw [hstore] at hb
  contradiction

section Unitary

variable {ι : Type*} {M : Module}

private theorem exists_expands_of_calls {is : List Instr} (his : ∀ i ∈ is, UnitaryInstr i)
    (hcalls : ∀ c args, Instr.call c args ∈ is →
      ∃ b, M.bodyOf c = some b ∧ ∀ ρ : Env ι, ∃ C, Expands M ρ b C) (ρ : Env ι) :
    ∃ C, Expands M ρ is C := by
  induction is with
  | nil => exact ⟨[], .nil ρ⟩
  | cons i is ih =>
    obtain ⟨C, hC⟩ := ih (fun j hj ↦ his j (List.mem_cons_of_mem i hj))
      fun c args hc ↦ hcalls c args (List.mem_cons_of_mem i hc)
    cases i with
    | alloca ty size => exact ⟨C, hC.alloca ty size⟩
    | gate g => exact ⟨_, hC.gate g⟩
    | call c args =>
      obtain ⟨b, hb, hex⟩ := hcalls c args List.mem_cons_self
      obtain ⟨D, hD⟩ := hex (ρ.bind args fun _ _ ↦ ρ (.param 0) 0)
      exact ⟨_, .of_bodyOf hb hD hC⟩

theorem UnitaryFunction.exists_expands {n : Ident} (h : UnitaryFunction M n) :
    ∃ b, M.bodyOf n = some b ∧ ∀ ρ : Env ι, ∃ C, Expands M ρ b C := by
  induction h with
  | body hb hunitary _ ih => exact ⟨_, hb, exists_expands_of_calls hunitary ih⟩

/-- The circuit of a unitary body depends on the wires of the parameters only. -/
def Determined (ι : Type*) (M : Module) (b : List Instr) : Prop :=
  ∀ ⦃ρ ρ' : Env ι⦄ ⦃C C'⦄, (∀ k, ρ (.param k) = ρ' (.param k)) → Expands M ρ b C →
    Expands M ρ' b C' → C = C'

private theorem bind_param_eq {ρ ρ' : Env ι} (h : ∀ k, ρ (.param k) = ρ' (.param k))
    {args : List Arg} (hargs : ∀ o, Arg.qubit o ∈ args → IsParam o) (loc loc' : ℕ → ℕ → ι) (k : ℕ) :
    ρ.bind args loc (.param k) = ρ'.bind args loc' (.param k) := by
  funext j
  simp only [Env.bind]
  cases harg : args[k]? with
  | none => exact congrFun (h k) j
  | some a =>
    cases a with
    | int v => exact congrFun (h k) j
    | qubit o =>
      obtain ⟨m, hm⟩ := hargs o (List.mem_of_getElem? harg)
      simp only [hm, h m]

private theorem wire_eq {ρ ρ' : Env ι} (h : ∀ k, ρ (.param k) = ρ' (.param k)) {o : Operand}
    (ho : IsParam o) : ρ.wire o = ρ'.wire o := by
  obtain ⟨k, hk⟩ := ho
  rw [Env.wire, Env.wire, hk, h k]

private theorem determined_of_calls {is : List Instr} (his : ∀ i ∈ is, UnitaryInstr i)
    (hcalls : ∀ c args, Instr.call c args ∈ is →
      ∃ b, M.bodyOf c = some b ∧ Determined ι M b) : Determined ι M is := by
  intro ρ ρ' C C' h hC hC'
  induction is generalizing C C' with
  | nil => rw [Expands.nil_iff.mp hC, Expands.nil_iff.mp hC']
  | cons i is ih =>
    have htail := fun {C C'} ↦ @ih (fun j hj ↦ his j (List.mem_cons_of_mem i hj))
      (fun c args hc ↦ hcalls c args (List.mem_cons_of_mem i hc)) C C'
    have hi := his i List.mem_cons_self
    cases i with
    | alloca ty size => exact hi.elim
    | gate g =>
      obtain ⟨D, hD, rfl⟩ := Expands.gate_iff.mp hC
      obtain ⟨D', hD', rfl⟩ := Expands.gate_iff.mp hC'
      rw [htail hD hD', GateCall.map_congr fun o ho ↦ wire_eq h (hi.2 o ho)]
    | call c args =>
      obtain ⟨b, hb, hdet⟩ := hcalls c args List.mem_cons_self
      obtain ⟨loc, D, E, hD, hE, rfl⟩ := (Expands.call_iff_of_body hb).mp hC
      obtain ⟨loc', D', E', hD', hE', rfl⟩ := (Expands.call_iff_of_body hb).mp hC'
      rw [hdet (bind_param_eq h hi loc loc') hD hD', htail hE hE']

theorem UnitaryFunction.determined {n : Ident} (h : UnitaryFunction M n) :
    ∃ b, M.bodyOf n = some b ∧ Determined ι M b := by
  induction h with
  | body hb hunitary _ ih => exact ⟨_, hb, determined_of_calls hunitary ih⟩

private theorem isUnitary_of_calls {is : List Instr} (his : ∀ i ∈ is, UnitaryInstr i)
    (hcalls : ∀ c args, Instr.call c args ∈ is → ∃ b, M.bodyOf c = some b ∧
      ∀ ⦃ρ : Env ι⦄ ⦃C⦄, Expands M ρ b C → ∀ g ∈ C, g.IsUnitary) {ρ : Env ι}
    {C : List (GateCall ι)} (hC : Expands M ρ is C) : ∀ g ∈ C, g.IsUnitary := by
  induction is generalizing C with
  | nil => simp [Expands.nil_iff.mp hC]
  | cons i is ih =>
    have htail := fun {C} ↦ @ih (fun j hj ↦ his j (List.mem_cons_of_mem i hj))
      (fun c args hc ↦ hcalls c args (List.mem_cons_of_mem i hc)) C
    have hi := his i List.mem_cons_self
    cases i with
    | alloca ty size => exact hi.elim
    | gate g =>
      obtain ⟨D, hD, rfl⟩ := Expands.gate_iff.mp hC
      exact List.forall_mem_cons.mpr ⟨isUnitary_map.mpr hi.1, htail hD⟩
    | call c args =>
      obtain ⟨b, hb, hun⟩ := hcalls c args List.mem_cons_self
      obtain ⟨loc, D, E, hD, hE, rfl⟩ := (Expands.call_iff_of_body hb).mp hC
      exact List.forall_mem_append.mpr ⟨hun hD, htail hE⟩

theorem UnitaryFunction.isUnitary {n : Ident} (h : UnitaryFunction M n) :
    ∃ b, M.bodyOf n = some b ∧ ∀ ⦃ρ : Env ι⦄ ⦃C⦄, Expands M ρ b C → ∀ g ∈ C, g.IsUnitary := by
  induction h with
  | body hb hunitary _ ih =>
    exact ⟨_, hb, fun _ _ hC ↦ isUnitary_of_calls hunitary ih hC⟩

end Unitary

/-! ## Undoing a circuit -/

section Undo

variable {ι : Type*} [DecidableEq ι]

/-- No gate of the circuit has an operand twice. -/
def Distinct (C : List (GateCall ι)) : Prop := ∀ g ∈ C, g.operands.Nodup

def AnglesZero (C : List (GateCall ι)) : Prop := ∀ a q θ, rot a q θ ∈ C → θ = 0

/-- The circuit has one rotation by an angle other than zero. -/
def OneTurn (C : List (GateCall ι)) : Prop :=
  ∃ A a q θ B, C = A ++ rot a q θ :: B ∧ θ ≠ 0 ∧ AnglesZero A ∧ AnglesZero B

theorem matrix_zero (a : Axis) : a.matrix 0 = 1 := by
  cases a <;> simp [Axis.matrix]

theorem re_matrix_mul_self (a : Axis) (θ : ℚ) :
    ((a.matrix θ * a.matrix θ) false false).re = Real.cos θ := by
  cases a
  · exact re_rotX_mul_self θ
  · exact re_rotY_mul_self θ
  · exact re_rotZ_mul_self θ

/-- A rotation followed by itself is nothing only for the angle zero. -/
theorem eq_zero_of_matrix_mul_self {a : Axis} {θ : ℚ} (h : a.matrix θ * a.matrix θ = 1) :
    θ = 0 := by
  refine eq_zero_of_cos_eq_one ?_
  rw [← re_matrix_mul_self a, h, Matrix.one_apply_eq, Complex.one_re]

/-- The table holds a left inverse of every gate that is not a rotation by another angle than
zero. -/
theorem operator_inverseGate_mul {g : GateCall ι} (hg : g.IsUnitary) (hd : g.operands.Nodup)
    (hrot : ∀ a q θ, g = rot a q θ → θ = 0) : (inverseGate g).operator * g.operator = 1 := by
  cases g with
  | gate1 g q =>
    cases g <;> simp only [inverseGate, operator, Gate1.matrix, onWire_mul, hadamard_mul_self,
      pauliX_mul_self, pauliY_mul_self, phase_mul_inv omega8_ne_zero, phase_inv_mul omega8_ne_zero,
      phase_mul_inv Complex.I_ne_zero, phase_inv_mul Complex.I_ne_zero, phase_mul, onWire_one]
    norm_num
  | rot a q θ =>
    obtain rfl := hrot a q θ rfl
    simp [inverseGate, operator, matrix_zero]
  | prep b q v => exact hg.elim
  | meas b q => exact hg.elim
  | CNOT c t =>
    have hct : c ≠ t := by simpa [operands] using hd
    exact flip_mul_self fun x b ↦ Function.update_of_ne hct b x
  | Toffoli c₁ c₂ t =>
    have h : (c₁ ≠ c₂ ∧ c₁ ≠ t) ∧ c₂ ≠ t := by simpa [operands, not_or] using hd
    refine flip_mul_self fun x b ↦ ?_
    simp only [Function.update_of_ne h.1.2, Function.update_of_ne h.2]
  | Fredkin c a b =>
    have h : (c ≠ a ∧ c ≠ b) ∧ a ≠ b := by simpa [operands, not_or] using hd
    exact exchange_mul_self (fun x v ↦ Function.update_of_ne h.1.1 v x)
      fun x v ↦ Function.update_of_ne h.1.2 v x

/-- A circuit whose rotations are all by zero is undone. -/
theorem compose_append_inverse {C : List (GateCall ι)} (hC : ∀ g ∈ C, g.IsUnitary)
    (hd : Distinct C) (hrot : AnglesZero C) : compose operator (C ++ inverse C) = 1 :=
  compose_append_reverse_map inverseGate fun g hg ↦
    operator_inverseGate_mul (hC g hg) (hd g hg) fun a q θ h ↦ hrot a q θ (h ▸ hg)

/-- A circuit whose rotations are all by zero undoes what it is turned round from. -/
theorem compose_inverse_append {C : List (GateCall ι)} (hC : ∀ g ∈ C, g.IsUnitary)
    (hd : Distinct C) (hrot : AnglesZero C) : compose operator (inverse C ++ C) = 1 := by
  have hback : ∀ g ∈ inverse C, ∃ g' ∈ C, inverseGate g' = g := fun g hg ↦
    List.mem_map.mp (List.mem_reverse.mp hg)
  have h := compose_append_inverse (C := inverse C) (fun g hg ↦ ?_) (fun g hg ↦ ?_)
    fun a q θ hg ↦ ?_
  · rwa [inverse_inverse] at h
  · obtain ⟨g', hg', rfl⟩ := hback g hg
    exact isUnitary_inverseGate (hC g' hg')
  · obtain ⟨g', hg', rfl⟩ := hback g hg
    rw [operands_inverseGate]
    exact hd g' hg'
  · obtain ⟨g', hg', h⟩ := hback _ hg
    exact hrot a q θ (eq_rot_of_inverseGate h ▸ hg')

/-- A circuit with one rotation by an angle other than zero is not undone: conjugating by the gates
before the rotation leaves the rotation twice. -/
theorem compose_append_inverse_ne_one {C : List (GateCall ι)} (hC : ∀ g ∈ C, g.IsUnitary)
    (hd : Distinct C) (hrot : OneTurn C) : compose operator (C ++ inverse C) ≠ 1 := by
  obtain ⟨A, a, q, θ, B, rfl, hθ, hA, hB⟩ := hrot
  intro h
  refine hθ (eq_zero_of_matrix_mul_self (a := a) (onWire_injective q ?_))
  have hUA := compose_append_inverse (fun g hg ↦ hC g (List.mem_append_left _ hg))
    (fun g hg ↦ hd g (List.mem_append_left _ hg)) hA
  have hAU := compose_inverse_append (fun g hg ↦ hC g (List.mem_append_left _ hg))
    (fun g hg ↦ hd g (List.mem_append_left _ hg)) hA
  have hUB := compose_append_inverse
    (fun g hg ↦ hC g (List.mem_append_right _ (List.mem_cons_of_mem _ hg)))
    (fun g hg ↦ hd g (List.mem_append_right _ (List.mem_cons_of_mem _ hg))) hB
  rw [compose_append] at hUA hAU hUB
  rw [inverse_append, inverse_cons, compose_append, compose_append, compose_append, compose_append,
    compose_cons, compose_cons, compose_nil, one_mul] at h
  set U := compose operator A
  set U' := compose operator (inverse A)
  set V := compose operator B
  set V' := compose operator (inverse B)
  have hr : (inverseGate (rot a q θ)).operator = onWire q (a.matrix θ) := rfl
  have hr' : (rot a q θ).operator = onWire q (a.matrix θ) := rfl
  rw [hr, hr'] at h
  set r := onWire q (a.matrix θ)
  calc onWire q (a.matrix θ * a.matrix θ) = r * r := (onWire_mul q _ _).symm
    _ = U * U' * (r * (V' * V) * r) * (U * U') := by rw [hUB, hAU, mul_one, one_mul, mul_one]
    _ = U * (U' * (r * V') * (V * r * U)) * U' := by noncomm_ring
    _ = 1 := by rw [h, mul_one, hAU]
    _ = onWire q 1 := (onWire_one q).symm

/-! ## The inverse made by the pass -/

/-- The inverse made for `n` undoes `n`, on any wires. -/
def UndoneByInverse (ι : Type*) [DecidableEq ι] (M : Module) (n : Ident) : Prop :=
  ∃ M' r b b', (∀ᶠ fuel in atTop, getOrCreateInverseFunction fuel M n = some (M', r)) ∧
    M.Keeps M' ∧ M'.bodyOf n = some b ∧ M'.bodyOf r = some b' ∧ ∀ ρ : Env ι,
      (∃ C C', Expands M' ρ b C ∧ Expands M' ρ b' C') ∧
      ∀ C C', Expands M' ρ b C → Expands M' ρ b' C' → Distinct C → circuit (C ++ C') = circuit []

omit [DecidableEq ι] in
theorem UnitaryFunction.exists_inverse {M : Module} {n : Ident} (hM : Settled (reached M n) M [])
    (hstore : M.bodyOf storeCbit = none) (hn : UnitaryFunction M n) :
    ∃ M' b b', (∀ᶠ fuel in atTop,
        getOrCreateInverseFunction fuel M n = some (M', reverseFuncName n)) ∧
      M.Keeps M' ∧ M'.bodyOf n = some b ∧ M'.bodyOf (reverseFuncName n) = some b' ∧
      ∀ (ρ : Env ι) C, Expands M' ρ b C → ∀ C', Expands M' ρ b' C' ↔ C' = inverse C := by
  have hready := ready_reached hM hstore hn.invertible
  have hself := mem_reached_self M n
  have hs := hn.ne_storeCbit hstore
  obtain ⟨M', r, hmade⟩ := exists_getOrCreateInverseFunction hn.invertible hself hready (.refl M)
  obtain ⟨fuel, hfuel⟩ := hmade.exists
  obtain ⟨rfl, hd, hsome⟩ := inverts_getOrCreateInverseFunction _ [] fuel hready hself hfuel
  rw [inverseName_of_ne hs] at hmade
  have hstore' : M'.bodyOf storeCbit = none := by
    rw [Module.bodyOf, hd.others _ fun k _ ↦ (reverseFuncName_ne_storeCbit k).symm]
    exact hstore
  obtain ⟨b, hb, hdet⟩ := (hn.mono hd.keeps).determined (ι := ι)
  have hsettled := hd.ready.settled.mono (hd.ready.reached_subset hself)
  obtain ⟨b', hb', hmir⟩ := mirrorsAt (ι := ι) hsettled hstore' (hn.invertible.mono hd.keeps) hs
    (hsome hs) b hb
  refine ⟨M', b, b', hmade, hd.keeps, hb, hb', fun ρ C hC C' ↦ ?_⟩
  rw [hmir, ← inverse_eq_iff]
  exact ⟨fun hC' ↦ hdet (fun _ ↦ rfl) hC' hC, fun h ↦ h ▸ hC⟩

section Function

variable {M : Module} {n : Ident} (hM : Settled (reached M n) M [])
  (hstore : M.bodyOf storeCbit = none) (hn : UnitaryFunction M n) {b : List Instr}
  (hb : M.bodyOf n = some b)
include hM hstore hn hb

theorem undoneByInverse_of_anglesZero
    (hzero : ∀ (ρ : Env ι) C, Expands M ρ b C → AnglesZero C) : UndoneByInverse ι M n := by
  obtain ⟨M', b₁, b', hmade, hkeeps, hb₁, hb', hinv⟩ := hn.exists_inverse (ι := ι) hM hstore
  obtain rfl := Option.some_injective _ (hb₁.symm.trans (hkeeps.bodyOf hb))
  obtain ⟨b₂, hb₂, hex⟩ := hn.exists_expands (ι := ι)
  obtain rfl := Option.some_injective _ (hb₂.symm.trans hb)
  obtain ⟨b₃, hb₃, hdet⟩ := (hn.mono hkeeps).determined (ι := ι)
  obtain rfl := Option.some_injective _ (hb₃.symm.trans hb₁)
  obtain ⟨b₄, hb₄, hunitary⟩ := (hn.mono hkeeps).isUnitary (ι := ι)
  obtain rfl := Option.some_injective _ (hb₄.symm.trans hb₁)
  refine ⟨M', reverseFuncName n, _, b', hmade, hkeeps, hb₁, hb', fun ρ ↦ ?_⟩
  obtain ⟨C₀, hC₀⟩ := hex ρ
  refine ⟨⟨C₀, inverse C₀, hC₀.mono hkeeps, (hinv ρ C₀ (hC₀.mono hkeeps) _).mpr rfl⟩,
    fun C C' hC hC' hd ↦ ?_⟩
  obtain rfl := (hinv ρ C hC C').mp hC'
  obtain rfl := hdet (fun _ ↦ rfl) hC (hC₀.mono hkeeps)
  rw [circuit_of_isUnitary (isUnitary_append_inverse (hunitary hC)),
    compose_append_inverse (hunitary hC) hd (hzero ρ C hC₀)]
  rfl

/-- A function with one rotation by another angle is not. -/
theorem not_undoneByInverse_of_oneTurn {ρ : Env ι} {C : List (GateCall ι)} (hC : Expands M ρ b C)
    (hd : Distinct C) (hturn : OneTurn C) : ¬ UndoneByInverse ι M n := by
  obtain ⟨M', b₁, b', hmade, hkeeps, hb₁, hb', hinv⟩ := hn.exists_inverse (ι := ι) hM hstore
  obtain rfl := Option.some_injective _ (hb₁.symm.trans (hkeeps.bodyOf hb))
  obtain ⟨b₂, hb₂, hunitary⟩ := hn.isUnitary (ι := ι)
  obtain rfl := Option.some_injective _ (hb₂.symm.trans hb)
  rintro ⟨M'', r, b₃, b₄, hmade', -, hb₃, hb₄, hundo⟩
  obtain ⟨fuel, h, h'⟩ := (hmade.and hmade').exists
  obtain ⟨rfl, rfl⟩ := Prod.mk.inj (Option.some_injective _ (h.symm.trans h'))
  obtain rfl := Option.some_injective _ (hb₃.symm.trans hb₁)
  obtain rfl := Option.some_injective _ (hb₄.symm.trans hb')
  have hCC := (hundo ρ).2 C (inverse C) (hC.mono hkeeps)
    ((hinv ρ C (hC.mono hkeeps) _).mpr rfl) hd
  rw [circuit_of_isUnitary (isUnitary_append_inverse (hunitary hC))] at hCC
  exact compose_append_inverse_ne_one (hunitary hC) hd hturn (List.singleton_injective hCC)

end Function

/-- **When a unitary function is undone by its inverse.** It is when all its rotations are by the
angle zero, and it is not when exactly one of them is by another angle. What already stands in the
module under the name of the inverse of a function that it reaches must be that inverse as the pass
makes it. -/
theorem undoneByInverse_of_rotations {M : Module} {n : Ident} (hM : Settled (reached M n) M [])
    (hstore : M.bodyOf storeCbit = none) (hn : UnitaryFunction M n) {b : List Instr}
    (hb : M.bodyOf n = some b) :
    ((∀ (ρ : Env ι) C, Expands M ρ b C → AnglesZero C) → UndoneByInverse ι M n) ∧
      ∀ (ρ : Env ι) C, Expands M ρ b C → Distinct C → OneTurn C → ¬ UndoneByInverse ι M n :=
  ⟨undoneByInverse_of_anglesZero hM hstore hn hb,
    fun _ _ ↦ not_undoneByInverse_of_oneTurn hM hstore hn hb⟩

end Undo

/-- A function applying one gate to its parameter. -/
def singleGate (g : GateCall Operand) : Module := [⟨"f".toList, some [.gate g]⟩]

private theorem settled_singleGate (A : Set Ident) (g : GateCall Operand) :
    Settled A (singleGate g) [] := by
  intro n _ _ hsome
  have hne : "f".toList ≠ reverseFuncName n := fun h ↦ by
    have hlen := congrArg List.length h
    rw [reverseFuncName, List.length_append, show "f".toList.length = 1 by decide,
      show "_Reverse".toList.length = 8 by decide] at hlen
    omega
  obtain ⟨f, hf⟩ := Option.isSome_iff_exists.mp hsome
  have hmem := List.mem_singleton.mp (Module.mem_of_getFunction hf)
  exact absurd (by rw [← Module.name_of_getFunction hf, hmem]) hne

private theorem unitaryFunction_singleGate {g : GateCall Operand} (hg : g.IsUnitary)
    (ho : ∀ o ∈ g.operands, IsParam o) : UnitaryFunction (singleGate g) "f".toList := by
  refine .body (b := [.gate g]) rfl (fun i hi ↦ ?_) fun c args hc ↦ ?_
  · rw [List.mem_singleton.mp hi]
    exact ⟨hg, ho⟩
  · exact Instr.noConfusion (List.mem_singleton.mp hc)

theorem undoneByInverse_singleGate_T :
    UndoneByInverse ℕ (singleGate (gate1 .T ⟨.qbit, .param 0, 0⟩)) "f".toList := by
  have hn : UnitaryFunction (singleGate (gate1 .T ⟨.qbit, .param 0, 0⟩)) "f".toList :=
    unitaryFunction_singleGate trivial fun o ho ↦ ⟨0, by rw [List.mem_singleton.mp ho]⟩
  refine (undoneByInverse_of_rotations (settled_singleGate _ _) rfl hn rfl).1 fun ρ C hC ↦ ?_
  obtain ⟨D, hD, rfl⟩ := Expands.gate_iff.mp hC
  simp [AnglesZero, Expands.nil_iff.mp hD, GateCall.map]

/-- A rotation by another angle than zero is not undone. -/
theorem not_undoneByInverse_singleGate_rot :
    UnitaryFunction (singleGate (rot .x ⟨.qbit, .param 0, 0⟩ 1)) "f".toList ∧
      ¬ UndoneByInverse ℕ (singleGate (rot .x ⟨.qbit, .param 0, 0⟩ 1)) "f".toList := by
  have hn : UnitaryFunction (singleGate (rot .x ⟨.qbit, .param 0, 0⟩ 1)) "f".toList :=
    unitaryFunction_singleGate trivial fun o ho ↦ ⟨0, by rw [List.mem_singleton.mp ho]⟩
  refine ⟨hn, not_undoneByInverse_of_oneTurn (ρ := fun _ j ↦ j) (settled_singleGate _ _) rfl hn rfl
    (.gate _ (.nil _)) (fun g hg ↦ ?_) ⟨[], .x, 0, 1, [], rfl, one_ne_zero, ?_, ?_⟩⟩
  · rw [List.mem_singleton.mp hg]
    exact List.nodup_singleton _
  all_goals exact fun _ _ _ h ↦ absurd h List.not_mem_nil

end ScaffCC.FunctionReverse
