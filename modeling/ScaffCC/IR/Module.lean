import Mathlib.Data.List.Basic
import ScaffCC.IR.Gate

/-!
# Modules of straight-line functions

A module is the list of its functions in the order in which they stand. Passes look functions up by
name, append new ones at the end and rewrite bodies in place. A body is the sequence of its
allocations and calls; address computations and loads are folded into the operands.

## Expansion

The circuit of a body is what remains when every call of a defined function is replaced by that
function's own circuit. It is given as a relation, derivable exactly when the calls reached from the
body are acyclic. The wires of a callee's local arrays are left open: any placement is allowed, so a
statement about all expansions is a statement about every way of placing them.
-/

namespace ScaffCC

/-- The array a quantum operand lives in: a parameter or a local allocation, by position. -/
inductive Base
  | param (k : ℕ)
  | alloca (k : ℕ)
  deriving DecidableEq, Repr

/-- A quantum operand: an element of an array, or a scalar as the element `0`. -/
structure Operand where
  ty : QTy
  base : Base
  index : ℕ
  deriving DecidableEq, Repr

/-- An argument of a call of a function. An integer argument has a value when it is a constant. -/
inductive Arg
  | qubit (o : Operand)
  | int (value : Option ℤ)
  deriving DecidableEq, Repr

/-- An instruction of a straight-line body. -/
inductive Instr
  | alloca (ty : QTy) (size : ℕ)
  | gate (g : GateCall Operand)
  | call (callee : Ident) (args : List Arg)
  deriving DecidableEq, Repr

/-- A function. Declarations have no body. -/
structure Function where
  name : Ident
  body : Option (List Instr)
  deriving DecidableEq, Repr

/-- A module, its functions in order. -/
abbrev Module := List Function

namespace Module

/-- The function of the given name, if there is one. -/
def getFunction (M : Module) (n : Ident) : Option Function := M.find? fun f ↦ f.name == n

theorem name_of_getFunction {M : Module} {n : Ident} {f : Function}
    (h : M.getFunction n = some f) : f.name = n := by
  simpa using List.find?_some h

theorem mem_of_getFunction {M : Module} {n : Ident} {f : Function}
    (h : M.getFunction n = some f) : f ∈ M := List.mem_of_find?_eq_some h

theorem getFunction_append (M N : Module) (n : Ident) :
    (M ++ N).getFunction n = (M.getFunction n).or (N.getFunction n) := List.find?_append

theorem getFunction_append_of_isSome {M : Module} {n : Ident} (h : (M.getFunction n).isSome)
    (N : Module) : (M ++ N).getFunction n = M.getFunction n := by
  obtain ⟨f, hf⟩ := Option.isSome_iff_exists.mp h
  rw [getFunction_append, hf, Option.some_or]

theorem getFunction_append_singleton_self {M : Module} {f : Function}
    (h : M.getFunction f.name = none) : (M ++ [f]).getFunction f.name = some f := by
  rw [getFunction_append, h, Option.none_or]
  simp [getFunction]

/-- The body of the function of the given name, if it has one. -/
def bodyOf (M : Module) (n : Ident) : Option (List Instr) := (M.getFunction n).bind Function.body

theorem bodyOf_eq_some {M : Module} {n : Ident} {b : List Instr} :
    M.bodyOf n = some b ↔ ∃ f, M.getFunction n = some f ∧ f.body = some b :=
  Option.bind_eq_some_iff

theorem isSome_of_bodyOf {M : Module} {n : Ident} {b : List Instr} (h : M.bodyOf n = some b) :
    (M.getFunction n).isSome := by
  obtain ⟨f, hf, -⟩ := bodyOf_eq_some.mp h
  rw [hf, Option.isSome_some]

/-- Every function of the one module is a function of the other, unchanged. -/
def Keeps (M N : Module) : Prop :=
  ∀ ⦃n f⦄, M.getFunction n = some f → N.getFunction n = some f

theorem Keeps.refl (M : Module) : M.Keeps M := fun _ _ h ↦ h

theorem Keeps.trans {M N P : Module} (h : M.Keeps N) (h' : N.Keeps P) : M.Keeps P :=
  fun _ _ hf ↦ h' (h hf)

theorem Keeps.isSome {M N : Module} (h : M.Keeps N) {n : Ident} (hn : (M.getFunction n).isSome) :
    (N.getFunction n).isSome := by
  obtain ⟨f, hf⟩ := Option.isSome_iff_exists.mp hn
  rw [h hf, Option.isSome_some]

theorem Keeps.bodyOf {M N : Module} (h : M.Keeps N) {n : Ident} {b : List Instr}
    (hb : M.bodyOf n = some b) : N.bodyOf n = some b := by
  obtain ⟨f, hf, hfb⟩ := bodyOf_eq_some.mp hb
  exact bodyOf_eq_some.mpr ⟨f, h hf, hfb⟩

theorem keeps_append (M N : Module) : M.Keeps (M ++ N) := fun n f hf ↦ by
  rw [getFunction_append_of_isSome (by rw [hf]; rfl), hf]

/-- The module with the body of the function `n` replaced. -/
def setBody (M : Module) (n : Ident) (b : List Instr) : Module :=
  M.map fun f ↦ if f.name = n then { f with body := some b } else f

theorem map_name_setBody (M : Module) (n : Ident) (b : List Instr) :
    (M.setBody n b).map Function.name = M.map Function.name := by
  rw [setBody, List.map_map]
  refine List.map_congr_left fun f _ ↦ ?_
  rw [Function.comp_apply]
  split <;> rfl

theorem getFunction_setBody_self (M : Module) (n : Ident) (b : List Instr) :
    (M.setBody n b).getFunction n = (M.getFunction n).map fun f ↦ { f with body := some b } := by
  induction M with
  | nil => rfl
  | cons g M ih =>
    rw [setBody, List.map_cons, ← setBody]
    by_cases h : g.name = n
    · simp [getFunction, h]
    · simpa [getFunction, h] using ih

theorem getFunction_setBody_of_ne {M : Module} {m n : Ident} (h : m ≠ n) (b : List Instr) :
    (M.setBody n b).getFunction m = M.getFunction m := by
  induction M with
  | nil => rfl
  | cons g M ih =>
    rw [setBody, List.map_cons, ← setBody]
    by_cases hg : g.name = n
    · simpa [getFunction, hg, h.symm] using ih
    · by_cases hm : g.name = m
      · simp [getFunction, hm, h]
      · simpa [getFunction, hg, hm] using ih

theorem getFunction_setBody_of_bodyOf {M : Module} {n : Ident} {b : List Instr}
    (hb : M.bodyOf n = some b) (m : Ident) :
    (M.setBody n b).getFunction m = M.getFunction m := by
  by_cases h : m = n
  · obtain ⟨f, hf, hfb⟩ := bodyOf_eq_some.mp hb
    rw [h, getFunction_setBody_self, hf, Option.map_some, ← hfb]
  · exact getFunction_setBody_of_ne h b

theorem isSome_getFunction_setBody (M : Module) (m n : Ident) (b : List Instr) :
    ((M.setBody n b).getFunction m).isSome = (M.getFunction m).isSome := by
  by_cases h : m = n
  · rw [h, getFunction_setBody_self, Option.isSome_map]
  · rw [getFunction_setBody_of_ne h]

theorem bodyOf_setBody_self {M : Module} {n : Ident} (h : (M.getFunction n).isSome)
    (b : List Instr) : (M.setBody n b).bodyOf n = some b := by
  obtain ⟨f, hf⟩ := Option.isSome_iff_exists.mp h
  rw [bodyOf, getFunction_setBody_self, hf, Option.map_some, Option.bind_some]

theorem bodyOf_setBody_of_ne {M : Module} {m n : Ident} (h : m ≠ n) (b : List Instr) :
    (M.setBody n b).bodyOf m = M.bodyOf m := by
  rw [bodyOf, getFunction_setBody_of_ne h, bodyOf]

theorem getFunction_append_singleton_of_ne {M : Module} {f : Function} {n : Ident}
    (h : n ≠ f.name) : (M ++ [f]).getFunction n = M.getFunction n := by
  have hnone : Module.getFunction [f] n = none := by simpa [getFunction] using h.symm
  rw [getFunction_append, hnone, Option.or_none]

end Module

/-! ## Wires -/

/-- The wire of each element of each array visible in a function. -/
abbrev Env (ι : Type*) := Base → ℕ → ι

namespace Env

variable {ι : Type*}

def wire (ρ : Env ι) (o : Operand) : ι := ρ o.base o.index

/-- The environment of a callee: its parameters are the arguments of the call and its local arrays
lie on the wires `loc`. -/
def bind (ρ : Env ι) (args : List Arg) (loc : ℕ → ℕ → ι) : Env ι
  | .param k, j =>
    match args[k]? with
    | some (.qubit o) => ρ o.base (o.index + j)
    | _ => ρ (.param k) j
  | .alloca k, j => loc k j

end Env

/-! ## Expansion -/

/-- `Expands M ρ is C`: the instructions `is`, run with their operands on the wires `ρ`, perform the
gates `C`. Functions without a body are outside the circuit and perform none. -/
inductive Expands {ι : Type*} (M : Module) : Env ι → List Instr → List (GateCall ι) → Prop
  | nil (ρ : Env ι) : Expands M ρ [] []
  | alloca {ρ : Env ι} {is : List Instr} {C : List (GateCall ι)} (ty : QTy) (size : ℕ) :
      Expands M ρ is C → Expands M ρ (.alloca ty size :: is) C
  | gate {ρ : Env ι} {is : List Instr} {C : List (GateCall ι)} (g : GateCall Operand) :
      Expands M ρ is C → Expands M ρ (.gate g :: is) (g.map ρ.wire :: C)
  | call {ρ : Env ι} {is : List Instr} {n : Ident} {args : List Arg} {f : Function}
      {b : List Instr} {loc : ℕ → ℕ → ι} {C₁ C₂ : List (GateCall ι)} :
      M.getFunction n = some f → f.body = some b → Expands M (ρ.bind args loc) b C₁ →
      Expands M ρ is C₂ → Expands M ρ (.call n args :: is) (C₁ ++ C₂)
  | declared {ρ : Env ι} {is : List Instr} {n : Ident} {args : List Arg} {f : Function}
      {C : List (GateCall ι)} :
      M.getFunction n = some f → f.body = none → Expands M ρ is C →
      Expands M ρ (.call n args :: is) C

namespace Expands

variable {ι : Type*} {M N : Module} {ρ : Env ι}

theorem of_bodyOf {is : List Instr} {n : Ident} {args : List Arg} {b : List Instr}
    {loc : ℕ → ℕ → ι} {C₁ C₂ : List (GateCall ι)} (hb : M.bodyOf n = some b)
    (h₁ : Expands M (ρ.bind args loc) b C₁) (h₂ : Expands M ρ is C₂) :
    Expands M ρ (.call n args :: is) (C₁ ++ C₂) := by
  obtain ⟨f, hf, hfb⟩ := Module.bodyOf_eq_some.mp hb
  exact .call hf hfb h₁ h₂

theorem mono (h : M.Keeps N) {is : List Instr} {C : List (GateCall ι)} (hC : Expands M ρ is C) :
    Expands N ρ is C := by
  induction hC with
  | nil ρ => exact .nil ρ
  | alloca ty size _ ih => exact ih.alloca ty size
  | gate g _ ih => exact ih.gate g
  | call hf hb _ _ ih₁ ih₂ => exact .call (h hf) hb ih₁ ih₂
  | declared hf hb _ ih => exact .declared (h hf) hb ih

@[simp] theorem nil_iff {C : List (GateCall ι)} : Expands M ρ [] C ↔ C = [] := by
  constructor
  · rintro ⟨⟩
    rfl
  · rintro rfl
    exact .nil ρ

@[simp] theorem alloca_iff {ty : QTy} {size : ℕ} {is : List Instr} {C : List (GateCall ι)} :
    Expands M ρ (.alloca ty size :: is) C ↔ Expands M ρ is C := by
  refine ⟨fun h ↦ ?_, .alloca ty size⟩
  cases h with
  | alloca _ _ h => exact h

theorem gate_iff {g : GateCall Operand} {is : List Instr} {C : List (GateCall ι)} :
    Expands M ρ (.gate g :: is) C ↔ ∃ C', Expands M ρ is C' ∧ C = g.map ρ.wire :: C' := by
  constructor
  · rintro ⟨⟩
    exact ⟨_, ‹_›, rfl⟩
  · rintro ⟨C', h, rfl⟩
    exact .gate g h

theorem call_iff_of_body {n : Ident} {b : List Instr} (hb : M.bodyOf n = some b) {args : List Arg}
    {is : List Instr} {C : List (GateCall ι)} :
    Expands M ρ (.call n args :: is) C ↔
      ∃ loc C₁ C₂, Expands M (ρ.bind args loc) b C₁ ∧ Expands M ρ is C₂ ∧ C = C₁ ++ C₂ := by
  obtain ⟨f, hf, hfb⟩ := Module.bodyOf_eq_some.mp hb
  constructor
  · intro h
    cases h with
    | call hf' hb' h₁ h₂ =>
      obtain rfl := Option.some_injective _ (hf.symm.trans hf')
      obtain rfl := Option.some_injective _ (hfb.symm.trans hb')
      exact ⟨_, _, _, h₁, h₂, rfl⟩
    | declared hf' hb' _ =>
      obtain rfl := Option.some_injective _ (hf.symm.trans hf')
      rw [hfb] at hb'
      nomatch hb'
  · rintro ⟨loc, C₁, C₂, h₁, h₂, rfl⟩
    exact .call hf hfb h₁ h₂

theorem call_iff_of_none {n : Ident} (hb : M.bodyOf n = none) {args : List Arg}
    {is : List Instr} {C : List (GateCall ι)} :
    Expands M ρ (.call n args :: is) C ↔ (M.getFunction n).isSome ∧ Expands M ρ is C := by
  constructor
  · intro h
    cases h with
    | call hf hb' _ _ =>
      rw [Module.bodyOf_eq_some.mpr ⟨_, hf, hb'⟩] at hb
      nomatch hb
    | declared hf _ h => exact ⟨by rw [hf]; rfl, h⟩
  · rintro ⟨hn, h⟩
    obtain ⟨f, hf⟩ := Option.isSome_iff_exists.mp hn
    rw [Module.bodyOf, hf] at hb
    exact .declared hf hb h

theorem append_iff {is js : List Instr} {C : List (GateCall ι)} :
    Expands M ρ (is ++ js) C ↔
      ∃ C₁ C₂, Expands M ρ is C₁ ∧ Expands M ρ js C₂ ∧ C = C₁ ++ C₂ := by
  induction is generalizing C with
  | nil => simp
  | cons i is ih =>
    cases i with
    | alloca ty size => simp only [List.cons_append, alloca_iff, ih]
    | gate g =>
      simp only [List.cons_append, gate_iff, ih]
      constructor
      · rintro ⟨_, ⟨C₁, C₂, h₁, h₂, rfl⟩, rfl⟩
        exact ⟨_, C₂, ⟨C₁, h₁, rfl⟩, h₂, rfl⟩
      · rintro ⟨_, C₂, ⟨C₁, h₁, rfl⟩, h₂, rfl⟩
        exact ⟨_, ⟨C₁, C₂, h₁, h₂, rfl⟩, rfl⟩
    | call n args =>
      cases hb : M.bodyOf n with
      | none =>
        simp only [List.cons_append, call_iff_of_none hb, ih]
        constructor
        · rintro ⟨hn, C₁, C₂, h₁, h₂, rfl⟩
          exact ⟨C₁, C₂, ⟨hn, h₁⟩, h₂, rfl⟩
        · rintro ⟨C₁, C₂, ⟨hn, h₁⟩, h₂, rfl⟩
          exact ⟨hn, C₁, C₂, h₁, h₂, rfl⟩
      | some b =>
        simp only [List.cons_append, call_iff_of_body hb, ih]
        constructor
        · rintro ⟨loc, D, _, hD, ⟨C₁, C₂, h₁, h₂, rfl⟩, rfl⟩
          exact ⟨_, C₂, ⟨loc, D, C₁, hD, h₁, rfl⟩, h₂, (List.append_assoc D C₁ C₂).symm⟩
        · rintro ⟨_, C₂, ⟨loc, D, C₁, hD, h₁, rfl⟩, h₂, rfl⟩
          exact ⟨loc, D, _, hD, ⟨C₁, C₂, h₁, h₂, rfl⟩, List.append_assoc D C₁ C₂⟩

end Expands

end ScaffCC
