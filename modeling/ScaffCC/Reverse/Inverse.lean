import Mathlib.Order.Filter.AtTopBot.Basic
import ScaffCC.IR.Module

/-!
# Inverse functions

`GetOrCreateInverseFunction` turns a function into its inverse: a clone whose calls stand in the
opposite order, each directed to the inverse of its callee. The inverse of an intrinsic is read off
a table, the inverse of a defined function is made on demand, and a function already standing under
the name of an inverse is taken for it.

## What the recursion leaves behind

The names of the inverses are determined by the names of the functions, so the finished clone is
`inverseBody` of the original body. `Inverted` says that a function and its inverse stand in the
module in this way and that the inverses the clone calls stand there too, and `Settled` says it of
every inverse of some functions that stands in the module, but for the functions still under
construction.
-/

namespace ScaffCC.FunctionReverse

open Filter GateCall

/-! ## The model -/

/-- The entry of an intrinsic in the table of inverses. Arguments are carried over as they are. -/
def inverseGate {ι : Type*} : GateCall ι → GateCall ι
  | gate1 .S q => gate1 .Sdag q
  | gate1 .Sdag q => gate1 .S q
  | gate1 .T q => gate1 .Tdag q
  | gate1 .Tdag q => gate1 .T q
  | g => g

/-- The one function of the runtime in the table of inverses, as the inverse of itself. -/
def storeCbit : Ident := "store_cbit".toList

def reverseFuncName (n : Ident) : Ident := n ++ "_Reverse".toList

/-- Calls are turned round, everything else stays in front. -/
def isCall : Instr → Bool
  | .alloca _ _ => false
  | .gate _ => true
  | .call _ _ => true

/-- The call with its callee replaced by the callee's inverse, which `inv` finds or makes. -/
def invertCall (inv : Module → Ident → Option (Module × Ident)) (M : Module) :
    Instr → Option (Module × Instr)
  | .alloca ty size => some (M, .alloca ty size)
  | .gate g => some (M, .gate (inverseGate g))
  | .call n args => (inv M n).map fun r ↦ (r.1, .call r.2 args)

def invertCalls (inv : Module → Ident → Option (Module × Ident)) (M : Module) :
    List Instr → Option (Module × List Instr)
  | [] => some (M, [])
  | i :: is =>
    (invertCall inv M i).bind fun v ↦ (invertCalls inv v.1 is).map fun w ↦ (w.1, v.2 :: w.2)

/-- The inverse of the function `n`, with the module it stands in. There is none when `n` is only
declared: its clone has no block to take the calls from. -/
def getOrCreateInverseFunction : ℕ → Module → Ident → Option (Module × Ident)
  | 0, _, _ => none
  | fuel + 1, M, n =>
    if n = storeCbit then some (M, n)
    else if (M.getFunction (reverseFuncName n)).isSome then some (M, reverseFuncName n)
    else (M.bodyOf n).bind fun b ↦
      (invertCalls (getOrCreateInverseFunction fuel) (M ++ [⟨reverseFuncName n, some b⟩])
        (b.filter isCall).reverse).map fun r ↦
          (r.1.setBody (reverseFuncName n) (b.filter (!isCall ·) ++ r.2), reverseFuncName n)

/-! ## The finished clone -/

/-- The name the inverse of `n` is found under. -/
def inverseName (n : Ident) : Ident := if n = storeCbit then n else reverseFuncName n

def inverseInstr : Instr → Instr
  | .alloca ty size => .alloca ty size
  | .gate g => .gate (inverseGate g)
  | .call n args => .call (inverseName n) args

def inverseBody (b : List Instr) : List Instr :=
  b.filter (!isCall ·) ++ (b.filter isCall).reverse.map inverseInstr

@[simp] theorem inverseBody_nil : inverseBody [] = [] := rfl

@[simp] theorem inverseBody_alloca (ty : QTy) (size : ℕ) (b : List Instr) :
    inverseBody (.alloca ty size :: b) = .alloca ty size :: inverseBody b := by
  simp [inverseBody, isCall]

@[simp] theorem inverseBody_gate (g : GateCall Operand) (b : List Instr) :
    inverseBody (.gate g :: b) = inverseBody b ++ [.gate (inverseGate g)] := by
  rw [inverseBody, List.filter_cons_of_neg (by simp [isCall]), List.filter_cons_of_pos rfl]
  simp [inverseBody, inverseInstr]

@[simp] theorem inverseBody_call (n : Ident) (args : List Arg) (b : List Instr) :
    inverseBody (.call n args :: b) = inverseBody b ++ [.call (inverseName n) args] := by
  rw [inverseBody, List.filter_cons_of_neg (by simp [isCall]), List.filter_cons_of_pos rfl]
  simp [inverseBody, inverseInstr]

theorem call_mem_inverseBody {n : Ident} {args : List Arg} {b : List Instr} :
    Instr.call n args ∈ inverseBody b ↔ ∃ m, Instr.call m args ∈ b ∧ n = inverseName m := by
  induction b with
  | nil => simp
  | cons i b ih =>
    cases i with
    | alloca ty size => simp [ih]
    | gate g => simp [ih]
    | call m args' =>
      rw [inverseBody_call, List.mem_append, ih, List.mem_singleton, Instr.call.injEq]
      constructor
      · rintro (⟨m', hm', rfl⟩ | ⟨rfl, rfl⟩)
        · exact ⟨m', List.mem_cons_of_mem _ hm', rfl⟩
        · exact ⟨m, List.mem_cons_self, rfl⟩
      · rintro ⟨m', hm', rfl⟩
        rcases List.mem_cons.mp hm' with h | h
        · obtain ⟨rfl, rfl⟩ := Instr.call.inj h
          exact .inr ⟨rfl, rfl⟩
        · exact .inl ⟨m', h, rfl⟩

theorem reverseFuncName_injective : Function.Injective reverseFuncName :=
  fun _ _ h ↦ List.append_cancel_right h

theorem inverseName_of_ne {n : Ident} (h : n ≠ storeCbit) : inverseName n = reverseFuncName n :=
  if_neg h

theorem reverseFuncName_ne_storeCbit (n : Ident) : reverseFuncName n ≠ storeCbit := by
  intro h
  have hlast := congrArg List.getLast? h
  rw [reverseFuncName, List.getLast?_append,
    show "_Reverse".toList.getLast? = some 'e' by decide, Option.some_or] at hlast
  exact absurd hlast (by decide)

/-! ## Inverses in place -/

/-- The inverse of `n` stands in the module as it is made, and so do the inverses it calls. -/
def Inverted (M : Module) (n : Ident) : Prop :=
  ∃ b, M.bodyOf n = some b ∧ M.bodyOf (reverseFuncName n) = some (inverseBody b) ∧
    ∀ c args, Instr.call c args ∈ b → c ≠ storeCbit → (M.getFunction (reverseFuncName c)).isSome

/-- What stands under the name of the inverse of a function of `A` is that inverse, those of the
functions in `P`, which are under construction, excepted. -/
def Settled (A : Set Ident) (M : Module) (P : List Ident) : Prop :=
  ∀ n ∈ A, n ∉ P → (M.getFunction (reverseFuncName n)).isSome → Inverted M n

theorem Settled.mono {A B : Set Ident} {M : Module} {P : List Ident} (h : A ⊆ B)
    (hB : Settled B M P) : Settled A M P :=
  fun n hn ↦ hB n (h hn)

theorem Inverted.mono {M N : Module} (h : M.Keeps N) {n : Ident} (hn : Inverted M n) :
    Inverted N n := by
  obtain ⟨b, hb, hb', hcalls⟩ := hn
  exact ⟨b, h.bodyOf hb, h.bodyOf hb', fun c args hc hne ↦ h.isSome (hcalls c args hc hne)⟩

/-! ## The recursion -/

theorem getOrCreateInverseFunction_cases {fuel : ℕ} {M M' : Module} {n r : Ident}
    (h : getOrCreateInverseFunction fuel M n = some (M', r)) :
    n = storeCbit ∧ M' = M ∧ r = n ∨
    n ≠ storeCbit ∧ (M.getFunction (reverseFuncName n)).isSome ∧ M' = M ∧ r = reverseFuncName n ∨
    ∃ fuel' b M₂ js, fuel = fuel' + 1 ∧ n ≠ storeCbit ∧
      M.getFunction (reverseFuncName n) = none ∧ M.bodyOf n = some b ∧
      invertCalls (getOrCreateInverseFunction fuel') (M ++ [⟨reverseFuncName n, some b⟩])
        (b.filter isCall).reverse = some (M₂, js) ∧
      M' = M₂.setBody (reverseFuncName n) (b.filter (!isCall ·) ++ js) ∧
      r = reverseFuncName n := by
  cases fuel with
  | zero => nomatch h
  | succ fuel =>
    rw [getOrCreateInverseFunction] at h
    split_ifs at h with hstore hsome
    · obtain ⟨rfl, rfl⟩ := Prod.mk.inj (Option.some.inj h)
      exact .inl ⟨hstore, rfl, rfl⟩
    · obtain ⟨rfl, rfl⟩ := Prod.mk.inj (Option.some.inj h)
      exact .inr (.inl ⟨hstore, hsome, rfl, rfl⟩)
    · obtain ⟨b, hb, h⟩ := Option.bind_eq_some_iff.mp h
      obtain ⟨⟨M₂, js⟩, hcalls, h⟩ := Option.map_eq_some_iff.mp h
      obtain ⟨rfl, rfl⟩ := Prod.mk.inj h
      exact .inr (.inr ⟨fuel, b, M₂, js, rfl, hstore, Option.not_isSome_iff_eq_none.mp hsome, hb,
        hcalls, rfl, rfl⟩)

/-- The state in which the inverse of a function of `A` can be asked for, while those of the
functions in `P` are under construction. The functions of `A` only call functions of `A`, so the
recursion never asks for the inverse of a clone it has not finished. -/
structure Ready (A : Set Ident) (P : List Ident) (M : Module) : Prop where
  known : ∀ n ∈ A, n ≠ storeCbit → (M.getFunction n).isSome
  closed : ∀ n ∈ A, ∀ b, M.bodyOf n = some b → ∀ c args, Instr.call c args ∈ b → c ∈ A
  settled : Settled A M P
  pending : ∀ p ∈ P, p ∈ A ∧ reverseFuncName p ∉ A

/-- What asking for inverses leaves: the old functions, under other names than those of inverses of
the functions of `A` no new ones, and a state ready for more. -/
structure Delivered (A : Set Ident) (P : List Ident) (M M' : Module) : Prop where
  keeps : M.Keeps M'
  others : ∀ m, (∀ k ∈ A, m ≠ reverseFuncName k) → M'.getFunction m = M.getFunction m
  names : M.map Function.name <+: M'.map Function.name
  ready : Ready A P M'

theorem Delivered.refl {A : Set Ident} {P : List Ident} {M : Module} (h : Ready A P M) :
    Delivered A P M M := ⟨.refl M, fun _ _ ↦ rfl, List.prefix_rfl, h⟩

theorem Delivered.trans {A : Set Ident} {P : List Ident} {M N L : Module} (h : Delivered A P M N)
    (h' : Delivered A P N L) : Delivered A P M L :=
  ⟨h.keeps.trans h'.keeps, fun m hm ↦ (h'.others m hm).trans (h.others m hm),
    h.names.trans h'.names, h'.ready⟩

/-- `inv` finds or makes the inverses of the functions of `A`. -/
def Inverts (A : Set Ident) (P : List Ident)
    (inv : Module → Ident → Option (Module × Ident)) : Prop :=
  ∀ ⦃M n M' r⦄, Ready A P M → n ∈ A → inv M n = some (M', r) → r = inverseName n ∧
    Delivered A P M M' ∧ (n ≠ storeCbit → (M'.getFunction (reverseFuncName n)).isSome)

theorem invertCall_spec {A : Set Ident} {P : List Ident}
    {inv : Module → Ident → Option (Module × Ident)} (hinv : Inverts A P inv) {M M' : Module}
    {i j : Instr} (hM : Ready A P M) (hA : ∀ c args, i = .call c args → c ∈ A)
    (h : invertCall inv M i = some (M', j)) :
    j = inverseInstr i ∧ Delivered A P M M' ∧ ∀ c args, i = .call c args → c ≠ storeCbit →
      (M'.getFunction (reverseFuncName c)).isSome := by
  cases i with
  | alloca ty size =>
    obtain ⟨rfl, rfl⟩ := Prod.mk.inj (Option.some.inj h)
    exact ⟨rfl, .refl hM, fun _ _ hi ↦ nomatch hi⟩
  | gate g =>
    obtain ⟨rfl, rfl⟩ := Prod.mk.inj (Option.some.inj h)
    exact ⟨rfl, .refl hM, fun _ _ hi ↦ nomatch hi⟩
  | call n args =>
    obtain ⟨⟨M₁, r⟩, hr, h⟩ := Option.map_eq_some_iff.mp h
    obtain ⟨rfl, rfl⟩ := Prod.mk.inj h
    obtain ⟨rfl, hd, hsome⟩ := hinv hM (hA n args rfl) hr
    refine ⟨rfl, hd, fun c args' hi hc ↦ ?_⟩
    obtain ⟨rfl, -⟩ := Instr.call.inj hi
    exact hsome hc

theorem invertCalls_spec {A : Set Ident} {P : List Ident}
    {inv : Module → Ident → Option (Module × Ident)} (hinv : Inverts A P inv) {is js : List Instr}
    {M M' : Module} (hM : Ready A P M) (hA : ∀ c args, Instr.call c args ∈ is → c ∈ A)
    (h : invertCalls inv M is = some (M', js)) :
    js = is.map inverseInstr ∧ Delivered A P M M' ∧ ∀ c args, Instr.call c args ∈ is →
      c ≠ storeCbit → (M'.getFunction (reverseFuncName c)).isSome := by
  induction is generalizing M js with
  | nil =>
    obtain ⟨rfl, rfl⟩ := Prod.mk.inj (Option.some.inj h)
    exact ⟨rfl, .refl hM, fun _ _ hc ↦ absurd hc List.not_mem_nil⟩
  | cons i is ih =>
    obtain ⟨⟨M₁, j⟩, hi, h⟩ := Option.bind_eq_some_iff.mp h
    obtain ⟨⟨M₂, ks⟩, his, h⟩ := Option.map_eq_some_iff.mp h
    obtain ⟨rfl, rfl⟩ := Prod.mk.inj h
    obtain ⟨rfl, hd, hhead⟩ := invertCall_spec hinv hM
      (fun c args hi ↦ hA c args (hi ▸ List.mem_cons_self)) hi
    obtain ⟨rfl, hd', htail⟩ :=
      ih hd.ready (fun c args hc ↦ hA c args (List.mem_cons_of_mem i hc)) his
    refine ⟨rfl, hd.trans hd', fun c args hc hne ↦ ?_⟩
    rcases List.mem_cons.mp hc with rfl | hc
    · exact hd'.keeps.isSome (hhead c args rfl hne)
    · exact htail c args hc hne

section Create

variable {A : Set Ident} {P : List Ident} {M : Module} {n : Ident} {b : List Instr}

/-- With the clone appended, its function joins those under construction. -/
theorem Ready.clone (hM : Ready A P M) (hn : n ∈ A)
    (hnone : M.getFunction (reverseFuncName n) = none) :
    Ready A (n :: P) (M ++ [⟨reverseFuncName n, some b⟩]) := by
  have hrev : reverseFuncName n ∉ A := fun hA ↦ by
    have := hM.known _ hA (reverseFuncName_ne_storeCbit n)
    rw [hnone] at this
    contradiction
  have hkeeps := Module.keeps_append M [⟨reverseFuncName n, some b⟩]
  have hne : ∀ m, m ≠ reverseFuncName n →
      Module.getFunction (M ++ [⟨reverseFuncName n, some b⟩]) m = M.getFunction m :=
    fun m hm ↦ Module.getFunction_append_singleton_of_ne (f := ⟨reverseFuncName n, some b⟩) hm
  refine ⟨fun m hm hs ↦ hkeeps.isSome (hM.known m hm hs), fun m hm b' hb' ↦ ?_,
    fun m hm hmP hs ↦ ?_, List.forall_mem_cons.mpr ⟨⟨hn, hrev⟩, hM.pending⟩⟩
  · rw [Module.bodyOf, hne m fun heq ↦ hrev (heq ▸ hm)] at hb'
    exact hM.closed m hm b' hb'
  · obtain ⟨hmn, hmP⟩ := not_or.mp (List.mem_cons.not.mp hmP)
    rw [hne _ fun heq ↦ hmn (reverseFuncName_injective heq)] at hs
    exact (hM.settled m hm hmP hs).mono hkeeps

/-- With its body in place, the clone is the inverse. -/
theorem Ready.finish {M₂ : Module} (hM₂ : Ready A (n :: P) M₂) (hb : M₂.bodyOf n = some b)
    (hrev : (M₂.getFunction (reverseFuncName n)).isSome)
    (hcalls : ∀ c args, Instr.call c args ∈ b → c ≠ storeCbit →
      (M₂.getFunction (reverseFuncName c)).isSome) :
    Ready A P (M₂.setBody (reverseFuncName n) (inverseBody b)) := by
  obtain ⟨hn, hrevA⟩ := hM₂.pending n List.mem_cons_self
  have hne : ∀ m ∈ A, m ≠ reverseFuncName n := fun m hm heq ↦ hrevA (heq ▸ hm)
  refine ⟨fun m hm hs ↦ ?_, fun m hm b' hb' ↦ ?_, fun m hm hmP hs ↦ ?_,
    fun p hp ↦ hM₂.pending p (List.mem_cons_of_mem n hp)⟩
  · rw [Module.isSome_getFunction_setBody]
    exact hM₂.known m hm hs
  · rw [Module.bodyOf_setBody_of_ne (hne m hm)] at hb'
    exact hM₂.closed m hm b' hb'
  · rw [Module.isSome_getFunction_setBody] at hs
    by_cases hmn : m = n
    · subst hmn
      refine ⟨b, ?_, Module.bodyOf_setBody_self hrev _, fun c args hc hcs ↦ ?_⟩
      · rw [Module.bodyOf_setBody_of_ne (hne m hn), hb]
      · rw [Module.isSome_getFunction_setBody]
        exact hcalls c args hc hcs
    · obtain ⟨b', hb', hrb', hc'⟩ :=
        hM₂.settled m hm (List.not_mem_cons_of_ne_of_not_mem hmn hmP) hs
      refine ⟨b', ?_, ?_, fun c args hc hcs ↦ ?_⟩
      · rw [Module.bodyOf_setBody_of_ne (hne m hm), hb']
      · rw [Module.bodyOf_setBody_of_ne fun heq ↦ hmn (reverseFuncName_injective heq), hrb']
      · rw [Module.isSome_getFunction_setBody]
        exact hc' c args hc hcs

end Create

/-- **What a creation leaves.** It goes by the name of the inverse and keeps all functions. -/
theorem inverts_getOrCreateInverseFunction (A : Set Ident) (P : List Ident) (fuel : ℕ) :
    Inverts A P (getOrCreateInverseFunction fuel) := by
  induction fuel generalizing P with
  | zero => exact fun _ _ _ _ _ _ h ↦ nomatch h
  | succ fuel ih =>
    intro M n M' r hM hn h
    obtain ⟨rfl, rfl, rfl⟩ | ⟨hs, hsome, rfl, rfl⟩ |
      ⟨fuel', b, M₂, js, hfuel, hs, hnone, hb, hcalls, rfl, rfl⟩ :=
        getOrCreateInverseFunction_cases h
    · exact ⟨rfl, .refl hM, fun hne ↦ absurd rfl hne⟩
    · exact ⟨(inverseName_of_ne hs).symm, .refl hM, fun _ ↦ hsome⟩
    · obtain rfl : fuel = fuel' := Nat.succ_injective hfuel
      have hkeeps := Module.keeps_append M [⟨reverseFuncName n, some b⟩]
      have hmem : ∀ c args, Instr.call c args ∈ b → Instr.call c args ∈ (b.filter isCall).reverse :=
        fun c args hc ↦ List.mem_reverse.mpr (List.mem_filter.mpr ⟨hc, rfl⟩)
      obtain ⟨rfl, hd, hinv⟩ := invertCalls_spec (ih (n :: P)) (hM.clone (b := b) hn hnone)
        (fun c args hc ↦ hM.closed n hn b hb c args
          (List.mem_filter.mp (List.mem_reverse.mp hc)).1) hcalls
      have hrev : (M₂.getFunction (reverseFuncName n)).isSome := by
        refine hd.keeps.isSome ?_
        rw [Module.getFunction_append_singleton_self (f := ⟨reverseFuncName n, some b⟩) hnone]
        rfl
      refine ⟨(inverseName_of_ne hs).symm, ⟨fun m f hf ↦ ?_, fun m hm ↦ ?_, ?_, ?_⟩, fun _ ↦ ?_⟩
      · rw [Module.getFunction_setBody_of_ne fun heq ↦ by rw [← heq, hf] at hnone; nomatch hnone]
        exact hd.keeps (hkeeps hf)
      · rw [Module.getFunction_setBody_of_ne (hm n hn), hd.others m hm]
        exact Module.getFunction_append_singleton_of_ne (f := ⟨reverseFuncName n, some b⟩)
          (hm n hn)
      · rw [Module.map_name_setBody]
        refine List.IsPrefix.trans ?_ hd.names
        rw [List.map_append]
        exact List.prefix_append _ _
      · exact hd.ready.finish (hd.keeps.bodyOf (hkeeps.bodyOf hb)) hrev
          fun c args hc hcs ↦ hinv c args (hmem c args hc) hcs
      · rw [Module.isSome_getFunction_setBody]
        exact hrev

/-! ## Functions that can be inverted -/

/-- The recursion below `n` ends, and meets no function without a body but the one in the table. -/
inductive Invertible (M : Module) : Ident → Prop
  | store : Invertible M storeCbit
  | body {n : Ident} {b : List Instr} : M.bodyOf n = some b →
      (∀ c args, Instr.call c args ∈ b → Invertible M c) → Invertible M n

theorem Invertible.mono {M N : Module} (h : M.Keeps N) {n : Ident} (hn : Invertible M n) :
    Invertible N n := by
  induction hn with
  | store => exact .store
  | body hb _ ih => exact .body (h.bodyOf hb) ih

/-- The functions that `n` reaches through calls, itself included. -/
def reached (M : Module) (n : Ident) : Set Ident :=
  {m | Relation.ReflTransGen (fun f g ↦ ∃ b args, M.bodyOf f = some b ∧ Instr.call g args ∈ b) n m}

theorem mem_reached_self (M : Module) (n : Ident) : n ∈ reached M n := .refl

theorem reached_subset_of_call {M : Module} {n c : Ident} {b : List Instr} {args : List Arg}
    (hb : M.bodyOf n = some b) (hc : Instr.call c args ∈ b) : reached M c ⊆ reached M n :=
  fun _ hm ↦ .head ⟨b, args, hb, hc⟩ hm

theorem Ready.reached_subset {A : Set Ident} {P : List Ident} {M : Module} (h : Ready A P M)
    {n : Ident} (hn : n ∈ A) : reached M n ⊆ A := by
  intro m hm
  induction hm with
  | refl => exact hn
  | tail _ hcall ih =>
    obtain ⟨b, args, hb, hmem⟩ := hcall
    exact h.closed _ ih b hb _ args hmem

theorem Invertible.of_mem_reached {M : Module} (hstore : M.bodyOf storeCbit = none) {n m : Ident}
    (hn : Invertible M n) (hm : m ∈ reached M n) : Invertible M m := by
  induction hm with
  | refl => exact hn
  | tail _ hcall ih =>
    obtain ⟨b, args, hb, hmem⟩ := hcall
    cases ih with
    | store =>
      rw [hstore] at hb
      contradiction
    | body hb' hcalls =>
      obtain rfl := Option.some_injective _ (hb.symm.trans hb')
      exact hcalls _ args hmem

theorem ready_reached {M : Module} {n : Ident} (h : Settled (reached M n) M [])
    (hstore : M.bodyOf storeCbit = none) (hn : Invertible M n) : Ready (reached M n) [] M := by
  refine ⟨fun m hm hs ↦ ?_, fun m hm b hb c args hc ↦ hm.tail ⟨b, args, hb, hc⟩, h,
    fun _ hp ↦ absurd hp List.not_mem_nil⟩
  cases hn.of_mem_reached hstore hm with
  | store => exact absurd rfl hs
  | body hb _ => exact Module.isSome_of_bodyOf hb

theorem exists_invertCalls {A : Set Ident} {P : List Ident} {N : Module} {is : List Instr}
    (his : ∀ c args, Instr.call c args ∈ is → c ∈ A ∧ ∀ ⦃M⦄, Ready A P M → N.Keeps M →
      ∃ M' r, ∀ᶠ fuel in atTop, getOrCreateInverseFunction fuel M c = some (M', r))
    {M : Module} (hM : Ready A P M) (hk : N.Keeps M) :
    ∃ M' js, ∀ᶠ fuel in atTop,
      invertCalls (getOrCreateInverseFunction fuel) M is = some (M', js) := by
  induction is generalizing M with
  | nil => exact ⟨M, [], .of_forall fun _ ↦ rfl⟩
  | cons i is ih =>
    have hhead : ∃ M₁ j, Delivered A P M M₁ ∧ ∀ᶠ fuel in atTop,
        invertCall (getOrCreateInverseFunction fuel) M i = some (M₁, j) := by
      cases i with
      | alloca ty size => exact ⟨M, _, .refl hM, .of_forall fun _ ↦ rfl⟩
      | gate g => exact ⟨M, _, .refl hM, .of_forall fun _ ↦ rfl⟩
      | call c args =>
        obtain ⟨hc, hex⟩ := his c args List.mem_cons_self
        obtain ⟨M₁, r, hr⟩ := hex hM hk
        obtain ⟨fuel, hfuel⟩ := hr.exists
        refine ⟨M₁, .call r args,
          (inverts_getOrCreateInverseFunction A P fuel hM hc hfuel).2.1, ?_⟩
        filter_upwards [hr] with fuel hfuel
        rw [invertCall, hfuel, Option.map_some]
    obtain ⟨M₁, j, hd, hj⟩ := hhead
    obtain ⟨M₂, js, hjs⟩ := ih (fun c args hc ↦ his c args (List.mem_cons_of_mem i hc)) hd.ready
      (hk.trans hd.keeps)
    refine ⟨M₂, j :: js, ?_⟩
    filter_upwards [hj, hjs] with fuel hj hjs
    rw [invertCalls, hj, Option.bind_some, hjs, Option.map_some]

private theorem eventually_of_succ {p : ℕ → Prop} (h : ∀ᶠ k in atTop, p (k + 1)) :
    ∀ᶠ k in atTop, p k := by
  rw [← map_add_atTop_eq_nat 1]
  exact h

/-- **Invertible functions are inverted.** -/
theorem exists_getOrCreateInverseFunction {A : Set Ident} {N : Module} {n : Ident}
    (hinv : Invertible N n) {P : List Ident} (hn : n ∈ A) {M : Module} (hM : Ready A P M)
    (hk : N.Keeps M) :
    ∃ M' r, ∀ᶠ fuel in atTop, getOrCreateInverseFunction fuel M n = some (M', r) := by
  induction hinv generalizing P M with
  | store =>
    refine ⟨M, storeCbit, eventually_of_succ (.of_forall fun fuel ↦ ?_)⟩
    rw [getOrCreateInverseFunction, if_pos rfl]
  | @body n b hb _ ih =>
    by_cases hs : n = storeCbit
    · refine ⟨M, n, eventually_of_succ (.of_forall fun fuel ↦ ?_)⟩
      rw [getOrCreateInverseFunction, if_pos hs]
    by_cases hsome : (M.getFunction (reverseFuncName n)).isSome
    · refine ⟨M, reverseFuncName n, eventually_of_succ (.of_forall fun fuel ↦ ?_)⟩
      rw [getOrCreateInverseFunction, if_neg hs, if_pos hsome]
    have hclone := hM.clone (b := b) hn (Option.not_isSome_iff_eq_none.mp hsome)
    have hcallees : ∀ c args, Instr.call c args ∈ (b.filter isCall).reverse → c ∈ A ∧
        ∀ ⦃M'⦄, Ready A (n :: P) M' → N.Keeps M' →
          ∃ M'' r, ∀ᶠ fuel in atTop, getOrCreateInverseFunction fuel M' c = some (M'', r) := by
      intro c args hc
      have hmem := (List.mem_filter.mp (List.mem_reverse.mp hc)).1
      have hcA := hM.closed n hn b (hk.bodyOf hb) c args hmem
      exact ⟨hcA, fun M' hM' hk' ↦ ih c args hmem hcA hM' hk'⟩
    obtain ⟨M₂, js, hjs⟩ :=
      exists_invertCalls hcallees hclone (hk.trans (Module.keeps_append M _))
    refine ⟨M₂.setBody (reverseFuncName n) (b.filter (!isCall ·) ++ js), reverseFuncName n,
      eventually_of_succ ?_⟩
    filter_upwards [hjs] with fuel hfuel
    rw [getOrCreateInverseFunction, if_neg hs, if_neg hsome, hk.bodyOf hb, Option.bind_some,
      hfuel, Option.map_some]

end ScaffCC.FunctionReverse
