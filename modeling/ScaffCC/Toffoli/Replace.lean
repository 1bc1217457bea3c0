import ScaffCC.IR.Module
import ScaffCC.Toffoli.Impl

/-!
# Replacing Toffoli gates

The pass visits every call of the module. A call of the Toffoli intrinsic becomes a call of an
implementation function named after the types of its operands, which is appended to the module the
first time it is needed. The functions appended are visited as well, after the others.

## What the visit preserves

`Replaced M` relates a body to the body the visit leaves: call by call, either the same instruction,
or a Toffoli gate against a call of the implementation that `M` has for its operand types. The
relation survives appending functions, and `Visited` says it of every function of the module the
pass started from. An expansion is then carried over call by call, with `circuit_implGates` at each
replaced gate.
-/

namespace ScaffCC.ToffoliReplace

open Quantum GateCall

/-! ## The pass -/

/-- The letter of the implementation's name for an operand type. -/
def implSuffix : QTy → Ident
  | .qbit => "_Q".toList
  | .abit => "_A".toList

/-- The name of the implementation for the given operand types. -/
def implName (a b c : QTy) : Ident :=
  "ToffoliImpl".toList ++ implSuffix a ++ implSuffix b ++ implSuffix c

/-- The implementation for the given operand types, its parameters named as in the source. -/
def toffoliImpl (a b c : QTy) : Function :=
  let control1 : Operand := ⟨a, .param 0, 0⟩
  let control2 : Operand := ⟨b, .param 1, 0⟩
  let target : Operand := ⟨c, .param 2, 0⟩
  { name := implName a b c
    body := some ((implGates control1 control2 target).map .gate) }

/-- The visit of one instruction: the module, possibly with an implementation appended, and the
instruction left in its place. -/
def visitCallInst (M : Module) : Instr → Module × Instr
  | .gate (.Toffoli c₁ c₂ t) =>
    (if (M.getFunction (implName c₁.ty c₂.ty t.ty)).isSome then M
      else M ++ [toffoliImpl c₁.ty c₂.ty t.ty],
     .call (implName c₁.ty c₂.ty t.ty) [.qubit c₁, .qubit c₂, .qubit t])
  | i => (M, i)

/-- The visit of a body, first instruction first. -/
def visitBody (M : Module) : List Instr → Module × List Instr
  | [] => (M, [])
  | i :: is =>
    let v := visitCallInst M i
    let w := visitBody v.1 is
    (w.1, v.2 :: w.2)

def visitFunction (M : Module) (n : Ident) : Module :=
  match (M.getFunction n).bind Function.body with
  | none => M
  | some b =>
    let v := visitBody M b
    v.1.setBody n v.2

/-- The functions `M` starts with are visited in order, then the ones appended meanwhile. -/
def runOnModule (M : Module) : Module :=
  let M₁ := (M.map Function.name).foldl visitFunction M
  ((M₁.drop M.length).map Function.name).foldl visitFunction M₁

/-! ## The relation between a body and the visited body -/

/-- An instruction against the one the visit leaves, in a module with the implementations. -/
inductive ReplacedInstr (M : Module) : Instr → Instr → Prop
  | same (i : Instr) : ReplacedInstr M i i
  | toffoli {c₁ c₂ t : Operand} :
      M.getFunction (implName c₁.ty c₂.ty t.ty) = some (toffoliImpl c₁.ty c₂.ty t.ty) →
      ReplacedInstr M (.gate (.Toffoli c₁ c₂ t))
        (.call (implName c₁.ty c₂.ty t.ty) [.qubit c₁, .qubit c₂, .qubit t])

/-- A body against the visited body. -/
abbrev Replaced (M : Module) : List Instr → List Instr → Prop := List.Forall₂ (ReplacedInstr M)

/-- Every function keeps its place and its name, and its body is visited or not. -/
def Visited (M M' : Module) : Prop :=
  ∀ ⦃n f⦄, M.getFunction n = some f →
    ∃ f', M'.getFunction n = some f' ∧ Option.Rel (Replaced M') f.body f'.body

/-- Every function under the name of an implementation is that implementation. -/
def ImplsOnly (M : Module) : Prop :=
  ∀ ⦃a b c f⦄, M.getFunction (implName a b c) = some f → f = toffoliImpl a b c

def KeepsImpls (M M' : Module) : Prop :=
  ∀ ⦃a b c⦄, M.getFunction (implName a b c) = some (toffoliImpl a b c) →
    M'.getFunction (implName a b c) = some (toffoliImpl a b c)

/-- A module extended by implementations only. -/
def Extended (M M' : Module) : Prop :=
  (∀ ⦃n f⦄, M.getFunction n = some f → M'.getFunction n = some f) ∧
    ∀ ⦃n f⦄, M'.getFunction n = some f → M.getFunction n = some f ∨ ∃ a b c, f = toffoliImpl a b c

theorem Extended.refl (M : Module) : Extended M M := ⟨fun _ _ h ↦ h, fun _ _ h ↦ .inl h⟩

theorem Extended.trans {M M' M'' : Module} (h : Extended M M') (h' : Extended M' M'') :
    Extended M M'' :=
  ⟨fun _ _ hf ↦ h'.1 (h.1 hf), fun _ _ hf ↦ (h'.2 hf).elim (fun hf' ↦ h.2 hf') .inr⟩

theorem Extended.keepsImpls {M M' : Module} (h : Extended M M') : KeepsImpls M M' :=
  fun _ _ _ hf ↦ h.1 hf

theorem extended_append_toffoliImpl (M : Module) (a b c : QTy) :
    Extended M (M ++ [toffoliImpl a b c]) := by
  refine ⟨fun n f h ↦ ?_, fun n f h ↦ ?_⟩
  · rw [Module.getFunction_append_of_isSome (by rw [h]; rfl), h]
  · rw [Module.getFunction_append, Option.or_eq_some_iff] at h
    refine h.imp_right fun h' ↦ ⟨a, b, c, ?_⟩
    simpa using Module.mem_of_getFunction h'.2

theorem ReplacedInstr.mono {M M' : Module} (h : KeepsImpls M M') {i j : Instr}
    (hij : ReplacedInstr M i j) : ReplacedInstr M' i j := by
  cases hij with
  | same => exact .same i
  | toffoli himpl => exact .toffoli (h himpl)

theorem ReplacedInstr.trans {M : Module} {i j k : Instr} (hij : ReplacedInstr M i j)
    (hjk : ReplacedInstr M j k) : ReplacedInstr M i k := by
  cases hij with
  | same => exact hjk
  | toffoli himpl =>
    cases hjk
    exact .toffoli himpl

theorem Replaced.mono {M M' : Module} (h : KeepsImpls M M') {is js : List Instr}
    (hij : Replaced M is js) : Replaced M' is js := hij.imp fun _ _ ↦ ReplacedInstr.mono h

theorem Replaced.refl (M : Module) (is : List Instr) : Replaced M is is :=
  List.forall₂_same.mpr fun i _ ↦ .same i

theorem Replaced.trans {M : Module} {is js ks : List Instr} (hij : Replaced M is js)
    (hjk : Replaced M js ks) : Replaced M is ks := by
  induction hij generalizing ks with
  | nil => exact hjk
  | cons hi _ ih =>
    cases hjk with
    | cons hj hjs => exact .cons (hi.trans hj) (ih hjs)

/-- A body without Toffoli gates. -/
def ToffoliFree (is : List Instr) : Prop :=
  ∀ c₁ c₂ t, Instr.gate (.Toffoli c₁ c₂ t) ∉ is

theorem toffoliFree_impl {a b c : QTy} {is : List Instr}
    (h : (toffoliImpl a b c).body = some is) : ToffoliFree is := by
  intro c₁ c₂ t hmem
  rw [toffoliImpl, Option.some.injEq] at h
  simp [← h, implGates, implPhase] at hmem

/-! ## The visit establishes it -/

theorem implName_injective {a b c a' b' c' : QTy} (h : implName a b c = implName a' b' c') :
    a = a' ∧ b = b' ∧ c = c' := by
  revert h
  cases a <;> cases b <;> cases c <;> cases a' <;> cases b' <;> cases c' <;> decide

theorem implsOnly_append_toffoliImpl {M : Module} (h : ImplsOnly M) (a b c : QTy) :
    ImplsOnly (M ++ [toffoliImpl a b c]) := by
  intro a' b' c' f hf
  rw [Module.getFunction_append, Option.or_eq_some_iff] at hf
  rcases hf with hf | ⟨-, hf⟩
  · exact h hf
  · have hname := Module.name_of_getFunction hf
    have hmem := Module.mem_of_getFunction hf
    rw [List.mem_singleton] at hmem
    subst hmem
    obtain ⟨rfl, rfl, rfl⟩ := implName_injective hname
    rfl

/-- What one visit does: the module is extended, the implementations stay right, and the
instruction is replaced. -/
theorem visitCallInst_spec {M : Module} (h : ImplsOnly M) (i : Instr) :
    Extended M (visitCallInst M i).1 ∧ ImplsOnly (visitCallInst M i).1 ∧
      ReplacedInstr (visitCallInst M i).1 i (visitCallInst M i).2 := by
  rcases i with ⟨ty, size⟩ | g | ⟨n, args⟩
  · exact ⟨.refl M, h, .same _⟩
  · cases g with
    | Toffoli c₁ c₂ t =>
      rw [visitCallInst]
      cases hf : M.getFunction (implName c₁.ty c₂.ty t.ty) with
      | some f =>
        have himpl := h hf
        subst himpl
        exact ⟨.refl M, h, .toffoli hf⟩
      | none =>
        have hself : (M ++ [toffoliImpl c₁.ty c₂.ty t.ty]).getFunction (implName c₁.ty c₂.ty t.ty)
            = some (toffoliImpl c₁.ty c₂.ty t.ty) :=
          Module.getFunction_append_singleton_self (f := toffoliImpl c₁.ty c₂.ty t.ty) hf
        exact ⟨extended_append_toffoliImpl M _ _ _, implsOnly_append_toffoliImpl h _ _ _,
          .toffoli hself⟩
    | _ => exact ⟨.refl M, h, .same _⟩
  · exact ⟨.refl M, h, .same _⟩

theorem visitBody_spec {M : Module} (h : ImplsOnly M) (b : List Instr) :
    Extended M (visitBody M b).1 ∧ ImplsOnly (visitBody M b).1 ∧
      Replaced (visitBody M b).1 b (visitBody M b).2 := by
  induction b generalizing M with
  | nil => exact ⟨.refl M, h, .nil⟩
  | cons i is ih =>
    obtain ⟨hk, himpl, hi⟩ := visitCallInst_spec h i
    obtain ⟨hk', himpl', his⟩ := ih himpl
    exact ⟨hk.trans hk', himpl', .cons (hi.mono hk'.keepsImpls) his⟩

theorem toffoliFree_visitBody (M : Module) (b : List Instr) : ToffoliFree (visitBody M b).2 := by
  induction b generalizing M with
  | nil => exact fun _ _ _ ↦ List.not_mem_nil
  | cons i is ih =>
    intro c₁ c₂ t hmem
    rw [visitBody, List.mem_cons] at hmem
    rcases hmem with hi | his
    · rcases i with _ | g | _
      · exact Instr.noConfusion hi
      · cases g <;> simp [visitCallInst] at hi
      · exact Instr.noConfusion hi
    · exact ih _ _ _ _ his

theorem visitBody_of_toffoliFree {b : List Instr} (h : ToffoliFree b) (M : Module) :
    visitBody M b = (M, b) := by
  induction b with
  | nil => rfl
  | cons i is ih =>
    have hi : visitCallInst M i = (M, i) := by
      rcases i with _ | g | _
      · rfl
      · cases g with
        | Toffoli c₁ c₂ t => exact absurd List.mem_cons_self (h c₁ c₂ t)
        | _ => rfl
      · rfl
    rw [visitBody, hi, ih fun c₁ c₂ t hmem ↦ h c₁ c₂ t (List.mem_cons_of_mem i hmem)]

theorem Visited.refl (M : Module) : Visited M M := fun n f hf ↦ by
  refine ⟨f, hf, ?_⟩
  cases f.body with
  | none => exact .none
  | some b => exact .some (.refl M b)

theorem Visited.trans {M M' M'' : Module} (h : Visited M M') (h' : Visited M' M'')
    (hk : KeepsImpls M' M'') : Visited M M'' := by
  intro n f hf
  obtain ⟨f', hf', hb'⟩ := h hf
  obtain ⟨f'', hf'', hb''⟩ := h' hf'
  refine ⟨f'', hf'', ?_⟩
  generalize f.body = x, f'.body = y, f''.body = z at *
  cases hb' with
  | none => exact hb''
  | some hr =>
    cases hb'' with
    | some hr' => exact .some ((hr.mono hk).trans hr')

/-- Putting the visited body in place changes no implementation: an implementation is visited
without effect, its body holding no Toffoli gate. -/
theorem getFunction_setBody_implName {M : Module} (h : ImplsOnly M) {n : Ident} {f : Function}
    {b : List Instr} (hf : M.getFunction n = some f) (hb : f.body = some b) (a₁ a₂ a₃ : QTy) :
    ((visitBody M b).1.setBody n (visitBody M b).2).getFunction (implName a₁ a₂ a₃)
      = (visitBody M b).1.getFunction (implName a₁ a₂ a₃) := by
  by_cases hname : implName a₁ a₂ a₃ = n
  · subst hname
    have hfree : ToffoliFree b := toffoliFree_impl (by rw [← h hf, hb])
    rw [visitBody_of_toffoliFree hfree, Module.getFunction_setBody_self, hf, Option.map_some, ← hb]
  · exact Module.getFunction_setBody_of_ne hname _

/-- What the visit of a function does: its body is replaced, and everything else is kept. -/
theorem visitFunction_spec {M : Module} (h : ImplsOnly M) (n : Ident) :
    KeepsImpls M (visitFunction M n) ∧ ImplsOnly (visitFunction M n) ∧
      Visited M (visitFunction M n) := by
  rw [visitFunction]
  cases hn : (M.getFunction n).bind Function.body with
  | none => exact ⟨fun _ _ _ hf ↦ hf, h, .refl M⟩
  | some b =>
    obtain ⟨f, hf, hb⟩ := Option.bind_eq_some_iff.mp hn
    obtain ⟨hext, himpl, hrep⟩ := visitBody_spec h b
    have hsame := getFunction_setBody_implName h hf hb
    have hkeep : KeepsImpls (visitBody M b).1 ((visitBody M b).1.setBody n (visitBody M b).2) :=
      fun a₁ a₂ a₃ hg ↦ by rw [hsame, hg]
    refine ⟨fun _ _ _ hg ↦ hkeep (hext.1 hg), fun a₁ a₂ a₃ g hg ↦ himpl (hsame .. ▸ hg), ?_⟩
    intro m g hg
    by_cases hm : m = n
    · subst hm
      refine ⟨{ f with body := some (visitBody M b).2 }, ?_, ?_⟩
      · rw [Module.getFunction_setBody_self, hext.1 hf, Option.map_some]
      · rw [Option.some_injective _ (hg.symm.trans hf), hb]
        exact .some (hrep.mono hkeep)
    · refine ⟨g, by rw [Module.getFunction_setBody_of_ne hm, hext.1 hg], ?_⟩
      cases g.body with
      | none => exact .none
      | some b' => exact .some (.refl _ b')

theorem foldl_visitFunction_spec (names : List Ident) {M : Module} (h : ImplsOnly M) :
    KeepsImpls M (names.foldl visitFunction M) ∧ ImplsOnly (names.foldl visitFunction M) ∧
      Visited M (names.foldl visitFunction M) := by
  induction names generalizing M with
  | nil => exact ⟨fun _ _ _ hf ↦ hf, h, .refl M⟩
  | cons n names ih =>
    obtain ⟨hk, himpl, hv⟩ := visitFunction_spec h n
    obtain ⟨hk', himpl', hv'⟩ := ih himpl
    exact ⟨fun _ _ _ hf ↦ hk' (hk hf), himpl', hv.trans hv' hk'⟩

theorem visited_runOnModule {M : Module} (h : ImplsOnly M) : Visited M (runOnModule M) := by
  obtain ⟨hk, himpl, hv⟩ := foldl_visitFunction_spec (M.map Function.name) h
  obtain ⟨hk', -, hv'⟩ := foldl_visitFunction_spec
    (((M.map Function.name).foldl visitFunction M |>.drop M.length).map Function.name) himpl
  exact hv.trans hv' hk'

/-! ## No Toffoli gate is left -/

/-- The function `n`, if there is one, has no Toffoli gate. -/
def FreeAt (M : Module) (n : Ident) : Prop :=
  ∀ ⦃f b⦄, M.getFunction n = some f → f.body = some b → ToffoliFree b

theorem freeAt_visitFunction {M : Module} (h : ImplsOnly M) {n m : Ident}
    (hm : m ≠ n → FreeAt M m) : FreeAt (visitFunction M n) m := by
  rw [visitFunction]
  cases hn : (M.getFunction n).bind Function.body with
  | none =>
    intro f b hf hb
    by_cases hmn : m = n
    · subst hmn
      rw [hf, Option.bind_some, hb] at hn
      nomatch hn
    · exact hm hmn hf hb
  | some b₀ =>
    obtain ⟨hext, -, -⟩ := visitBody_spec h b₀
    intro f b hf hb
    by_cases hmn : m = n
    · subst hmn
      rw [Module.getFunction_setBody_self, Option.map_eq_some_iff] at hf
      obtain ⟨f₀, -, rfl⟩ := hf
      exact Option.some_injective _ hb ▸ toffoliFree_visitBody M b₀
    · rw [Module.getFunction_setBody_of_ne hmn] at hf
      rcases hext.2 hf with hf' | ⟨a₁, a₂, a₃, rfl⟩
      · exact hm hmn hf' hb
      · exact toffoliFree_impl hb

theorem freeAt_foldl {names : List Ident} {M : Module} (h : ImplsOnly M)
    (hfree : ∀ n ∉ names, FreeAt M n) (n : Ident) : FreeAt (names.foldl visitFunction M) n := by
  induction names generalizing M with
  | nil => exact hfree n List.not_mem_nil
  | cons m names ih =>
    refine ih (visitFunction_spec h m).2.1 fun k hk ↦ freeAt_visitFunction h fun hkm ↦ ?_
    exact hfree k (List.not_mem_cons_of_ne_of_not_mem hkm hk)

theorem freeAt_runOnModule {M : Module} (h : ImplsOnly M) (n : Ident) :
    FreeAt (runOnModule M) n := by
  have habsent : ∀ k ∉ M.map Function.name, FreeAt M k := by
    intro k hk f b hf _
    refine absurd (List.mem_map.mpr ⟨f, Module.mem_of_getFunction hf, ?_⟩) hk
    exact Module.name_of_getFunction hf
  rw [runOnModule]
  exact freeAt_foldl (foldl_visitFunction_spec _ h).2.1 (fun m _ ↦ freeAt_foldl h habsent m) n

theorem toffoli_notMem_of_expands {ι : Type*} {M : Module} (h : ∀ n, FreeAt M n) {ρ : Env ι}
    {is : List Instr} {C : List (GateCall ι)} (hC : Expands M ρ is C) (his : ToffoliFree is)
    (c₁ c₂ t : ι) : Toffoli c₁ c₂ t ∉ C := by
  induction hC with
  | nil => exact List.not_mem_nil
  | alloca ty size _ ih => exact ih fun a b c hm ↦ his a b c (List.mem_cons_of_mem _ hm)
  | gate g _ ih =>
    refine List.not_mem_cons_of_ne_of_not_mem (fun hg ↦ ?_)
      (ih fun a b c hm ↦ his a b c (List.mem_cons_of_mem _ hm))
    cases g with
    | Toffoli a b c => exact his a b c List.mem_cons_self
    | _ => nomatch hg
  | call hf hb _ _ ih₁ ih₂ =>
    refine fun hm ↦ (List.mem_append.mp hm).elim (ih₁ (h _ hf hb)) (ih₂ ?_)
    exact fun a b c hm' ↦ his a b c (List.mem_cons_of_mem _ hm')
  | declared _ _ _ ih => exact ih fun a b c hm ↦ his a b c (List.mem_cons_of_mem _ hm)

/-! ## The circuit is kept -/

section Circuit

variable {ι : Type*} [DecidableEq ι]

/-- The Toffoli gates of a circuit act on three wires. -/
def ToffolisDistinct (C : List (GateCall ι)) : Prop :=
  ∀ c₁ c₂ t, Toffoli c₁ c₂ t ∈ C → c₁ ≠ c₂ ∧ c₁ ≠ t ∧ c₂ ≠ t

omit [DecidableEq ι] in
theorem expands_call_toffoliImpl {M : Module} {c₁ c₂ t : Operand}
    (h : M.getFunction (implName c₁.ty c₂.ty t.ty) = some (toffoliImpl c₁.ty c₂.ty t.ty))
    (ρ : Env ι) {is : List Instr} {C : List (GateCall ι)} (hC : Expands M ρ is C) :
    Expands M ρ (.call (implName c₁.ty c₂.ty t.ty) [.qubit c₁, .qubit c₂, .qubit t] :: is)
      (implGates (ρ.wire c₁) (ρ.wire c₂) (ρ.wire t) ++ C) := by
  have hgates : ∀ (ρ' : Env ι) (G : List (GateCall Operand)),
      Expands M ρ' (G.map .gate) (G.map (GateCall.map ρ'.wire)) := by
    intro ρ' G
    induction G with
    | nil => exact .nil ρ'
    | cons g G ih => exact .gate g ih
  exact .call h rfl (hgates (ρ.bind [.qubit c₁, .qubit c₂, .qubit t] fun _ _ ↦ ρ.wire t) _) hC

/-- **Expansions are carried over.** A visited body performs a circuit with the same meaning. -/
theorem exists_expands_of_visited {M M' : Module} (hv : Visited M M') {ρ : Env ι}
    {is : List Instr} {C : List (GateCall ι)} (hC : Expands M ρ is C) (hd : ToffolisDistinct C)
    {js : List Instr} (hij : Replaced M' is js) :
    ∃ C', Expands M' ρ js C' ∧ circuit C' = circuit C := by
  induction hC generalizing js with
  | nil ρ =>
    cases hij
    exact ⟨[], .nil ρ, rfl⟩
  | alloca ty size _ ih =>
    cases hij with
    | cons hi his =>
      cases hi
      obtain ⟨C', hC', heq⟩ := ih hd his
      exact ⟨C', hC'.alloca ty size, heq⟩
  | @gate ρ is C g _ ih =>
    cases hij with
    | cons hi his =>
      obtain ⟨C', hC', heq⟩ := ih (fun a b c hm ↦ hd a b c (List.mem_cons_of_mem _ hm)) his
      cases hi with
      | same => exact ⟨_, hC'.gate g, by simp only [circuit, run_cons] at heq ⊢; rw [heq]⟩
      | @toffoli c₁ c₂ t himpl =>
        -- its operands are distinct, so the network is the Toffoli
        obtain ⟨h₁₂, h₁, h₂⟩ := hd _ _ _ List.mem_cons_self
        refine ⟨_, expands_call_toffoliImpl himpl ρ hC', ?_⟩
        have himplEq := circuit_implGates h₁₂ h₁ h₂
        simp only [circuit, run_append, run_cons, run_nil, andThen_one] at heq himplEq ⊢
        rw [himplEq, heq]
        rfl
  | @call ρ is n args f b loc C₁ C₂ hf hb _ _ ih₁ ih₂ =>
    cases hij with
    | cons hi his =>
      cases hi
      obtain ⟨f', hf', hbody⟩ := hv hf
      rw [hb] at hbody
      generalize hfb : f'.body = fb at hbody
      cases hbody with
      | @some _ b' hrep =>
        obtain ⟨C₁', hC₁', heq₁⟩ := ih₁ (fun a b c hm ↦ hd a b c (List.mem_append_left _ hm)) hrep
        obtain ⟨C₂', hC₂', heq₂⟩ := ih₂ (fun a b c hm ↦ hd a b c (List.mem_append_right _ hm)) his
        refine ⟨_, .call hf' hfb hC₁' hC₂', ?_⟩
        simp only [circuit, run_append] at heq₁ heq₂ ⊢
        rw [heq₁, heq₂]
  | declared hf hb _ ih =>
    cases hij with
    | cons hi his =>
      cases hi
      obtain ⟨f', hf', hbody⟩ := hv hf
      rw [hb] at hbody
      generalize hfb : f'.body = fb at hbody
      cases hbody
      obtain ⟨C', hC', heq⟩ := ih hd his
      exact ⟨C', .declared hf' hfb hC', heq⟩

/-- **The pass keeps the circuit of every function.** The names of the implementations must be free
in the module; the functions then have no Toffoli gate left and mean what they meant, phases
included. -/
theorem circuit_runOnModule {M : Module} (hfresh : ∀ a b c, M.getFunction (implName a b c) = none)
    {n : Ident} {f : Function} {b : List Instr} (hf : M.getFunction n = some f)
    (hb : f.body = some b) {ρ : Env ι} {C : List (GateCall ι)} (hC : Expands M ρ b C)
    (hd : ToffolisDistinct C) :
    ∃ f' b' C', (runOnModule M).getFunction n = some f' ∧ f'.body = some b' ∧
      Expands (runOnModule M) ρ b' C' ∧ (∀ c₁ c₂ t, Toffoli c₁ c₂ t ∉ C') ∧
      circuit C' = circuit C := by
  have himpl : ImplsOnly M := fun a₁ a₂ a₃ g hg ↦ by
    rw [hfresh] at hg
    nomatch hg
  obtain ⟨f', hf', hbody⟩ := visited_runOnModule himpl hf
  rw [hb] at hbody
  generalize hfb : f'.body = fb at hbody
  cases hbody with
  | @some _ b' hrep =>
    obtain ⟨C', hC', heq⟩ := exists_expands_of_visited (visited_runOnModule himpl) hC hd hrep
    have hfree := freeAt_runOnModule himpl
    exact ⟨f', b', C', hf', hfb, hC',
      toffoli_notMem_of_expands hfree hC' (hfree n hf' hfb), heq⟩

/-- A main function with one Toffoli gate on the elements of a local array. -/
def toffoliMain : Module :=
  [{ name := "main".toList
     body := some [.alloca .qbit 3,
       .gate (.Toffoli ⟨.qbit, .alloca 0, 0⟩ ⟨.qbit, .alloca 0, 1⟩ ⟨.qbit, .alloca 0, 2⟩)] }]

theorem circuit_runOnModule_toffoliMain :
    ∃ f' b' C', (runOnModule toffoliMain).getFunction "main".toList = some f' ∧
      f'.body = some b' ∧ Expands (runOnModule toffoliMain) (fun _ j ↦ j) b' C' ∧
      (∀ c₁ c₂ t : ℕ, Toffoli c₁ c₂ t ∉ C') ∧ circuit C' = circuit [Toffoli 0 1 2] := by
  refine circuit_runOnModule (M := toffoliMain) (fun a b c ↦ ?_) rfl rfl
    (.alloca _ _ (.gate _ (.nil _))) ?_
  · cases a <;> cases b <;> cases c <;> decide
  · intro c₁ c₂ t hmem
    obtain ⟨rfl, rfl, rfl⟩ : c₁ = 0 ∧ c₂ = 1 ∧ t = 2 := by simpa using hmem
    decide

end Circuit

end ScaffCC.ToffoliReplace
