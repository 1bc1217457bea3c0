import Mathlib.Data.List.TakeWhile
import ScaffCC.IR.Module

/-!
# Inlining

`inlineFunction` replaces a call by the body of the callee. The parameters of the callee become the
arguments of the call, and its arrays become arrays of the caller, behind those it has.

A call site is known by its position before the pass. An instruction keeps this position while
others are inlined, and an instruction that comes from a callee has none.

The invariant is that a body with some of its calls inlined has the expansions of the body it was
made from, each with the new arrays placed somewhere.
-/

namespace ScaffCC.Flatten

/-- An instruction, with its position before the pass if it was there. -/
abbrev Body := List (Option ℕ × Instr)

/-- The body before the pass. -/
def tagged (is : List Instr) : Body := is.zipIdx.map fun p ↦ (some p.2, p.1)

def instrs (T : Body) : List Instr := T.map Prod.snd

/-- Whether the instruction is an allocation. -/
def isAlloca : Instr → Bool
  | .alloca _ _ => true
  | _ => false

/-- The number of arrays of a body. -/
def numAllocas (is : List Instr) : ℕ := is.countP isAlloca

/-- An operand of the callee as one of the caller, which has `k` arrays. -/
def inlineOperand (k : ℕ) (args : List Arg) (o : Operand) : Operand :=
  match o.base with
  | .alloca a => {o with base := .alloca (k + a)}
  | .param p =>
    match args[p]? with
    | some (.qubit q) => ⟨o.ty, q.base, q.index + o.index⟩
    | _ => o

/-- An argument of a call in the callee as one in the caller. -/
def inlineArg (k : ℕ) (args : List Arg) : Arg → Arg
  | .qubit o => .qubit (inlineOperand k args o)
  | .int value => .int value

/-- An instruction of the callee as one of the caller. -/
def inlineInstr (k : ℕ) (args : List Arg) : Instr → Instr
  | .alloca ty size => .alloca ty size
  | .gate g => .gate (g.map (inlineOperand k args))
  | .call n as => .call n (as.map (inlineArg k args))

/-- The body of the callee between what was before the call and what was behind it. The arrays of
the callee are put at the end. -/
def splice (k : ℕ) (args : List Arg) (callee : List Instr) (pre post : Body) : Body :=
  pre ++ (((callee.filter (!isAlloca ·)).map fun i ↦ (none, inlineInstr k args i)) ++
    (post ++ (callee.filter isAlloca).map fun i ↦ (none, i)))

/-- The body with the call at a site replaced, given the bodies of all functions. -/
def inlineFunction (bodies : Ident → Body) (T : Body) (site : ℕ) : Body :=
  match T.dropWhile (·.1 ≠ some site) with
  | (_, .call n args) :: post =>
    splice (numAllocas (instrs T)) args (instrs (bodies n)) (T.takeWhile (·.1 ≠ some site)) post
  | _ => T

/-! ## Operands -/

def operands : Instr → List Operand
  | .alloca _ _ => []
  | .gate g => g.operands
  | .call _ args => args.filterMap fun
    | .qubit o => some o
    | .int _ => none

/-- The operands are parameters or among the first `k` arrays. -/
def Scoped (k : ℕ) (is : List Instr) : Prop :=
  ∀ i ∈ is, ∀ o ∈ operands i, ∀ a, o.base = .alloca a → a < k

/-- The environments have the same wires for the parameters and the first `k` arrays. -/
def Agrees {ι : Type*} (k : ℕ) (ρ ρ' : Env ι) : Prop :=
  (∀ p, ρ (.param p) = ρ' (.param p)) ∧ ∀ a < k, ρ (.alloca a) = ρ' (.alloca a)

variable {ι : Type*} {k l : ℕ} {ρ ρ' ρ'' : Env ι} {is js : List Instr} {M : Module}

theorem Agrees.refl (k : ℕ) (ρ : Env ι) : Agrees k ρ ρ := ⟨fun _ ↦ rfl, fun _ _ ↦ rfl⟩

theorem Agrees.symm (h : Agrees k ρ ρ') : Agrees k ρ' ρ :=
  ⟨fun p ↦ (h.1 p).symm, fun a ha ↦ (h.2 a ha).symm⟩

theorem Agrees.trans (h : Agrees k ρ ρ') (h' : Agrees l ρ' ρ'') (hkl : k ≤ l) : Agrees k ρ ρ'' :=
  ⟨fun p ↦ (h.1 p).trans (h'.1 p), fun a ha ↦ (h.2 a ha).trans (h'.2 a (ha.trans_le hkl))⟩

theorem Agrees.base {o : Operand} (h : Agrees k ρ ρ') (ho : ∀ a, o.base = .alloca a → a < k) :
    ρ o.base = ρ' o.base := by
  cases hb : o.base with
  | param p => exact h.1 p
  | alloca a => exact h.2 a (ho a hb)

theorem Scoped.mono (h : Scoped k is) (hkl : k ≤ l) : Scoped l is :=
  fun i hi o ho a ha ↦ (h i hi o ho a ha).trans_le hkl

theorem scoped_append : Scoped k (is ++ js) ↔ Scoped k is ∧ Scoped k js :=
  List.forall_mem_append

theorem bind_param_congr {n : Ident} {args : List Arg} (hargs : Scoped k [.call n args])
    (h : Agrees k ρ ρ') (loc loc' : ℕ → ℕ → ι) (p : ℕ) :
    ρ.bind args loc (.param p) = ρ'.bind args loc' (.param p) := by
  funext j
  rw [Env.bind, Env.bind]
  cases hp : args[p]? with
  | none => exact congrFun (h.1 p) j
  | some arg =>
    cases arg with
    | int value => exact congrFun (h.1 p) j
    | qubit o =>
      have ho : o ∈ operands (.call n args) :=
        List.mem_filterMap.mpr ⟨_, List.mem_of_getElem? hp, rfl⟩
      exact congrFun (h.base (hargs _ (List.mem_singleton_self _) o ho)) _

theorem expands_congr (h : Agrees k ρ ρ') (his : Scoped k is) {C : List (GateCall ι)} :
    Expands M ρ is C ↔ Expands M ρ' is C := by
  induction is generalizing C with
  | nil => rw [Expands.nil_iff, Expands.nil_iff]
  | cons i is ih =>
    obtain ⟨hi, his⟩ := List.forall_mem_cons.mp his
    have ih : ∀ {C}, Expands M ρ is C ↔ Expands M ρ' is C := ih his
    cases i with
    | alloca ty size => rw [Expands.alloca_iff, Expands.alloca_iff, ih]
    | gate g =>
      have hg : g.map ρ.wire = g.map ρ'.wire :=
        GateCall.map_congr fun o ho ↦ congrFun (h.base (hi o ho)) o.index
      simp only [Expands.gate_iff, ih, hg]
    | call n args =>
      have hbind : ρ.bind args = ρ'.bind args := by
        funext loc b
        cases b with
        | alloca a => rfl
        | param p =>
          have hcall : Scoped k [.call n args] := List.forall_mem_singleton.mpr hi
          exact bind_param_congr hcall h loc loc p
      cases hb : M.bodyOf n with
      | none => simp only [Expands.call_iff_of_none hb, ih]
      | some b => simp only [Expands.call_iff_of_body hb, ih, hbind]

/-! ## Flat bodies -/

/-- No defined function is called, and those that are called are there. -/
def Flat (M : Module) (is : List Instr) : Prop :=
  ∀ n args, .call n args ∈ is → M.bodyOf n = none ∧ (M.getFunction n).isSome

/-- The gates of a body, on the wires of their operands. -/
def gates (ρ : Env ι) (is : List Instr) : List (GateCall ι) :=
  is.filterMap fun
    | .gate g => some (g.map ρ.wire)
    | _ => none

theorem Flat.expands_iff (h : Flat M is) {C : List (GateCall ι)} :
    Expands M ρ is C ↔ C = gates ρ is := by
  induction is generalizing C with
  | nil => exact Expands.nil_iff
  | cons i is ih =>
    have ih : ∀ {C}, Expands M ρ is C ↔ C = gates ρ is :=
      ih fun n args hmem ↦ h n args (List.mem_cons_of_mem _ hmem)
    cases i with
    | alloca ty size => exact Expands.alloca_iff.trans ih
    | gate g =>
      rw [Expands.gate_iff]
      simp only [ih, exists_eq_left]
      rfl
    | call n args =>
      obtain ⟨hb, hn⟩ := h n args List.mem_cons_self
      rw [Expands.call_iff_of_none hb, ih, and_iff_right hn]
      rfl

theorem gates_filter (ρ : Env ι) (is : List Instr) :
    gates ρ (is.filter (!isAlloca ·)) = gates ρ is := by
  rw [gates, List.filterMap_filter]
  refine List.filterMap_congr fun i _ ↦ ?_
  cases i <;> rfl

theorem gates_allocas (ρ : Env ι) (is : List Instr) : gates ρ (is.filter isAlloca) = [] := by
  rw [gates, List.filterMap_filter, List.filterMap_eq_nil_iff]
  intro i _
  cases i <;> rfl

/-- The environment of the caller behind whose arrays those of a callee are put. -/
def extend (k : ℕ) (ρ ρ₁ : Env ι) : Env ι
  | .param p => ρ (.param p)
  | .alloca a => if a < k then ρ (.alloca a) else ρ₁ (.alloca (a - k))

theorem agrees_extend (k : ℕ) (ρ ρ₁ : Env ι) : Agrees k ρ (extend k ρ ρ₁) :=
  ⟨fun _ ↦ rfl, fun _ ha ↦ (if_pos ha).symm⟩

/-- The callee's environment at a call, in terms of the caller's after inlining. -/
def calleeEnv (k : ℕ) (args : List Arg) (ρ : Env ι) : Env ι :=
  ρ.bind args fun a j ↦ ρ (.alloca (k + a)) j

theorem wire_inlineOperand (k : ℕ) (args : List Arg) (ρ : Env ι) (o : Operand) :
    ρ.wire (inlineOperand k args o) = (calleeEnv k args ρ).wire o := by
  obtain ⟨ty, base, index⟩ := o
  cases base with
  | alloca a => rfl
  | param p =>
    rw [Env.wire, Env.wire, calleeEnv, Env.bind]
    simp only [inlineOperand]
    cases args[p]? with
    | none => rfl
    | some arg => cases arg <;> rfl

theorem gates_inlineInstr (k : ℕ) (args : List Arg) (ρ : Env ι) (is : List Instr) :
    gates ρ (is.map (inlineInstr k args)) = gates (calleeEnv k args ρ) is := by
  rw [gates, gates, List.filterMap_map]
  refine List.filterMap_congr fun i _ ↦ ?_
  cases i with
  | alloca | call => rfl
  | gate g =>
    have hwire : ρ.wire ∘ inlineOperand k args = (calleeEnv k args ρ).wire :=
      funext fun o ↦ wire_inlineOperand k args ρ o
    exact congrArg some ((GateCall.map_map _ _ g).trans (by rw [hwire]))

theorem calleeEnv_extend {n : Ident} {args : List Arg} (hargs : Scoped k [.call n args])
    {loc : ℕ → ℕ → ι} {ρ₁ : Env ι} (h : Agrees l (ρ.bind args loc) ρ₁) :
    calleeEnv k args (extend k ρ ρ₁) = ρ₁ := by
  funext b
  cases b with
  | alloca a =>
    funext j
    rw [calleeEnv, Env.bind, extend, if_neg (by omega), Nat.add_sub_cancel_left]
  | param p =>
    rw [calleeEnv, ← h.1 p]
    exact bind_param_congr hargs (agrees_extend k ρ ρ₁).symm _ _ p

/-! ## Flattened bodies -/

/-- The second body is flat and has the expansions of the first, with its other arrays placed
somewhere. -/
structure Flattened (M : Module) (is js : List Instr) : Prop where
  flat : Flat M js
  bounded : Scoped (numAllocas js) js
  expands : ∀ (ι : Type) (ρ : Env ι) (C : List (GateCall ι)),
    Expands M ρ is C ↔ ∃ ρ', Agrees (numAllocas is) ρ ρ' ∧ C = gates ρ' js

/-- **The expansions of a body with a call inlined**, when the callee is flattened already. -/
theorem expands_inline {ι : Type} {ρ : Env ι} {pre post b js : List Instr} {n : Ident}
    {args : List Arg} (hscoped : Scoped k (pre ++ .call n args :: post))
    (hb : M.bodyOf n = some b) (hjs : Flattened M b js) {C : List (GateCall ι)} :
    Expands M ρ (pre ++ .call n args :: post) C ↔
      ∃ ρ', Agrees k ρ ρ' ∧ Expands M ρ'
        (pre ++ ((js.filter (!isAlloca ·)).map (inlineInstr k args) ++
          (post ++ js.filter isAlloca))) C := by
  obtain ⟨hpre, hrest⟩ := scoped_append.mp hscoped
  have hcall : Scoped k [.call n args] := fun i hi ↦
    hrest i (List.mem_singleton.mp hi ▸ List.mem_cons_self)
  have hpost : Scoped k post := fun i hi ↦ hrest i (List.mem_cons_of_mem _ hi)
  -- what is put in place of the call is flat, and so are the arrays of the callee
  have hbody : ∀ {ρ' : Env ι} {C : List (GateCall ι)},
      Expands M ρ' ((js.filter (!isAlloca ·)).map (inlineInstr k args)) C ↔
        C = gates (calleeEnv k args ρ') js := by
    intro ρ' C
    rw [Flat.expands_iff, gates_inlineInstr, gates_filter]
    intro m as hmem
    obtain ⟨i, hi, heq⟩ := List.mem_map.mp hmem
    cases i with
    | alloca | gate => cases heq
    | call m' as' =>
      cases heq
      exact hjs.flat m as' (List.mem_of_mem_filter hi)
  have harrays : ∀ {ρ' : Env ι} {C : List (GateCall ι)},
      Expands M ρ' (js.filter isAlloca) C ↔ C = [] := by
    intro ρ' C
    rw [Flat.expands_iff, gates_allocas]
    intro m as hmem
    exact absurd (List.mem_filter.mp hmem).2 Bool.false_ne_true
  simp only [Expands.append_iff, Expands.call_iff_of_body hb, hbody, harrays]
  constructor
  · rintro ⟨C₁, _, h₁, ⟨loc, C₂, C₃, h₂, h₃, rfl⟩, rfl⟩
    obtain ⟨ρ₁, hagree, rfl⟩ := (hjs.expands ι _ _).mp h₂
    have hext := agrees_extend k ρ ρ₁
    refine ⟨extend k ρ ρ₁, hext, C₁, _, (expands_congr hext hpre).mp h₁, ⟨_, _,
      rfl, ⟨C₃, [], (expands_congr hext hpost).mp h₃, rfl, rfl⟩, rfl⟩, ?_⟩
    rw [calleeEnv_extend hcall hagree, List.append_nil]
  · rintro ⟨ρ', hagree, C₁, _, h₁, ⟨_, _, rfl, ⟨C₃, _, h₃, rfl, rfl⟩, rfl⟩, rfl⟩
    refine ⟨C₁, _, (expands_congr hagree hpre).mpr h₁, ⟨fun a j ↦ ρ' (.alloca (k + a)) j, _, C₃,
      (hjs.expands ι _ _).mpr ⟨calleeEnv k args ρ', ⟨fun p ↦ ?_, fun a _ ↦ rfl⟩, rfl⟩,
      (expands_congr hagree hpost).mpr h₃, rfl⟩, ?_⟩
    · exact bind_param_congr hcall hagree _ _ p
    · rw [List.append_nil]

/-! ## Inlining one site after the other -/

/-- **The invariant of a body of which the calls at some sites are still to be inlined.** -/
structure Inlining (M : Module) (is : List Instr) (T : Body) (sites : List ℕ) : Prop where
  origin : ∀ i ins, (some i, ins) ∈ T → is[i]? = some ins
  nodup : (T.filterMap Prod.fst).Nodup
  calls : ∀ t n args, (t, .call n args) ∈ T →
    (M.getFunction n).isSome ∧ (M.bodyOf n = none ∨ ∃ i ∈ sites, t = some i)
  bounded : Scoped (numAllocas (instrs T)) (instrs T)
  le : numAllocas is ≤ numAllocas (instrs T)
  expands : ∀ (ι : Type) (ρ : Env ι) (C : List (GateCall ι)), Expands M ρ is C ↔
    ∃ ρ', Agrees (numAllocas is) ρ ρ' ∧ Expands M ρ' (instrs T) C

theorem instrs_tagged (is : List Instr) : instrs (tagged is) = is := by
  rw [instrs, tagged, List.map_map]
  exact List.zipIdx_map_fst 0 is

theorem mem_tagged {t : Option ℕ} {ins : Instr} :
    (t, ins) ∈ tagged is ↔ ∃ i, t = some i ∧ is[i]? = some ins := by
  rw [tagged, List.mem_map]
  constructor
  · rintro ⟨⟨ins', i⟩, hmem, heq⟩
    cases heq
    exact ⟨i, rfl, List.mem_zipIdx_iff_getElem?.mp hmem⟩
  · rintro ⟨i, rfl, hi⟩
    exact ⟨(ins, i), List.mem_zipIdx_iff_getElem?.mpr hi, rfl⟩

theorem Inlining.start {sites : List ℕ} (hbounded : Scoped (numAllocas is) is)
    (hknown : ∀ n args, .call n args ∈ is → (M.getFunction n).isSome)
    (hsites : ∀ i n args, is[i]? = some (.call n args) → M.bodyOf n = none ∨ i ∈ sites) :
    Inlining M is (tagged is) sites where
  origin i ins h := by
    obtain ⟨j, hj, hins⟩ := mem_tagged.mp h
    rw [Option.some.inj hj, hins]
  nodup := by
    have hfst : (tagged is).filterMap Prod.fst = (is.zipIdx).map Prod.snd := by
      rw [tagged, List.filterMap_map]
      exact congrFun (List.filterMap_eq_map (f := Prod.snd)) _
    rw [hfst, List.zipIdx_map_snd]
    exact List.nodup_range'
  calls t n args h := by
    obtain ⟨i, rfl, hi⟩ := mem_tagged.mp h
    exact ⟨hknown n args (List.mem_of_getElem? hi), (hsites i n args hi).imp_right fun h ↦
      ⟨i, h, rfl⟩⟩
  bounded := by rwa [instrs_tagged]
  le := by rw [instrs_tagged]
  expands ι ρ C := by
    rw [instrs_tagged]
    refine ⟨fun h ↦ ⟨ρ, .refl _ ρ, h⟩, fun ⟨ρ', hagree, h⟩ ↦ ?_⟩
    exact (expands_congr hagree hbounded).mpr h

/-- The first instruction with the tag, or there is none. -/
theorem exists_split (T : Body) (i : ℕ) :
    (∃ ins pre post, T = pre ++ (some i, ins) :: post ∧ T.takeWhile (·.1 ≠ some i) = pre ∧
      T.dropWhile (·.1 ≠ some i) = (some i, ins) :: post) ∨
    (T.dropWhile (·.1 ≠ some i) = [] ∧ ∀ ins, (some i, ins) ∉ T) := by
  cases hdrop : T.dropWhile (·.1 ≠ some i) with
  | nil =>
    refine .inr ⟨rfl, fun ins hmem ↦ ?_⟩
    exact absurd rfl (of_decide_eq_true (List.dropWhile_eq_nil_iff.mp hdrop _ hmem))
  | cons e post =>
    obtain ⟨t, ins⟩ := e
    have hhead := List.head?_dropWhile_not (fun e : Option ℕ × Instr ↦ decide (e.1 ≠ some i)) T
    rw [hdrop] at hhead
    obtain rfl : t = some i := by simpa using hhead
    refine .inl ⟨ins, _, post, ?_, rfl, rfl⟩
    rw [← hdrop]
    exact List.takeWhile_append_dropWhile.symm

theorem numAllocas_append (is js : List Instr) :
    numAllocas (is ++ js) = numAllocas is + numAllocas js := List.countP_append

theorem numAllocas_inlined (k : ℕ) (args : List Arg) (js : List Instr) :
    numAllocas ((js.filter (!isAlloca ·)).map (inlineInstr k args)) = 0 := by
  rw [numAllocas, List.countP_eq_zero]
  intro i hi
  obtain ⟨j, hj, rfl⟩ := List.mem_map.mp hi
  have hj := (List.mem_filter.mp hj).2
  cases j with
  | alloca => exact absurd hj Bool.false_ne_true
  | gate | call => exact Bool.false_ne_true

theorem numAllocas_filter (js : List Instr) :
    numAllocas (js.filter isAlloca) = numAllocas js := by
  rw [numAllocas, numAllocas, List.countP_filter]
  simp

/-- What comes from the callee has operands of the caller. -/
theorem scoped_inlined {args : List Arg} {n : Ident} (hargs : Scoped k [.call n args])
    (hjs : Scoped l js) :
    Scoped (k + l) ((js.filter (!isAlloca ·)).map (inlineInstr k args)) := by
  have hoperand : ∀ o : Operand, (∀ a, o.base = .alloca a → a < l) →
      ∀ a, (inlineOperand k args o).base = .alloca a → a < k + l := by
    rintro ⟨ty, base, index⟩ ho a ha
    cases base with
    | alloca a' =>
      cases ha
      exact Nat.add_lt_add_left (ho a' rfl) k
    | param p =>
      simp only [inlineOperand] at ha
      split at ha
      · next q hq =>
        have hq : q ∈ operands (.call n args) :=
          List.mem_filterMap.mpr ⟨_, List.mem_of_getElem? hq, rfl⟩
        exact (hargs _ (List.mem_singleton_self _) q hq a ha).trans_le (Nat.le_add_right k l)
      · cases ha
  intro i hi o ho
  obtain ⟨j, hj, rfl⟩ := List.mem_map.mp hi
  have hj := hjs j (List.mem_of_mem_filter hj)
  cases j with
  | alloca => exact absurd ho List.not_mem_nil
  | gate g =>
    rw [inlineInstr, operands, GateCall.operands_map] at ho
    obtain ⟨o', ho', rfl⟩ := List.mem_map.mp ho
    exact hoperand o' (hj o' ho')
  | call m as =>
    obtain ⟨arg, harg, hsome⟩ := List.mem_filterMap.mp ho
    obtain ⟨arg', harg', rfl⟩ := List.mem_map.mp harg
    cases arg' with
    | int => cases hsome
    | qubit o' =>
      cases hsome
      exact hoperand o' (hj o' (List.mem_filterMap.mpr ⟨_, harg', rfl⟩))

/-! ### The spliced body -/

variable {args : List Arg} {callee : List Instr} {pre post : Body}

theorem instrs_splice : instrs (splice k args callee pre post) =
    instrs pre ++ ((callee.filter (!isAlloca ·)).map (inlineInstr k args) ++
      (instrs post ++ callee.filter isAlloca)) := by
  simp only [instrs, splice, List.map_append, List.map_map, Function.comp_def, List.map_id']

/-- An instruction stands where it did, or comes from the callee. -/
theorem mem_splice {t : Option ℕ} {j : Instr} (h : (t, j) ∈ splice k args callee pre post) :
    ((t, j) ∈ pre ∨ (t, j) ∈ post) ∨
      t = none ∧ ∃ j' ∈ callee, j = inlineInstr k args j' := by
  simp only [splice, List.mem_append, List.mem_map, List.mem_filter, Prod.mk.injEq] at h
  rcases h with h | ⟨j', ⟨hj', -⟩, rfl, rfl⟩ | h | ⟨j', ⟨hj', halloca⟩, rfl, rfl⟩
  · exact .inl (.inl h)
  · exact .inr ⟨rfl, j', hj', rfl⟩
  · exact .inl (.inr h)
  · refine .inr ⟨rfl, j', hj', ?_⟩
    cases j' with
    | alloca => rfl
    | gate | call => cases halloca

theorem tags_splice : (splice k args callee pre post).filterMap Prod.fst =
    pre.filterMap Prod.fst ++ post.filterMap Prod.fst := by
  have hnone : ∀ {l : List Instr} {e : Instr → Option ℕ × Instr}, (∀ j, (e j).1 = none) →
      (l.map e).filterMap Prod.fst = [] := by
    intro l e he
    rw [List.filterMap_map, List.filterMap_eq_nil_iff]
    exact fun j _ ↦ he j
  rw [splice, List.filterMap_append, List.filterMap_append, List.filterMap_append,
    hnone fun _ ↦ rfl, hnone fun _ ↦ rfl, List.nil_append, List.append_nil]

theorem numAllocas_splice : numAllocas (instrs (splice k args callee pre post)) =
    numAllocas (instrs pre) + numAllocas (instrs post) + numAllocas callee := by
  rw [instrs_splice, numAllocas_append, numAllocas_append, numAllocas_append, numAllocas_inlined,
    numAllocas_filter]
  omega

theorem scoped_splice {n : Ident} (h : Scoped k (instrs pre ++ .call n args :: instrs post))
    (hcallee : Scoped l callee) :
    Scoped (k + l) (instrs (splice k args callee pre post)) := by
  obtain ⟨hpre, hrest⟩ := scoped_append.mp h
  have hcall : Scoped k [.call n args] :=
    List.forall_mem_singleton.mpr (hrest _ List.mem_cons_self)
  have hpost : Scoped k (instrs post) := fun j hj ↦ hrest j (List.mem_cons_of_mem _ hj)
  have harrays : Scoped (k + l) (callee.filter isAlloca) := by
    intro j hj o ho
    have halloca := (List.mem_filter.mp hj).2
    cases j with
    | alloca => exact absurd ho List.not_mem_nil
    | gate | call => cases halloca
  rw [instrs_splice]
  exact scoped_append.mpr ⟨hpre.mono (Nat.le_add_right _ _), scoped_append.mpr
    ⟨scoped_inlined hcall hcallee, scoped_append.mpr
      ⟨hpost.mono (Nat.le_add_right _ _), harrays⟩⟩⟩

/-- **The call at a site is inlined.** -/
theorem Inlining.step {T : Body} {i : ℕ} {sites : List ℕ} {bodies : Ident → Body} {n : Ident}
    {b : List Instr} (h : Inlining M is T (i :: sites)) (hi : is[i]? = some (.call n args))
    (hb : M.bodyOf n = some b) (hcallee : Flattened M b (instrs (bodies n))) :
    Inlining M is (inlineFunction bodies T i) sites := by
  rcases exists_split T i with ⟨ins, pre, post, hT, htake, hdrop⟩ | ⟨hdrop, hno⟩
  · have hmem : (some i, ins) ∈ T := hT ▸ List.mem_append_right _ List.mem_cons_self
    obtain rfl : ins = .call n args := Option.some.inj ((h.origin i ins hmem).symm.trans hi)
    have hinstrs : instrs T = instrs pre ++ .call n args :: instrs post := by
      rw [hT, instrs, List.map_append, List.map_cons]
      rfl
    have hinline : inlineFunction bodies T i =
        splice (numAllocas (instrs T)) args (instrs (bodies n)) pre post := by
      rw [inlineFunction, hdrop, htake]
    have hbounded : Scoped (numAllocas (instrs T)) (instrs pre ++ .call n args :: instrs post) :=
      fun j hj ↦ h.bounded j (hinstrs ▸ hj)
    have hcount : numAllocas (instrs (inlineFunction bodies T i)) =
        numAllocas (instrs T) + numAllocas (instrs (bodies n)) := by
      have hzero : numAllocas (.call n args :: instrs post) = numAllocas (instrs post) :=
        List.countP_cons_of_neg Bool.false_ne_true
      rw [hinline, numAllocas_splice, hinstrs, numAllocas_append, hzero]
    have hold : ∀ {t j}, (t, j) ∈ pre ∨ (t, j) ∈ post → (t, j) ∈ T := by
      rintro t j (hj | hj)
      · exact hT ▸ List.mem_append_left _ hj
      · exact hT ▸ List.mem_append_right _ (List.mem_cons_of_mem _ hj)
    -- each site is tagged once, also after the call is cut out
    have htags : (pre.filterMap Prod.fst ++ i :: post.filterMap Prod.fst).Nodup := by
      have hnodup := h.nodup
      rw [hT, List.filterMap_append] at hnodup
      exact hnodup
    refine ⟨?_, ?_, ?_, ?_, ?_, ?_⟩
    · intro j ins hj
      -- what is spliced in carries no tag
      rcases mem_splice (hinline ▸ hj) with hin | ⟨hnone, -⟩
      · exact h.origin j ins (hold hin)
      · cases hnone
    · rw [hinline, tags_splice]
      exact htags.sublist (List.Sublist.append_left (List.sublist_cons_self _ _) _)
    · intro t m as hj
      rcases mem_splice (hinline ▸ hj) with hin | ⟨-, j', hj', heq⟩
      · obtain ⟨hm, hnone | ⟨site, hsite, rfl⟩⟩ := h.calls t m as (hold hin)
        · exact ⟨hm, .inl hnone⟩
        · rcases List.mem_cons.mp hsite with rfl | hsite
          · -- the tag is only at the call that is inlined
            have htag : site ∈ pre.filterMap Prod.fst ++ post.filterMap Prod.fst :=
              List.mem_append.mpr (hin.imp (fun hin ↦ List.mem_filterMap.mpr ⟨_, hin, rfl⟩)
                fun hin ↦ List.mem_filterMap.mpr ⟨_, hin, rfl⟩)
            exact absurd htag (List.nodup_cons.mp (List.nodup_middle.mp htags)).1
          · exact ⟨hm, .inr ⟨site, hsite, rfl⟩⟩
      · cases j' with
        | alloca | gate => cases heq
        | call m' as' =>
          cases heq
          obtain ⟨hnone, hm⟩ := hcallee.flat m as' hj'
          exact ⟨hm, .inl hnone⟩
    · rw [hcount, hinline]
      exact scoped_splice hbounded hcallee.bounded
    · rw [hcount]
      exact h.le.trans (Nat.le_add_right _ _)
    · intro ι ρ C
      rw [h.expands, hinline, instrs_splice]
      constructor
      · rintro ⟨ρ', hagree, hC⟩
        rw [hinstrs, expands_inline hbounded hb hcallee] at hC
        obtain ⟨ρ'', hagree', hC⟩ := hC
        exact ⟨ρ'', hagree.trans hagree' h.le, hC⟩
      · rintro ⟨ρ', hagree, hC⟩
        refine ⟨ρ', hagree, ?_⟩
        rw [hinstrs, expands_inline hbounded hb hcallee]
        exact ⟨ρ', .refl _ ρ', hC⟩
  · -- there is nothing left at this site
    have hsame : inlineFunction bodies T i = T := by rw [inlineFunction, hdrop]
    rw [hsame]
    refine ⟨h.origin, h.nodup, fun t n args hmem ↦ ?_, h.bounded, h.le, h.expands⟩
    obtain ⟨hn, hnone | ⟨j, hj, rfl⟩⟩ := h.calls t n args hmem
    · exact ⟨hn, .inl hnone⟩
    · rcases List.mem_cons.mp hj with rfl | hj
      · exact absurd hmem (hno _)
      · exact ⟨hn, .inr ⟨j, hj, rfl⟩⟩

theorem Inlining.flattened {T : Body} (h : Inlining M is T []) : Flattened M is (instrs T) := by
  have hflat : Flat M (instrs T) := by
    intro n args hmem
    obtain ⟨⟨t, ins⟩, hT, rfl⟩ := List.mem_map.mp hmem
    obtain ⟨hn, hb | ⟨i, hi, -⟩⟩ := h.calls t n args hT
    · exact ⟨hb, hn⟩
    · exact absurd hi List.not_mem_nil
  refine ⟨hflat, h.bounded, fun ι ρ C ↦ ?_⟩
  rw [h.expands]
  simp only [hflat.expands_iff]

end ScaffCC.Flatten
