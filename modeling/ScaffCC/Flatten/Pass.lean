import Mathlib.Logic.Relation
import ScaffCC.Flatten.Inline

/-!
# The pass `FlattenModule`

The pass marks the functions that `flat_info.txt` lists, or all with `-all=1`. It walks the
functions with callers first. For a marked function it collects the calls of defined functions and
marks these functions. Then it inlines the collected calls in the reverse order, so that the bodies
of callees are flat before they are copied.

The walk is the reverse of the order in which the strongly connected components of the call graph
are enumerated, from the node that stands for calls from outside. A function that is only known in
the module, whose address is not taken, and that no function of this kind is called from outside,
is not enumerated. Such a function is left as it is, even with `-all=1`.
-/

namespace ScaffCC.Flatten

open Relation

/-! ## The call graph -/

/-- The first function calls the second. -/
def Calls (M : Module) (f g : Ident) : Prop :=
  ∃ b args, M.bodyOf f = some b ∧ .call g args ∈ b

/-- A module, with the functions that do not have local linkage or whose address is taken. Callees
are functions of the module, and operands are parameters or arrays of the function. -/
structure Program where
  M : Module
  external : Set Ident
  nodup : (M.map Function.name).Nodup
  known : ∀ f b n args, M.bodyOf f = some b → .call n args ∈ b → (M.getFunction n).isSome
  bounded : ∀ f b, M.bodyOf f = some b → Scoped (numAllocas b) b

/-- No function calls itself, directly or not. -/
def Program.Acyclic (P : Program) : Prop := ∀ f, ¬ TransGen (Calls P.M) f f

/-- The function can be reached from outside in the call graph. -/
def Program.Reachable (P : Program) (f : Ident) : Prop :=
  ∃ e ∈ P.external, (P.M.getFunction e).isSome ∧ ReflTransGen (Calls P.M) e f

/-- The order in which `scc_iterator` enumerates the functions: those that can be reached from the
node it starts at, once each, with a callee before its caller unless they call each other. -/
structure SccOrder (P : Program) (order : List Ident) : Prop where
  nodup : order.Nodup
  mem_iff : ∀ f, f ∈ order ↔ P.Reachable f
  bottom_up : ∀ f g, f ∈ order → Calls P.M f g → ¬ TransGen (Calls P.M) g f →
    ∃ l₁ l₂, order = l₁ ++ f :: l₂ ∧ g ∈ l₁

/-! ## The pass -/

/-- The functions to make leaves, and the calls to be inlined: the function and the position. -/
structure FlattenModule where
  makeLeaf : List (Option Ident)
  inlineCallInsts : List (Ident × ℕ)

/-- The calls of defined functions in a body, each with its position. -/
def definedCalls (M : Module) (b : List Instr) : List (ℕ × Ident) :=
  b.zipIdx.filterMap fun p ↦
    match p.1 with
    | .call n _ => if (M.bodyOf n).isSome then some (p.2, n) else none
    | _ => none

/-- A function is visited. Nothing happens if it is not to be made a leaf. -/
def runOnFunction (M : Module) (FLAT : ℕ) (s : FlattenModule) (F : Ident) : FlattenModule :=
  if FLAT = 0 ∧ ¬ s.makeLeaf.contains (some F) then s
  else
    let calls := definedCalls M ((M.bodyOf F).getD [])
    ⟨s.makeLeaf ++ calls.map fun c ↦ some c.2, s.inlineCallInsts ++ calls.map fun c ↦ (F, c.1)⟩

def inlineCall (bodies : Ident → Body) (site : Ident × ℕ) : Ident → Body :=
  Function.update bodies site.1 (inlineFunction bodies (bodies site.1) site.2)

/-- The bodies before the pass. -/
def initialBodies (M : Module) (f : Ident) : Body := tagged ((M.bodyOf f).getD [])

/-- The calls that are collected, callers first. -/
def collected (M : Module) (FLAT : ℕ) (flat_info vectPostOrder : List Ident) :
    List (Ident × ℕ) :=
  (vectPostOrder.reverse.foldl (runOnFunction M FLAT)
    ⟨flat_info.map fun n ↦ (M.getFunction n).map Function.name, []⟩).inlineCallInsts

/-- The pass. -/
def runOnModule (M : Module) (FLAT : ℕ) (flat_info vectPostOrder : List Ident) : Module :=
  let bodies :=
    (collected M FLAT flat_info vectPostOrder).reverse.foldl inlineCall (initialBodies M)
  M.map fun f ↦ {f with body := f.body.map fun _ ↦ instrs (bodies f.name)}

/-! ## What the pass is for -/

/-- The function calls no defined function after the pass, and has the expansions it had, with the
other arrays placed somewhere. -/
def FlattenedIn (M M' : Module) (f : Ident) : Prop :=
  ∀ b, M.bodyOf f = some b → ∃ b', M'.bodyOf f = some b' ∧
    (∀ n args, .call n args ∈ b' → M'.bodyOf n = none) ∧
    ∀ (ι : Type) (ρ : Env ι) (C : List (GateCall ι)), Expands M ρ b C ↔
      ∃ ρ', Agrees (numAllocas b) ρ ρ' ∧ Expands M' ρ' b' C

/-! ## The calls of one function -/

variable {M : Module} {FLAT : ℕ} {F : Ident} {b : List Instr}

theorem mem_definedCalls {i : ℕ} {n : Ident} :
    (i, n) ∈ definedCalls M b ↔ ∃ args, b[i]? = some (.call n args) ∧ (M.bodyOf n).isSome := by
  rw [definedCalls, List.mem_filterMap]
  constructor
  · rintro ⟨⟨ins, j⟩, hmem, heq⟩
    cases ins with
    | alloca | gate => cases heq
    | call m args =>
      dsimp only at heq
      split_ifs at heq with hm
      cases heq
      exact ⟨args, List.mem_zipIdx_iff_getElem?.mp hmem, hm⟩
  · rintro ⟨args, hi, hn⟩
    exact ⟨(.call n args, i), List.mem_zipIdx_iff_getElem?.mpr hi, if_pos hn⟩

theorem foldl_inlineCall {l : List ℕ} {W : Ident → Body} (hT : Inlining M b (W F) l)
    (hl : ∀ i ∈ l, ∃ n args b', b[i]? = some (.call n args) ∧ M.bodyOf n = some b' ∧ n ≠ F ∧
      Flattened M b' (instrs (W n))) :
    (∀ g, g ≠ F → (l.map fun i ↦ (F, i)).foldl inlineCall W g = W g) ∧
      Inlining M b ((l.map fun i ↦ (F, i)).foldl inlineCall W F) [] := by
  induction l generalizing W with
  | nil => exact ⟨fun g _ ↦ rfl, hT⟩
  | cons i l ih =>
    obtain ⟨⟨n, args, b', hi, hb', -, hflat⟩, hl⟩ := List.forall_mem_cons.mp hl
    have hself : inlineCall W (F, i) F = inlineFunction W (W F) i := Function.update_self ..
    have hother : ∀ g, g ≠ F → inlineCall W (F, i) g = W g := fun g hg ↦
      Function.update_of_ne hg _ _
    obtain ⟨hsame, hdone⟩ := ih (W := inlineCall W (F, i))
      (hself ▸ hT.step hi hb' hflat) fun j hj ↦ by
        obtain ⟨m, args, b', hj, hb', hne, hflat⟩ := hl j hj
        exact ⟨m, args, b', hj, hb', hne, (hother m hne).symm ▸ hflat⟩
    exact ⟨fun g hg ↦ (hsame g hg).trans (hother g hg), hdone⟩

/-! ## The walk -/

/-- The calls that are collected in a walk, from the functions that are to be leaves. -/
def collectFrom (M : Module) (FLAT : ℕ) (makeLeaf : List (Option Ident)) (L : List Ident) :
    List (Ident × ℕ) :=
  (L.foldl (runOnFunction M FLAT) ⟨makeLeaf, []⟩).inlineCallInsts

theorem foldl_runOnFunction (L : List Ident) (makeLeaf : List (Option Ident))
    (acc : List (Ident × ℕ)) :
    (L.foldl (runOnFunction M FLAT) ⟨makeLeaf, acc⟩).inlineCallInsts =
      acc ++ collectFrom M FLAT makeLeaf L := by
  induction L generalizing makeLeaf acc with
  | nil => exact (List.append_nil acc).symm
  | cons F L ih =>
    rw [collectFrom, List.foldl_cons, List.foldl_cons, runOnFunction, runOnFunction]
    split_ifs
    · rw [ih, ih, List.nil_append]
    · rw [ih, ih, List.nil_append, List.append_assoc]

/-- A function that is not to be a leaf is passed over. -/
theorem collectFrom_of_skipped {makeLeaf : List (Option Ident)} (L : List Ident)
    (h : FLAT = 0 ∧ some F ∉ makeLeaf) :
    collectFrom M FLAT makeLeaf (F :: L) = collectFrom M FLAT makeLeaf L := by
  rw [collectFrom, List.foldl_cons, runOnFunction, if_pos (by simpa using h), collectFrom]

/-- The calls of a function that is to be a leaf come before those of the functions after it. -/
theorem collectFrom_of_marked {makeLeaf : List (Option Ident)} (L : List Ident)
    (h : FLAT ≠ 0 ∨ some F ∈ makeLeaf) (hb : (M.bodyOf F).getD [] = b) :
    collectFrom M FLAT makeLeaf (F :: L) =
      ((definedCalls M b).map Prod.fst).map (fun i ↦ (F, i)) ++
        collectFrom M FLAT (makeLeaf ++ (definedCalls M b).map fun c ↦ some c.2) L := by
  have hnot : ¬ (FLAT = 0 ∧ ¬ makeLeaf.contains (some F)) := by
    rw [List.contains_iff_mem]
    tauto
  rw [collectFrom, List.foldl_cons, runOnFunction, if_neg hnot, hb, foldl_runOnFunction,
    List.nil_append, List.map_map]
  rfl

/-- The bodies after the calls that are collected in a walk are inlined. -/
def bodiesFrom (M : Module) (FLAT : ℕ) (makeLeaf : List (Option Ident)) (L : List Ident) :
    Ident → Body :=
  (collectFrom M FLAT makeLeaf L).reverse.foldl inlineCall (initialBodies M)

/-- Each function is before the functions it calls, and all of these are in the list. -/
def CallersFirst (M : Module) : List Ident → Prop
  | [] => True
  | F :: L => F ∉ L ∧ (∀ g, Calls M F g → g ∈ L) ∧ CallersFirst M L

/-- **The functions that are marked are flattened, and the others are as they were.** -/
theorem flattened_of_callersFirst (P : Program) (makeLeaf : List (Option Ident)) {L : List Ident}
    (hL : CallersFirst P.M L) :
    (∀ g, g ∉ L → bodiesFrom P.M FLAT makeLeaf L g = initialBodies P.M g) ∧
      ∀ g ∈ L, (FLAT ≠ 0 ∨ some g ∈ makeLeaf) → ∀ b, P.M.bodyOf g = some b →
        Flattened P.M b (instrs (bodiesFrom P.M FLAT makeLeaf L g)) := by
  induction L generalizing makeLeaf with
  | nil => exact ⟨fun _ _ ↦ rfl, fun g hg ↦ absurd hg List.not_mem_nil⟩
  | cons F L ih =>
    obtain ⟨hF, hcallees, hL⟩ := hL
    -- a function that is not marked is left alone, unless all are flattened
    by_cases hskip : FLAT = 0 ∧ some F ∉ makeLeaf
    · obtain ⟨hsame, hflat⟩ := ih makeLeaf hL
      rw [bodiesFrom, collectFrom_of_skipped L hskip, ← bodiesFrom]
      refine ⟨fun g hg ↦ hsame g fun h ↦ hg (List.mem_cons_of_mem _ h), fun g hg hmark ↦ ?_⟩
      rcases List.mem_cons.mp hg with rfl | hg
      · tauto
      · exact hflat g hg hmark
    · have hmark : FLAT ≠ 0 ∨ some F ∈ makeLeaf := by tauto
      obtain ⟨b, hb⟩ : ∃ b, (P.M.bodyOf F).getD [] = b := ⟨_, rfl⟩
      obtain ⟨hsame, hflat⟩ := ih (makeLeaf ++ (definedCalls P.M b).map fun c ↦ some c.2) hL
      have hW : bodiesFrom P.M FLAT makeLeaf (F :: L) =
          (((definedCalls P.M b).map Prod.fst).reverse.map fun i ↦ (F, i)).foldl inlineCall
            (bodiesFrom P.M FLAT (makeLeaf ++ (definedCalls P.M b).map fun c ↦ some c.2) L) := by
        rw [bodiesFrom, collectFrom_of_marked L hmark hb, List.reverse_append, List.foldl_append,
          List.map_reverse]
        rfl
      have hbody : ∀ (i : ℕ) (ins : Instr), b[i]? = some ins → P.M.bodyOf F = some b := by
        intro i ins hi
        cases hsome : P.M.bodyOf F with
        | none =>
          rw [hsome, Option.getD_none] at hb
          subst hb
          cases hi
        | some b' =>
          rw [hsome, Option.getD_some] at hb
          rw [hb]
      have hstart : Inlining P.M b (tagged b) ((definedCalls P.M b).map Prod.fst).reverse := by
        refine .start (fun ins hins ↦ ?_) (fun n args hmem ↦ ?_) fun i n args hi ↦ ?_
        · obtain ⟨i, hi⟩ := List.mem_iff_getElem?.mp hins
          exact P.bounded F b (hbody i ins hi) ins hins
        · obtain ⟨i, hi⟩ := List.mem_iff_getElem?.mp hmem
          exact P.known F b n args (hbody i _ hi) hmem
        · cases hn : P.M.bodyOf n with
          | none => exact .inl rfl
          | some b' =>
            refine .inr (List.mem_reverse.mpr (List.mem_map.mpr ⟨(i, n), ?_, rfl⟩))
            exact mem_definedCalls.mpr ⟨args, hi, hn ▸ rfl⟩
      -- the functions after it on the list never touch its body
      have hself : bodiesFrom P.M FLAT (makeLeaf ++ (definedCalls P.M b).map fun c ↦ some c.2) L F =
          tagged b := by
        rw [hsame F hF, initialBodies, hb]
      obtain ⟨hother, hdone⟩ := foldl_inlineCall (hself ▸ hstart) fun i hi ↦ by
        obtain ⟨⟨j, n⟩, hmem, rfl⟩ := List.mem_map.mp (List.mem_reverse.mp hi)
        obtain ⟨args, hj, hn⟩ := mem_definedCalls.mp hmem
        obtain ⟨b', hb'⟩ := Option.isSome_iff_exists.mp hn
        -- what it calls comes later on the list, so it is flat already
        have hcallee : n ∈ L := hcallees n ⟨b, args, hbody j _ hj, List.mem_of_getElem? hj⟩
        refine ⟨n, args, b', hj, hb', fun h ↦ hF (h ▸ hcallee), hflat n hcallee (.inr ?_) b' hb'⟩
        exact List.mem_append_right _ (List.mem_map.mpr ⟨_, hmem, rfl⟩)
      rw [hW]
      refine ⟨fun g hg ↦ ?_, fun g hg hgmark b' hb' ↦ ?_⟩
      · rw [List.mem_cons, not_or] at hg
        rw [hother g hg.1, hsame g hg.2]
      · rcases List.mem_cons.mp hg with rfl | hg
        · rw [hb', Option.getD_some] at hb
          exact hb ▸ hdone.flattened
        · rw [hother g fun h ↦ hF (h ▸ hg)]
          exact hflat g hg (hgmark.imp_right fun h ↦ List.mem_append_left _ h) b' hb'

/-! ## Every module -/

theorem callersFirst_reverse {P : Program} {order : List Ident} (horder : SccOrder P order)
    (hacyclic : P.Acyclic) : CallersFirst P.M order.reverse := by
  have hprefix : ∀ l₁ l₂ : List Ident, order = l₁ ++ l₂ → CallersFirst P.M l₁.reverse := by
    intro l₁
    induction l₁ using List.reverseRecOn with
    | nil => exact fun _ _ ↦ trivial
    | append_singleton l F ih =>
      intro l₂ h
      rw [List.append_assoc, List.singleton_append] at h
      have hnodup := List.nodup_middle.mp (h ▸ horder.nodup)
      have hF := (List.nodup_cons.mp hnodup).1
      rw [List.mem_append, not_or] at hF
      rw [List.reverse_append, List.reverse_singleton, List.singleton_append]
      refine ⟨fun hmem ↦ hF.1 (List.mem_reverse.mp hmem), fun g hg ↦ ?_, ih _ h⟩
      have hmem : F ∈ order := h ▸ List.mem_append_right _ List.mem_cons_self
      obtain ⟨a₁, a₂, ha, hga⟩ := horder.bottom_up F g hmem hg fun hback ↦
        hacyclic F (.head hg hback)
      obtain ⟨rfl, -, -⟩ := (List.append_cons_inj_of_notMem hF.1 hF.2).mp (h.symm.trans ha)
      exact List.mem_reverse.mpr hga
  exact hprefix order [] (List.append_nil order).symm

theorem getFunction_runOnModule {flat_info order : List Ident} (f : Ident) :
    (runOnModule M FLAT flat_info order).getFunction f = (M.getFunction f).map fun F ↦
      {F with body := F.body.map fun _ ↦ instrs (bodiesFrom M FLAT
        (flat_info.map fun n ↦ (M.getFunction n).map Function.name) order.reverse F.name)} :=
  List.find?_map ..

theorem bodyOf_runOnModule {flat_info order : List Ident} (f : Ident) :
    (runOnModule M FLAT flat_info order).bodyOf f = (M.bodyOf f).map fun _ ↦
      instrs (bodiesFrom M FLAT (flat_info.map fun n ↦ (M.getFunction n).map Function.name)
        order.reverse f) := by
  rw [Module.bodyOf, getFunction_runOnModule, Module.bodyOf]
  cases hF : M.getFunction f with
  | none => rfl
  | some F =>
    rw [Option.map_some, Option.bind_some, Option.bind_some, Module.name_of_getFunction hF]

/-- **A marked function that can be reached is flattened**, in every module with an acyclic call
graph. -/
theorem flattens (P : Program) (hacyclic : P.Acyclic) {order : List Ident}
    (horder : SccOrder P order) {FLAT : ℕ} {flat_info : List Ident} {f : Ident}
    (hmarked : FLAT ≠ 0 ∨ f ∈ flat_info) (hreach : P.Reachable f) :
    FlattenedIn P.M (runOnModule P.M FLAT flat_info order) f := by
  intro b hb
  have hmark : FLAT ≠ 0 ∨
      some f ∈ flat_info.map fun n ↦ (P.M.getFunction n).map Function.name := by
    refine hmarked.imp_right fun hf ↦ List.mem_map.mpr ⟨f, hf, ?_⟩
    obtain ⟨F, hF, -⟩ := Module.bodyOf_eq_some.mp hb
    rw [hF, Option.map_some, Module.name_of_getFunction hF]
  have hflat := (flattened_of_callersFirst P _ (callersFirst_reverse horder hacyclic)).2 f
    (List.mem_reverse.mpr ((horder.mem_iff f).mpr hreach)) hmark b hb
  -- the calls that are left are of functions without a body, before the pass and after it
  have hcalls : Flat (runOnModule P.M FLAT flat_info order) (instrs (bodiesFrom P.M FLAT
      (flat_info.map fun n ↦ (P.M.getFunction n).map Function.name) order.reverse f)) := by
    intro n args hmem
    obtain ⟨hn, hsome⟩ := hflat.flat n args hmem
    rw [bodyOf_runOnModule, hn, getFunction_runOnModule, Option.isSome_map]
    exact ⟨rfl, hsome⟩
  refine ⟨_, by rw [bodyOf_runOnModule, hb, Option.map_some], fun n args hmem ↦
    (hcalls n args hmem).1, fun ι ρ C ↦ ?_⟩
  rw [hflat.expands]
  simp only [hcalls.expands_iff]

/-! ## Two functions -/

/-- A function that applies a gate, and one that calls it. -/
def twoFunctions : Module :=
  [⟨"leaf".toList, some [.gate (.gate1 .H ⟨.qbit, .param 0, 0⟩)]⟩,
    ⟨"top".toList, some [.alloca .qbit 1, .call "leaf".toList [.qubit ⟨.qbit, .alloca 0, 0⟩]]⟩]

theorem eq_of_bodyOf_twoFunctions {f : Ident} {b : List Instr}
    (h : twoFunctions.bodyOf f = some b) :
    f = "leaf".toList ∧ b = [.gate (.gate1 .H ⟨.qbit, .param 0, 0⟩)] ∨
      f = "top".toList ∧
        b = [.alloca .qbit 1, .call "leaf".toList [.qubit ⟨.qbit, .alloca 0, 0⟩]] := by
  obtain ⟨F, hF, hb⟩ := Module.bodyOf_eq_some.mp h
  obtain rfl := Module.name_of_getFunction hF
  rcases List.mem_cons.mp (Module.mem_of_getFunction hF) with rfl | hF
  · exact .inl ⟨rfl, (Option.some.inj hb).symm⟩
  · obtain rfl := List.mem_singleton.mp hF
    exact .inr ⟨rfl, (Option.some.inj hb).symm⟩

theorem eq_of_calls_twoFunctions {f g : Ident} (h : Calls twoFunctions f g) :
    f = "top".toList ∧ g = "leaf".toList := by
  obtain ⟨b, args, hb, hmem⟩ := h
  rcases eq_of_bodyOf_twoFunctions hb with ⟨rfl, rfl⟩ | ⟨rfl, rfl⟩
  · cases List.mem_singleton.mp hmem
  · rcases List.mem_cons.mp hmem with heq | hmem
    · cases heq
    · cases List.mem_singleton.mp hmem
      exact ⟨rfl, rfl⟩

theorem calls_top_leaf : Calls twoFunctions "top".toList "leaf".toList :=
  ⟨_, _, rfl, List.mem_cons_of_mem _ (List.mem_singleton_self _)⟩

/-- The program in which the functions that can be called from outside are given. -/
def twoFunctionsFrom (external : Set Ident) : Program where
  M := twoFunctions
  external := external
  nodup := by decide
  known f b n args hb hmem := by
    rw [(eq_of_calls_twoFunctions ⟨b, args, hb, hmem⟩).2]
    rfl
  bounded f b hb := by
    rcases eq_of_bodyOf_twoFunctions hb with ⟨rfl, rfl⟩ | ⟨rfl, rfl⟩
    · intro i hi o ho a ha
      rw [List.mem_singleton.mp hi] at ho
      rw [List.mem_singleton.mp ho] at ha
      cases ha
    · intro i hi o ho a ha
      rcases List.mem_cons.mp hi with rfl | hi
      · cases ho
      · rw [List.mem_singleton.mp hi] at ho
        rw [List.mem_singleton.mp ho] at ha
        cases ha
        decide

theorem acyclic_twoFunctionsFrom (external : Set Ident) :
    (twoFunctionsFrom external).Acyclic := by
  intro f hf
  obtain ⟨g, hfg, -⟩ := TransGen.head'_iff.mp hf
  obtain ⟨h, -, hhf⟩ := TransGen.tail'_iff.mp hf
  exact absurd ((eq_of_calls_twoFunctions hfg).1.symm.trans (eq_of_calls_twoFunctions hhf).2)
    (by decide)

/-- The caller is enumerated last when it can be called from outside. -/
theorem sccOrder_top :
    SccOrder (twoFunctionsFrom {"top".toList}) ["leaf".toList, "top".toList] where
  nodup := by decide
  mem_iff f := by
    constructor
    · intro hf
      rcases List.mem_cons.mp hf with rfl | hf
      · exact ⟨_, rfl, rfl, .single calls_top_leaf⟩
      · obtain rfl := List.mem_singleton.mp hf
        exact ⟨_, rfl, rfl, .refl⟩
    · rintro ⟨e, rfl, -, h⟩
      rcases h.cases_tail with rfl | ⟨g, -, hg⟩
      · exact List.mem_cons_of_mem _ (List.mem_singleton_self _)
      · exact (eq_of_calls_twoFunctions hg).2 ▸ List.mem_cons_self
  bottom_up f g _ h _ := by
    obtain ⟨rfl, rfl⟩ := eq_of_calls_twoFunctions h
    exact ⟨_, _, rfl, List.mem_singleton_self _⟩

theorem flattens_top : FlattenedIn twoFunctions
    (runOnModule twoFunctions 1 [] ["leaf".toList, "top".toList]) "top".toList :=
  flattens (twoFunctionsFrom {"top".toList}) (acyclic_twoFunctionsFrom _) sccOrder_top
    (.inl one_ne_zero) ⟨_, rfl, rfl, .refl⟩

/-- The caller is not enumerated when only the other function can be called from outside. -/
theorem sccOrder_leaf : SccOrder (twoFunctionsFrom {"leaf".toList}) ["leaf".toList] where
  nodup := List.nodup_singleton _
  mem_iff f := by
    constructor
    · intro hf
      obtain rfl := List.mem_singleton.mp hf
      exact ⟨_, rfl, rfl, .refl⟩
    · rintro ⟨e, rfl, -, h⟩
      rcases h.cases_head with rfl | ⟨g, hg, -⟩
      · exact List.mem_singleton_self _
      · exact absurd (eq_of_calls_twoFunctions hg).1 (by decide)
  bottom_up f g hf h _ := by
    rw [(eq_of_calls_twoFunctions h).1] at hf
    exact absurd hf (by decide)

/-- Then it keeps its call, with `-all=1`. -/
theorem not_flattens_leaf : ¬ ∀ (P : Program) (order flat_info : List Ident) (FLAT : ℕ)
    (f : Ident), P.Acyclic → SccOrder P order → (FLAT ≠ 0 ∨ f ∈ flat_info) →
      FlattenedIn P.M (runOnModule P.M FLAT flat_info order) f := by
  intro h
  obtain ⟨b', hb', hcalls, -⟩ := h _ _ [] 1 "top".toList (acyclic_twoFunctionsFrom _) sccOrder_leaf
    (.inl one_ne_zero) _ rfl
  have hbody : (runOnModule twoFunctions 1 [] ["leaf".toList]).bodyOf "top".toList =
      twoFunctions.bodyOf "top".toList := by decide +kernel
  obtain rfl := Option.some.inj (hb'.symm.trans hbody)
  exact absurd (hcalls _ _ (List.mem_cons_of_mem _ (List.mem_singleton_self _))) (by decide +kernel)

end ScaffCC.Flatten
