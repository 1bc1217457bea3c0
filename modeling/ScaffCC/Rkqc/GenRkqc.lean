import ScaffCC.IR.Gate
import ScaffCC.Reversible.Circuit

/-!
# Lowering reversible calls

The pass visits every call of an intrinsic whose name has `rkqc` in it and tells the operations
apart by searching the rest of the name. Five operations become calls of implementation functions,
which are appended to the module the first time they are needed and found by name from then on; the
other three become gates in place.

## What a lowered body means

An implementation is expanded at each of its calls, and the ancillas it allocates are wires of their
own at each call, that start at zero. A gate intrinsic has a meaning with the operands it is
declared with, and none with more.

## What each call preserves

`Right fs c` says that the expansion of the lowered call does to the qubits what the operation `c`
does, when the ancillas of the call are zero, and leaves the ancillas of other calls alone. A body
is run call by call with the ancillas of the calls to come at zero.
-/

namespace ScaffCC.GenRkqc

open Reversible (Gate run)

/-! ## Calls -/

/-- An argument of a call. -/
inductive Value (ι : Type*)
  | bit (q : ι)
  | int (n : ℤ)
deriving DecidableEq

/-- What is called: a gate intrinsic, an intrinsic by its name, or a function. -/
inductive Callee
  | X
  | CNOT
  | Toffoli
  | intrinsic (name : Ident)
  | function (name : Ident)
deriving DecidableEq

structure CallInst (ι : Type*) where
  callee : Callee
  args : List (Value ι)
deriving DecidableEq

/-- A value of an implementation: a parameter or an ancilla. -/
inductive Local
  | param (k : ℕ)
  | ancilla (name : Ident)
deriving DecidableEq

/-- An implementation, that is inlined at its calls. -/
structure Function where
  params : ℕ
  body : List (CallInst Local)
deriving DecidableEq

abbrev Functions := List (Ident × Function)

/-! ## Searching names -/

/-- The first position of a fragment. -/
def find (fragment : Ident) : Ident → Option ℕ
  | [] => if fragment.isEmpty then some 0 else none
  | c :: cs => if fragment.isPrefixOf (c :: cs) then some 0 else (find fragment cs).map (· + 1)

/-- The name has the fragment. -/
def contains (name fragment : Ident) : Bool := (find fragment name).isSome

/-- The part of the name after `rkqc` and one more character, as long as the distance of `rkqc` and
a bracket when there is one. -/
def rkqcFuncName (name : Ident) : Ident :=
  let funcLoc := (find "rkqc".toList name).getD name.length
  let rest := name.drop (funcLoc + 5)
  match find ['('] name with
  | some funcNameEnd => rest.take (funcNameEnd - funcLoc)
  | none => rest

/-! ## Implementations -/

def param (k : ℕ) : Value Local := .bit (.param k)

def createAncilla (name : Ident) : Value Local := .bit (.ancilla ("ancilla_".toList ++ name))

/-- A call of the controlled negation. -/
def gateCNOT (control target : Value Local) : CallInst Local := ⟨.CNOT, [control, target]⟩

def swapImpl : Function :=
  { params := 2
    body := [gateCNOT (param 0) (param 1), gateCNOT (param 1) (param 0),
      gateCNOT (param 0) (param 1)] }

def assignBImpl : Function :=
  let target := param 0
  let control := param 1
  let ancilla := createAncilla "zg".toList
  { params := 2
    body := [gateCNOT target ancilla, gateCNOT ancilla target, gateCNOT control target] }

def assign0Impl : Function :=
  let target := param 0
  let control := createAncilla "zero_zero".toList
  let ancilla := createAncilla "zero_garbage".toList
  { params := 2
    body := [gateCNOT target ancilla, gateCNOT ancilla target, gateCNOT control target] }

def assign1Impl : Function :=
  let target := param 0
  let control := createAncilla "one_one".toList
  let ancilla := createAncilla "zero_garbage".toList
  { params := 2
    body := [gateCNOT target ancilla, gateCNOT ancilla target, gateCNOT control target] }

def plusImpl : Function :=
  let a := param 0
  let b := param 1
  let g := createAncilla "zg".toList
  let z := createAncilla "zz".toList
  { params := 3
    body := [gateCNOT a g, gateCNOT b z, gateCNOT a b, ⟨.Toffoli, [b, g, a]⟩, gateCNOT z g,
      gateCNOT z b, gateCNOT z b, gateCNOT b z, gateCNOT z b, gateCNOT g a, gateCNOT a g,
      gateCNOT g a] }

/-! ## The pass -/

variable {ι : Type*}

/-- The module with the implementation, which is appended when there is none of the name. -/
def addFunction (fs : Functions) (name : Ident) (f : Function) : Functions :=
  if (fs.lookup name).isSome then fs else fs ++ [(name, f)]

/-- A call of an implementation in the place of another call, with its first arguments. -/
def create (fs : Functions) (i : CallInst ι) (rkqcName : Ident) (f : Function) :
    Functions × CallInst ι :=
  (addFunction fs rkqcName f, ⟨.function rkqcName, i.args.take f.params⟩)

/-- The visit of a call: the functions of the module and the call in its place. -/
def visitCallInst (fs : Functions) (i : CallInst ι) : Functions × CallInst ι :=
  match i.callee with
  | .intrinsic name =>
    if contains name "rkqc".toList then
      let funcName := rkqcFuncName name
      let rkqcName := funcName ++ "_impl".toList
      if contains funcName "a_swap_b".toList then create fs i rkqcName swapImpl
      else if contains funcName "assign_value_of_b_to_a".toList then
        create fs i rkqcName assignBImpl
      else if contains funcName "a_eq_a_plus_b".toList then create fs i rkqcName plusImpl
      else if contains funcName "assign_value_of_0_to_a".toList then
        create fs i rkqcName assign0Impl
      else if contains funcName "assign_value_of_1_to_a".toList then
        create fs i rkqcName assign1Impl
      -- the last three are lowered in place
      else if contains funcName "toffoli".toList then (fs, ⟨.Toffoli, i.args.take 3⟩)
      else if contains funcName "NOT".toList then (fs, ⟨.X, i.args.take 1⟩)
      else if contains funcName "cnot".toList then (fs, ⟨.X, i.args.take 2⟩)
      else (fs, i)
    else (fs, i)
  | _ => (fs, i)

/-- The visit of a body, first call first. -/
def visitBody (fs : Functions) : List (CallInst ι) → Functions × List (CallInst ι)
  | [] => (fs, [])
  | i :: is =>
    let v := visitCallInst fs i
    let w := visitBody v.1 is
    (w.1, v.2 :: w.2)

def visitModule (fs : Functions) : List (List (CallInst ι)) → Functions × List (List (CallInst ι))
  | [] => (fs, [])
  | body :: bodies =>
    let v := visitBody fs body
    let w := visitModule v.1 bodies
    (w.1, v.2 :: w.2)

/-! ## The gates of a body -/

/-- The wires of a body: its qubits, and the ancillas of each of its calls. -/
abbrev Wire (ι : Type*) := ι ⊕ ℕ × Ident

/-- The gate that is called, nothing when the operands are not those it is declared with. -/
def gateOf : Callee → List (Value (Wire ι)) → Option (Gate (Wire ι))
  | .X, [.bit q] => some ⟨[], q⟩
  | .CNOT, [.bit c, .bit t] => some ⟨[c], t⟩
  | .Toffoli, [.bit c, .bit d, .bit t] => some ⟨[c, d], t⟩
  | _, _ => none

/-- A value of a body on its wires. -/
def Value.outer : Value ι → Value (Wire ι)
  | .bit q => .bit (.inl q)
  | .int n => .int n

/-- A value of an implementation that is inlined at a call with the arguments. -/
def Value.inlined (args : List (Value ι)) (site : ℕ) : Value Local → Value (Wire ι)
  | .bit (.param k) => (args[k]?.map outer).getD (.int 0)
  | .bit (.ancilla name) => .bit (.inr (site, name))
  | .int n => .int n

def expandCall (fs : Functions) (site : ℕ) (i : CallInst ι) : Option (List (Gate (Wire ι))) :=
  match i.callee with
  | .function name =>
    (fs.lookup name).bind fun f ↦
      f.body.mapM fun j ↦ gateOf j.callee (j.args.map (Value.inlined i.args site))
  | callee => (gateOf callee (i.args.map Value.outer)).map fun g ↦ [g]

/-- The gates of a body, whose first call has the number `site`. -/
def expandBody (fs : Functions) : ℕ → List (CallInst ι) → Option (List (Gate (Wire ι)))
  | _, [] => some []
  | site, i :: is => do
    let gates ← expandCall fs site i
    let rest ← expandBody fs (site + 1) is
    return gates ++ rest

/-! ## The operations -/

/-- The operations on qubits of one bit, with their operands. -/
inductive RkqcCall (ι : Type*)
  | a_swap_b (a b : ι)
  | assign_value_of_b_to_a (a b : ι)
  | assign_value_of_0_to_a (a : ι)
  | assign_value_of_1_to_a (a : ι)
  | a_eq_a_plus_b (a b : ι)
  | toffoli (control1 control2 target : ι)
  | NOT (target : ι)
  | cnot (control target : ι)
deriving DecidableEq

namespace RkqcCall

def baseName : RkqcCall ι → Ident
  | a_swap_b .. => "a_swap_b".toList
  | assign_value_of_b_to_a .. => "assign_value_of_b_to_a".toList
  | assign_value_of_0_to_a .. => "assign_value_of_0_to_a".toList
  | assign_value_of_1_to_a .. => "assign_value_of_1_to_a".toList
  | a_eq_a_plus_b .. => "a_eq_a_plus_b".toList
  | toffoli .. => "toffoli".toList
  | NOT .. => "NOT".toList
  | cnot .. => "cnot".toList

def operands : RkqcCall ι → List ι
  | a_swap_b a b | assign_value_of_b_to_a a b | a_eq_a_plus_b a b => [a, b]
  | assign_value_of_0_to_a a | assign_value_of_1_to_a a => [a]
  | toffoli c d t => [c, d, t]
  | NOT t => [t]
  | cnot c t => [c, t]

/-- The number of bits, for the operations on numbers. -/
def size : RkqcCall ι → List (Value ι)
  | a_swap_b .. | assign_value_of_b_to_a .. | a_eq_a_plus_b .. | assign_value_of_0_to_a .. |
    assign_value_of_1_to_a .. => [.int 1]
  | toffoli .. | NOT .. | cnot .. => []

/-- The name of the operation, for operands that are qubits. -/
def typedName (c : RkqcCall ι) : Ident := c.baseName ++ c.operands.flatMap fun _ ↦ ".i16".toList

/-- The call in the source of the pass. -/
def inst (c : RkqcCall ι) : CallInst ι :=
  ⟨.intrinsic ("llvm.rkqc.".toList ++ c.typedName), c.operands.map .bit ++ c.size⟩

/-- What the operation does to the bits of the qubits. -/
def act [DecidableEq ι] (s : ι → Bool) : RkqcCall ι → ι → Bool
  | a_swap_b a b => Function.update (Function.update s a (s b)) b (s a)
  | assign_value_of_b_to_a a b => Function.update s a (s b)
  | assign_value_of_0_to_a a => Function.update s a false
  | assign_value_of_1_to_a a => Function.update s a true
  | a_eq_a_plus_b a b => Function.update s a (s a ^^ s b)
  | toffoli c d t => Function.update s t (s t ^^ (s c && s d))
  | NOT t => Function.update s t (!s t)
  | cnot c t => Function.update s t (s t ^^ s c)

def impl : RkqcCall ι → Option Function
  | a_swap_b .. => some swapImpl
  | assign_value_of_b_to_a .. => some assignBImpl
  | assign_value_of_0_to_a .. => some assign0Impl
  | assign_value_of_1_to_a .. => some assign1Impl
  | a_eq_a_plus_b .. => some plusImpl
  | toffoli .. | NOT .. | cnot .. => none

def implName (c : RkqcCall ι) : Ident := c.typedName ++ "_impl".toList

/-- The call that the pass leaves. -/
def lowered : RkqcCall ι → CallInst ι
  | toffoli c d t => ⟨.Toffoli, [.bit c, .bit d, .bit t]⟩
  | NOT t => ⟨.X, [.bit t]⟩
  | cnot c t => ⟨.X, [.bit c, .bit t]⟩
  | c => ⟨.function c.implName, c.inst.args.take ((c.impl.map Function.params).getD 0)⟩

def functionsAfter (fs : Functions) (c : RkqcCall ι) : Functions :=
  match c.impl with
  | some f => addFunction fs c.implName f
  | none => fs

/-- **The searches tell the operations apart.** -/
theorem visitCallInst_inst (fs : Functions) (c : RkqcCall ι) :
    visitCallInst fs c.inst = (c.functionsAfter fs, c.lowered) := by
  cases c <;> rfl

end RkqcCall

/-! ## The circuits of the implementations -/

/-- Three controlled negations. -/
def swapCircuit : List (Gate (Fin 2)) := [⟨[0], 1⟩, ⟨[1], 0⟩, ⟨[0], 1⟩]

/-- The bit of the second wire goes to the first, and that of the first to the ancilla. -/
def assignCircuit : List (Gate (Fin 3)) := [⟨[0], 2⟩, ⟨[2], 0⟩, ⟨[1], 0⟩]

/-- The bit of the second wire is added to the first, with two ancillas. -/
def plusCircuit : List (Gate (Fin 4)) :=
  [⟨[0], 2⟩, ⟨[1], 3⟩, ⟨[0], 1⟩, ⟨[1, 2], 0⟩, ⟨[3], 2⟩, ⟨[3], 1⟩, ⟨[3], 1⟩, ⟨[1], 3⟩, ⟨[3], 1⟩,
    ⟨[2], 0⟩, ⟨[0], 2⟩, ⟨[2], 0⟩]

theorem run_swapCircuit (x y : Bool) : run swapCircuit ![x, y] = ![y, x] := by
  decide +revert

theorem run_assignCircuit (x y : Bool) : run assignCircuit ![x, y, false] = ![y, y, x] := by
  decide +revert

theorem run_plusCircuit (x y : Bool) :
    run plusCircuit ![x, y, false, false] = ![x ^^ y, y, x && y, x] := by
  decide +revert

/-! ## One call -/

section OneCall

variable [DecidableEq ι] {site : ℕ}

/-- Gates that change the qubits as given when the ancillas of a call are zero, and leave the
ancillas of the other calls alone. -/
def Acts (site : ℕ) (gates : List (Gate (Wire ι))) (f : (ι → Bool) → ι → Bool) : Prop :=
  ∀ s : Wire ι → Bool, (∀ name, s (.inr (site, name)) = false) →
    (∀ q, run gates s (.inl q) = f (s ∘ .inl) q) ∧
      ∀ other name, other ≠ site → run gates s (.inr (other, name)) = s (.inr (other, name))

theorem acts_gate (g : Gate ι) : Acts site [g.map .inl] fun s ↦ g.act s := by
  intro s _
  obtain ⟨hin, hout⟩ := Reversible.run_map_of_injective Sum.inl_injective [g] s
  exact ⟨hin, fun other name _ ↦ hout _ (by simp)⟩

private theorem acts_circuit {n : ℕ} {wires : Fin n → Wire ι} (hwires : Function.Injective wires)
    {circuit : List (Gate (Fin n))} {f : (ι → Bool) → ι → Bool}
    (hanc : ∀ i other name, wires i = .inr (other, name) → other = site)
    (hvalue : ∀ s : Wire ι → Bool, (∀ name, s (.inr (site, name)) = false) →
      ∀ i q, wires i = .inl q → run circuit (s ∘ wires) i = f (s ∘ .inl) q)
    (hkeep : ∀ (s : ι → Bool) q, (∀ i, wires i ≠ .inl q) → f s q = s q) :
    Acts site (circuit.map (Gate.map wires)) f := by
  intro s hs
  obtain ⟨hin, hout⟩ := Reversible.run_map_of_injective hwires circuit s
  refine ⟨fun q ↦ ?_, fun other name hother ↦ hout _ ?_⟩
  · by_cases hq : ∃ i, wires i = .inl q
    · obtain ⟨i, hi⟩ := hq
      rw [← hi, hin, hvalue s hs i q hi]
    · rw [hout _ fun ⟨i, hi⟩ ↦ hq ⟨i, hi⟩, hkeep _ q (not_exists.mp hq)]
      rfl
  · rintro ⟨i, hi⟩
    exact hother (hanc i other name hi)

theorem acts_swap {a b : ι} (hab : a ≠ b) :
    Acts site (swapCircuit.map (Gate.map ![.inl a, .inl b]))
      fun s ↦ RkqcCall.act s (.a_swap_b a b) := by
  have hwires : Function.Injective (![.inl a, .inl b] : Fin 2 → Wire ι) := by
    intro i j
    fin_cases i <;> fin_cases j <;> simp [hab, hab.symm]
  refine acts_circuit hwires ?_ ?_ ?_
  · intro i other name hi
    fin_cases i <;> exact nomatch hi
  · intro s hs i q hi
    have hstate : s ∘ ![.inl a, .inl b] = ![s (.inl a), s (.inl b)] := by
      funext i
      fin_cases i <;> rfl
    rw [hstate, run_swapCircuit]
    fin_cases i <;> obtain rfl := Sum.inl.inj hi <;> simp [RkqcCall.act, hab]
  · intro s q hq
    have ha : q ≠ a := fun h ↦ hq 0 (h ▸ rfl)
    have hb : q ≠ b := fun h ↦ hq 1 (h ▸ rfl)
    simp [RkqcCall.act, ha, hb]

private theorem acts_assign {a : ι} {w : Wire ι} {g : Ident} (hwa : w ≠ .inl a)
    (hwg : w ≠ .inr (site, g)) (hwanc : ∀ other name, w = .inr (other, name) → other = site)
    {v : (ι → Bool) → Bool}
    (hv : ∀ s : Wire ι → Bool, (∀ name, s (.inr (site, name)) = false) → s w = v (s ∘ .inl))
    (hkeep : ∀ s b, w = .inl b → v s = s b) :
    Acts site (assignCircuit.map (Gate.map ![.inl a, w, .inr (site, g)]))
      fun s ↦ Function.update s a (v s) := by
  have hwires : Function.Injective (![.inl a, w, .inr (site, g)] : Fin 3 → Wire ι) := by
    intro i j
    fin_cases i <;> fin_cases j <;> simp [hwa, hwa.symm, hwg, hwg.symm]
  refine acts_circuit hwires ?_ ?_ ?_
  · intro i other name hi
    fin_cases i
    · exact nomatch hi
    · exact hwanc other name hi
    · exact (congrArg Prod.fst (Sum.inr.inj hi)).symm
  · intro s hs i q hi
    have hstate : s ∘ ![.inl a, w, .inr (site, g)] = ![s (.inl a), s w, false] := by
      funext i
      fin_cases i
      · rfl
      · rfl
      · exact hs g
    rw [hstate, run_assignCircuit, hv s hs]
    fin_cases i
    · obtain rfl := Sum.inl.inj hi
      simp
    · have hqa : q ≠ a := fun h ↦ hwa (hi.trans (h ▸ rfl))
      rw [Function.update_of_ne hqa]
      exact hkeep _ q hi
    · exact nomatch hi
  · intro s q hq
    have ha : q ≠ a := fun h ↦ hq 0 (h ▸ rfl)
    exact Function.update_of_ne ha ..

theorem acts_plus {a b : ι} (hab : a ≠ b) :
    Acts site (plusCircuit.map (Gate.map
        ![.inl a, .inl b, .inr (site, "ancilla_zg".toList), .inr (site, "ancilla_zz".toList)]))
      fun s ↦ RkqcCall.act s (.a_eq_a_plus_b a b) := by
  have hwires : Function.Injective (![.inl a, .inl b, .inr (site, "ancilla_zg".toList),
      .inr (site, "ancilla_zz".toList)] : Fin 4 → Wire ι) := by
    intro i j
    fin_cases i <;> fin_cases j <;> simp [hab, hab.symm]
  refine acts_circuit hwires ?_ ?_ ?_
  · intro i other name hi
    fin_cases i
    · exact nomatch hi
    · exact nomatch hi
    · exact (congrArg Prod.fst (Sum.inr.inj hi)).symm
    · exact (congrArg Prod.fst (Sum.inr.inj hi)).symm
  · intro s hs i q hi
    have hstate : s ∘ ![.inl a, .inl b, .inr (site, "ancilla_zg".toList),
        .inr (site, "ancilla_zz".toList)] = ![s (.inl a), s (.inl b), false, false] := by
      funext i
      fin_cases i
      · rfl
      · rfl
      · exact hs _
      · exact hs _
    rw [hstate, run_plusCircuit]
    fin_cases i
    · obtain rfl := Sum.inl.inj hi
      simp [RkqcCall.act]
    · obtain rfl := Sum.inl.inj hi
      simp [RkqcCall.act, hab.symm]
    · exact nomatch hi
    · exact nomatch hi
  · intro s q hq
    have ha : q ≠ a := fun h ↦ hq 0 (h ▸ rfl)
    exact Function.update_of_ne ha ..

/-- What a call is lowered to acts as this: the set operation clears. -/
def RkqcCall.loweredAct (s : ι → Bool) : RkqcCall ι → ι → Bool
  | .assign_value_of_1_to_a a => Function.update s a false
  | c => c.act s

/-- The functions of the module have the implementation of the call. -/
def Implemented (fs : Functions) (c : RkqcCall ι) : Prop :=
  ∀ f, c.impl = some f → fs.lookup c.implName = some f

variable (site) in
/-- **One call**: except for `cnot`, a lowered call has gates, and they act as the operation, but
for the set operation, which clears. -/
theorem expandCall_lowered {fs : Functions} {c : RkqcCall ι} (hfs : Implemented fs c)
    (hc : c.operands.Nodup) (hcnot : ∀ a b, c ≠ .cnot a b) :
    ∃ gates, expandCall fs site c.lowered = some gates ∧ Acts site gates c.loweredAct := by
  cases c with
  | a_swap_b a b =>
    have hab : a ≠ b := by simpa [RkqcCall.operands] using hc
    refine ⟨_, ?_, acts_swap hab⟩
    simp only [expandCall, RkqcCall.lowered, hfs _ rfl]
    rfl
  | assign_value_of_b_to_a a b =>
    have hab : a ≠ b := by simpa [RkqcCall.operands] using hc
    refine ⟨_, ?_, acts_assign (a := a) (w := .inl b) (g := "ancilla_zg".toList)
      (v := fun s ↦ s b) (fun h ↦ hab (Sum.inl.inj h).symm) (fun h ↦ nomatch h)
      (fun _ _ h ↦ nomatch h) (fun _ _ ↦ rfl) (fun s q h ↦ congrArg s (Sum.inl.inj h))⟩
    simp only [expandCall, RkqcCall.lowered, hfs _ rfl]
    rfl
  | assign_value_of_0_to_a a =>
    refine ⟨_, ?_, acts_assign (a := a) (w := .inr (site, "ancilla_zero_zero".toList))
      (g := "ancilla_zero_garbage".toList) (v := fun _ ↦ false) (fun h ↦ nomatch h) (by simp)
      (fun _ _ h ↦ (congrArg Prod.fst (Sum.inr.inj h)).symm) (fun s hs ↦ hs _)
      (fun _ _ h ↦ nomatch h)⟩
    simp only [expandCall, RkqcCall.lowered, hfs _ rfl]
    rfl
  | assign_value_of_1_to_a a =>
    refine ⟨_, ?_, acts_assign (a := a) (w := .inr (site, "ancilla_one_one".toList))
      (g := "ancilla_zero_garbage".toList) (v := fun _ ↦ false) (fun h ↦ nomatch h) (by simp)
      (fun _ _ h ↦ (congrArg Prod.fst (Sum.inr.inj h)).symm) (fun s hs ↦ hs _)
      (fun _ _ h ↦ nomatch h)⟩
    simp only [expandCall, RkqcCall.lowered, hfs _ rfl]
    rfl
  | a_eq_a_plus_b a b =>
    have hab : a ≠ b := by simpa [RkqcCall.operands] using hc
    refine ⟨_, ?_, acts_plus hab⟩
    simp only [expandCall, RkqcCall.lowered, hfs _ rfl]
    rfl
  | toffoli a b t =>
    have hact (s : ι → Bool) : (⟨[a, b], t⟩ : Gate ι).act s = RkqcCall.act s (.toffoli a b t) := by
      funext q
      simp only [Gate.act_apply, Gate.fires, List.all_cons, List.all_nil, Bool.and_true,
        RkqcCall.act, Function.update_apply]
      split_ifs with hq
      · rw [hq]
      · rfl
    exact ⟨_, rfl, funext hact ▸ acts_gate ⟨[a, b], t⟩⟩
  | NOT t =>
    have hact (s : ι → Bool) : (⟨[], t⟩ : Gate ι).act s = RkqcCall.act s (.NOT t) := by
      funext q
      simp only [Gate.act_apply, Gate.fires, List.all_nil, Bool.xor_true, RkqcCall.act,
        Function.update_apply]
      split_ifs with hq
      · rw [hq]
      · rfl
    exact ⟨_, rfl, funext hact ▸ acts_gate ⟨[], t⟩⟩
  -- the branch for `cnot` leaves the call in place
  | cnot a b => exact absurd rfl (hcnot a b)

end OneCall

/-! ## The implementations in the module -/

/-- The functions under the names of implementations are these. -/
def Sound (ι : Type*) (fs : Functions) : Prop :=
  ∀ (c : RkqcCall ι) f g, c.impl = some f → fs.lookup c.implName = some g → g = f

private def implOf (name : Ident) : Option Function :=
  if contains name "a_swap_b".toList then some swapImpl
  else if contains name "assign_value_of_b_to_a".toList then some assignBImpl
  else if contains name "a_eq_a_plus_b".toList then some plusImpl
  else if contains name "assign_value_of_0_to_a".toList then some assign0Impl
  else if contains name "assign_value_of_1_to_a".toList then some assign1Impl
  else none

private theorem implOf_implName (c : RkqcCall ι) : implOf c.implName = c.impl := by
  cases c <;> rfl

theorem sound_nil : Sound ι [] := fun _ _ _ _ h ↦ nomatch h

private theorem lookup_append_self {fs : Functions} {name : Ident} (f : Function)
    (h : fs.lookup name = none) : (fs ++ [(name, f)]).lookup name = some f := by
  rw [List.lookup_append, h, Option.none_or, List.lookup_cons_self]

theorem lookup_functionsAfter {fs : Functions} {name : Ident} {f : Function}
    (h : fs.lookup name = some f) (c : RkqcCall ι) :
    (c.functionsAfter fs).lookup name = some f := by
  rw [RkqcCall.functionsAfter]
  cases c.impl with
  | none => exact h
  | some g =>
    dsimp only
    rw [addFunction]
    split_ifs
    · exact h
    · rw [List.lookup_append, h, Option.some_or]

theorem sound_functionsAfter {fs : Functions} (hfs : Sound ι fs) (c : RkqcCall ι) :
    Sound ι (c.functionsAfter fs) := by
  rw [RkqcCall.functionsAfter]
  cases hc : c.impl with
  | none => exact hfs
  | some f =>
    dsimp only
    rw [addFunction]
    split_ifs
    · exact hfs
    · intro d g g' hd hg'
      rw [List.lookup_append] at hg'
      cases hold : fs.lookup d.implName with
      | some g'' =>
        rw [hold, Option.some_or] at hg'
        exact Option.some.inj hg' ▸ hfs d g g'' hd hold
      | none =>
        rw [hold, Option.none_or] at hg'
        by_cases hname : d.implName = c.implName
        · have himpl : d.impl = c.impl := by
            rw [← implOf_implName, ← implOf_implName, hname]
          rw [hname, List.lookup_cons_self] at hg'
          exact Option.some.inj (hg'.symm.trans (hc.symm.trans (himpl.symm.trans hd)))
        · rw [List.lookup_cons, beq_false_of_ne hname] at hg'
          exact nomatch hg'

theorem implemented_functionsAfter {fs : Functions} (hfs : Sound ι fs) (c : RkqcCall ι) :
    Implemented (c.functionsAfter fs) c := by
  intro f hf
  rw [RkqcCall.functionsAfter, hf]
  dsimp only
  rw [addFunction]
  cases hlookup : fs.lookup c.implName with
  | some g => rw [Option.isSome_some, if_pos rfl, hlookup, hfs c f g hf hlookup]
  | none => exact lookup_append_self f hlookup

theorem Implemented.functionsAfter {fs : Functions} {c : RkqcCall ι} (h : Implemented fs c)
    (d : RkqcCall ι) : Implemented (d.functionsAfter fs) c :=
  fun f hf ↦ lookup_functionsAfter (h f hf) d

/-- **The visit of a body**: the calls are lowered, and the module has their implementations. -/
theorem visitBody_inst {fs : Functions} (hfs : Sound ι fs) (calls : List (RkqcCall ι)) :
    ∃ fs', visitBody fs (calls.map RkqcCall.inst) = (fs', calls.map RkqcCall.lowered) ∧
      Sound ι fs' ∧ (∀ c ∈ calls, Implemented fs' c) ∧
        ∀ c : RkqcCall ι, Implemented fs c → Implemented fs' c := by
  induction calls generalizing fs with
  | nil => exact ⟨fs, rfl, hfs, fun _ h ↦ absurd h List.not_mem_nil, fun _ h ↦ h⟩
  | cons c calls ih =>
    obtain ⟨fs', hvisit, hsound, himpl, hkeep⟩ := ih (sound_functionsAfter hfs c)
    refine ⟨fs', ?_, hsound, List.forall_mem_cons.mpr
      ⟨hkeep c (implemented_functionsAfter hfs c), himpl⟩, fun d hd ↦ hkeep d (hd.functionsAfter c)⟩
    rw [List.map_cons, visitBody, RkqcCall.visitCallInst_inst]
    dsimp only
    rw [hvisit, List.map_cons]

theorem visitModule_inst {fs : Functions} (hfs : Sound ι fs) (bodies : List (List (RkqcCall ι))) :
    ∃ fs', visitModule fs (bodies.map fun calls ↦ calls.map RkqcCall.inst) =
        (fs', bodies.map fun calls ↦ calls.map RkqcCall.lowered) ∧
      (∀ calls ∈ bodies, ∀ c ∈ calls, Implemented fs' c) ∧
        ∀ c : RkqcCall ι, Implemented fs c → Implemented fs' c := by
  induction bodies generalizing fs with
  | nil => exact ⟨fs, rfl, fun _ h ↦ absurd h List.not_mem_nil, fun _ h ↦ h⟩
  | cons calls bodies ih =>
    obtain ⟨fs₁, hvisit₁, hsound₁, himpl₁, hkeep₁⟩ := visitBody_inst hfs calls
    obtain ⟨fs₂, hvisit₂, himpl₂, hkeep₂⟩ := ih hsound₁
    refine ⟨fs₂, ?_, List.forall_mem_cons.mpr ⟨fun c hc ↦ hkeep₂ c (himpl₁ c hc), himpl₂⟩,
      fun d hd ↦ hkeep₂ d (hkeep₁ d hd)⟩
    rw [List.map_cons, visitModule, hvisit₁]
    dsimp only
    rw [hvisit₂, List.map_cons]

/-! ## Bodies -/

section Bodies

variable [DecidableEq ι]

/-- The operations one after the other. -/
def actAll (s : ι → Bool) (calls : List (RkqcCall ι)) : ι → Bool :=
  calls.foldl RkqcCall.act s

/-- What the lowered calls do, one after the other. -/
def loweredActAll (s : ι → Bool) (calls : List (RkqcCall ι)) : ι → Bool :=
  calls.foldl RkqcCall.loweredAct s

/-- A lowered body has gates, and they do to every assignment of bits to the qubits, with ancillas
that are zero, what the operations do. -/
def Implements (fs : Functions) (body : List (CallInst ι)) (calls : List (RkqcCall ι)) : Prop :=
  ∃ gates, expandBody fs 0 body = some gates ∧
    ∀ s q, run gates (Sum.elim s fun _ ↦ false) (.inl q) = actAll s calls q

/-- **Running a body**: the ancillas of the calls to come stay zero. -/
theorem run_expandBody {fs : Functions} {calls : List (RkqcCall ι)}
    (hfs : ∀ c ∈ calls, Implemented fs c) (hdistinct : ∀ c ∈ calls, c.operands.Nodup)
    (hcnot : ∀ c ∈ calls, ∀ a b, c ≠ .cnot a b) (site : ℕ) :
    ∃ gates, expandBody fs site (calls.map RkqcCall.lowered) = some gates ∧
      ∀ s : Wire ι → Bool, (∀ other name, site ≤ other → s (.inr (other, name)) = false) →
        ∀ q, run gates s (.inl q) = loweredActAll (s ∘ .inl) calls q := by
  induction calls generalizing site with
  | nil => exact ⟨[], rfl, fun _ _ _ ↦ rfl⟩
  | cons c calls ih =>
    obtain ⟨hc, hcalls⟩ := List.forall_mem_cons.mp hfs
    obtain ⟨hcd, hcallsd⟩ := List.forall_mem_cons.mp hdistinct
    obtain ⟨hcc, hcallsc⟩ := List.forall_mem_cons.mp hcnot
    obtain ⟨first, hfirst, hacts⟩ := expandCall_lowered site hc hcd hcc
    obtain ⟨rest, hrest, hrun⟩ := ih hcalls hcallsd hcallsc (site + 1)
    refine ⟨first ++ rest, ?_, fun s hs q ↦ ?_⟩
    · rw [List.map_cons, expandBody, hfirst, hrest]
      rfl
    · obtain ⟨hqubits, hothers⟩ := hacts s fun name ↦ hs site name le_rfl
      have hzero : ∀ other name, site + 1 ≤ other → run first s (.inr (other, name)) = false := by
        intro other name hother
        rw [hothers other name (by omega), hs other name (by omega)]
      have hstate : run first s ∘ .inl = RkqcCall.loweredAct (s ∘ .inl) c := funext hqubits
      rw [Reversible.run_append, hrun _ hzero q, hstate]
      rfl

/-- The operations that the pass lowers to what they are: `cnot` becomes a negation with two
operands, and the ancilla that a set operation copies is zero. -/
def RkqcCall.Lowerable : RkqcCall ι → Prop
  | .assign_value_of_1_to_a _ | .cnot _ _ => False
  | _ => True

private theorem loweredActAll_eq {calls : List (RkqcCall ι)} (h : ∀ c ∈ calls, c.Lowerable)
    (s : ι → Bool) : loweredActAll s calls = actAll s calls := by
  induction calls generalizing s with
  | nil => rfl
  | cons c calls ih =>
    obtain ⟨hc, hcalls⟩ := List.forall_mem_cons.mp h
    have hact : RkqcCall.loweredAct s c = RkqcCall.act s c := by
      cases c <;> first | rfl | exact hc.elim
    rw [loweredActAll, actAll, List.foldl_cons, List.foldl_cons, hact]
    exact ih hcalls _

omit [DecidableEq ι] in
private theorem ne_cnot_of_lowerable {c : RkqcCall ι} (h : c.Lowerable) (a b : ι) :
    c ≠ .cnot a b := by
  rintro rfl
  exact h

private theorem implements_of_lowerable {fs : Functions} {calls : List (RkqcCall ι)}
    (hfs : ∀ c ∈ calls, Implemented fs c) (hdistinct : ∀ c ∈ calls, c.operands.Nodup)
    (h : ∀ c ∈ calls, c.Lowerable) :
    Implements fs (calls.map RkqcCall.lowered) calls := by
  obtain ⟨gates, hgates, hrun⟩ := run_expandBody hfs hdistinct
    (fun c hc ↦ ne_cnot_of_lowerable (h c hc)) 0
  refine ⟨gates, hgates, fun s q ↦ ?_⟩
  rw [hrun _ (fun _ _ _ ↦ rfl) q, loweredActAll_eq h]
  rfl

omit [DecidableEq ι] in
private theorem expandBody_append (fs : Functions) (site : ℕ) (is js : List (CallInst ι)) :
    expandBody fs site (is ++ js) =
      (expandBody fs site is).bind fun gates ↦
        (expandBody fs (site + is.length) js).map (gates ++ ·) := by
  induction is generalizing site with
  | nil =>
    rw [List.nil_append, expandBody, Option.bind_some, List.length_nil, Nat.add_zero]
    exact Option.map_id'.symm
  | cons i is ih =>
    rw [List.cons_append, expandBody, expandBody, ih, List.length_cons,
      show site + (is.length + 1) = site + 1 + is.length by omega]
    cases expandCall fs site i with
    | none => rfl
    | some first =>
      cases expandBody fs (site + 1) is with
      | none => rfl
      | some rest =>
        cases expandBody fs (site + 1 + is.length) js with
        | none => rfl
        | some last => simp

private theorem lowerable_of_implements {fs : Functions} {calls : List (RkqcCall ι)}
    {c : RkqcCall ι} (hfs : ∀ d ∈ calls ++ [c], Implemented fs d)
    (hdistinct : ∀ d ∈ calls ++ [c], d.operands.Nodup) (hcalls : ∀ d ∈ calls, d.Lowerable)
    (h : Implements fs ((calls ++ [c]).map RkqcCall.lowered) (calls ++ [c])) : c.Lowerable := by
  obtain ⟨gates, hgates, hacts⟩ := h
  cases c with
  | cnot a b =>
    rw [List.map_append, expandBody_append] at hgates
    obtain ⟨first, -, hlast⟩ := Option.bind_eq_some_iff.mp hgates
    exact nomatch hlast
  | assign_value_of_1_to_a a =>
    have hcnot : ∀ d ∈ calls ++ [.assign_value_of_1_to_a a], ∀ x y : ι, d ≠ .cnot x y := by
      intro d hd x y
      rcases List.mem_append.mp hd with hd | hd
      · exact ne_cnot_of_lowerable (hcalls d hd) x y
      · rw [List.mem_singleton.mp hd]
        exact fun h ↦ nomatch h
    obtain ⟨gates', hgates', hrun⟩ := run_expandBody hfs hdistinct hcnot 0
    obtain rfl := Option.some.inj (hgates.symm.trans hgates')
    have hset := hacts (fun _ ↦ false) a
    rw [hrun _ (fun _ _ _ ↦ rfl) a, loweredActAll, actAll, List.foldl_append, List.foldl_append,
      List.foldl_cons, List.foldl_cons, List.foldl_nil, List.foldl_nil, RkqcCall.loweredAct,
      RkqcCall.act, Function.update_self, Function.update_self] at hset
    exact nomatch hset
  | _ => trivial

/-- **Lowering**: in every body of a module, the lowered calls do after each of them what the
operations do exactly when none of these is a set operation or a `cnot`. -/
theorem implements_iff (bodies : List (List (RkqcCall ι)))
    (hdistinct : ∀ calls ∈ bodies, ∀ c ∈ calls, c.operands.Nodup) (i : ℕ)
    {calls : List (RkqcCall ι)} (hcalls : bodies[i]? = some calls) :
    ∃ body, (visitModule [] (bodies.map fun calls ↦ calls.map RkqcCall.inst)).2[i]? = some body ∧
      ((∀ k, Implements (visitModule [] (bodies.map fun calls ↦ calls.map RkqcCall.inst)).1
        (body.take k) (calls.take k)) ↔ ∀ c ∈ calls, c.Lowerable) := by
  obtain ⟨fs, hvisit, himpl, -⟩ := visitModule_inst (sound_nil (ι := ι)) bodies
  have hmem : calls ∈ bodies := List.mem_of_getElem? hcalls
  refine ⟨calls.map RkqcCall.lowered, ?_, ?_⟩
  · rw [hvisit, List.getElem?_map, hcalls, Option.map_some]
  rw [hvisit]
  have hfs := himpl calls hmem
  have hnodup := hdistinct calls hmem
  constructor
  · intro h
    -- each prefix is implemented, so the calls are lowerable one after the other
    have htake (k : ℕ) : ∀ c ∈ calls.take k, c.Lowerable := by
      induction k with
      | zero => exact fun _ hc ↦ absurd hc List.not_mem_nil
      | succ k ih =>
        cases hk : calls[k]? with
        | none =>
          rw [List.getElem?_eq_none_iff] at hk
          rw [List.take_of_length_le (by omega)]
          rwa [List.take_of_length_le hk] at ih
        | some c =>
          have hsucc : calls.take (k + 1) = calls.take k ++ [c] := by
            rw [List.take_add_one, hk, Option.toList_some]
          have hsub : ∀ d ∈ calls.take k ++ [c], d ∈ calls := fun d hd ↦
            List.mem_of_mem_take (hsucc ▸ hd)
          have hlast : Implements fs ((calls.take k ++ [c]).map RkqcCall.lowered)
              (calls.take k ++ [c]) := by
            rw [← hsucc, List.map_take]
            exact h (k + 1)
          have hc := lowerable_of_implements (fun d hd ↦ hfs d (hsub d hd))
            (fun d hd ↦ hnodup d (hsub d hd)) ih hlast
          intro d hd
          rw [hsucc] at hd
          rcases List.mem_append.mp hd with hd | hd
          · exact ih d hd
          · rwa [List.mem_singleton.mp hd]
    intro c hc
    exact htake calls.length c (by rwa [List.take_length])
  · intro h k
    have hsub : ∀ d ∈ calls.take k, d ∈ calls := fun d hd ↦ List.mem_of_mem_take hd
    rw [← List.map_take]
    exact implements_of_lowerable (fun d hd ↦ hfs d (hsub d hd))
      (fun d hd ↦ hnodup d (hsub d hd)) fun d hd ↦ h d (hsub d hd)

end Bodies

/-- A body with each operation that is lowered to what it is. -/
def sampleBody : List (RkqcCall ℕ) :=
  [.assign_value_of_0_to_a 0, .NOT 1, .assign_value_of_b_to_a 0 1, .a_swap_b 1 2,
    .a_eq_a_plus_b 2 0, .toffoli 0 2 1, .assign_value_of_b_to_a 1 2]

theorem implements_iff_sampleBody :
    ∃ body, (visitModule [] ([sampleBody].map fun calls ↦ calls.map RkqcCall.inst)).2[0]? =
        some body ∧
      ((∀ k, Implements (visitModule [] ([sampleBody].map fun calls ↦ calls.map RkqcCall.inst)).1
        (body.take k) (sampleBody.take k)) ↔ ∀ c ∈ sampleBody, c.Lowerable) :=
  implements_iff [sampleBody] (by decide) 0 rfl

theorem not_implements_cnot_set :
    (∀ body ∈ (visitModule [] [[(RkqcCall.cnot 0 1).inst]]).2,
      ¬ Implements (visitModule [] [[(RkqcCall.cnot 0 1).inst]]).1 body [.cnot 0 1]) ∧
    ∀ body ∈ (visitModule [] [[(RkqcCall.assign_value_of_1_to_a 0).inst]]).2,
      ¬ Implements (visitModule [] [[(RkqcCall.assign_value_of_1_to_a 0).inst]]).1 body
        [.assign_value_of_1_to_a 0] := by
  constructor
  · intro body hbody
    obtain rfl := List.mem_singleton.mp hbody
    rintro ⟨gates, hgates, -⟩
    exact nomatch hgates
  · intro body hbody
    obtain rfl := List.mem_singleton.mp hbody
    rintro ⟨gates, hgates, hacts⟩
    obtain rfl := Option.some.inj hgates
    exact absurd (hacts (fun _ ↦ false) 0) (by decide)

end ScaffCC.GenRkqc
