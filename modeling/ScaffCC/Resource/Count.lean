import Mathlib.Data.UInt
import ScaffCC.IR.Module

/-!
# Counting resources

The pass fills a row of counters for each function, callees first. A gate bumps the counter its name
selects, by a chain of prefix tests, and a call of a function adds the row of the callee. The
counters are machine words.

The name of the T gate is a prefix of the name of the Toffoli gate, so the T column counts both:
`countedAs` says which gates each column counts, and a column is correct exactly when no other gates
get into it and nothing wraps round.
-/

namespace ScaffCC.ResourceCount

open GateCall

/-! ## The pass -/

/-- The counters of a function: qubits, gross and net ancillas and their width in the columns 0
to 3, the gates in the columns 4 to 13, and all intrinsics in the column 14. -/
abbrev Row := Fin 15 → UInt64

/-- The column a gate is counted in, if any. -/
def columnOf (name : Ident) : Option (Fin 15) :=
  if "llvm.X".toList.isPrefixOf name then some 4
  else if "llvm.Z".toList.isPrefixOf name then some 5
  else if "llvm.H".toList.isPrefixOf name then some 6
  else if "llvm.Tdag".toList.isPrefixOf name then some 8
  else if "llvm.T".toList.isPrefixOf name then some 7
  else if "llvm.Sdag".toList.isPrefixOf name then some 10
  else if "llvm.S".toList.isPrefixOf name then some 9
  else if "llvm.CNOT".toList.isPrefixOf name then some 11
  else if "llvm.PrepZ".toList.isPrefixOf name then some 12
  else if "llvm.MeasZ".toList.isPrefixOf name then some 13
  else none

/-- The row with a number added in one column. -/
def Row.bump (r : Row) (c : Fin 15) (x : UInt64) : Row := Function.update r c (r c + x)

/-- An allocation adds its qubits, or its ancillas, which are in use from there on. -/
def countAlloca (r : Row) (ty : QTy) (size : ℕ) : Row :=
  match ty with
  | .qbit => r.bump 0 (.ofNat size)
  | .abit =>
    let r := (r.bump 1 (.ofNat size)).bump 2 (.ofNat size)
    if r 3 < r 2 then Function.update r 3 (r 2) else r

/-- A gate counts in the column 14 and in the column of its name. -/
def countGate (r : Row) (name : Ident) : Row :=
  let r := r.bump 14 1
  match columnOf name with
  | some c => r.bump c 1
  | none => r

/-- A call of `afree` releases as many ancillas as its second argument says, when it is a constant,
and one otherwise. -/
def countFree (r : Row) (args : List Arg) : Row :=
  let addNum : UInt64 :=
    match args[1]? with
    | some (Arg.int (some v)) => .ofNat (v % 2 ^ 32).toNat
    | _ => 1
  Function.update r 2 (r 2 - addNum)

/-- A call of a function adds the callee's counters, the width after its own rule. -/
def countCall (r callee : Row) : Row :=
  let r := r.bump 14 (callee 14)
  let r := if callee 3 > r 3 - r 2 then Function.update r 3 (r 2 + callee 3) else r
  fun l ↦ if l < 14 ∧ l ≠ 3 then r l + callee l else r l

/-- The count of one instruction, given the rows of the functions counted so far. -/
def countInst (rows : Ident → Option Row) (r : Row) : Instr → Row
  | .alloca ty size => countAlloca r ty size
  | .gate g => countGate r (g.name Operand.ty)
  | .call n args =>
    if "afree".toList.isPrefixOf n then countFree r args
    else
      match rows n with
      | some callee => countCall r callee
      | none => r

def countFunctionResources (rows : Ident → Option Row) (b : List Instr) : Row :=
  b.foldl (countInst rows) 0

/-- The row of a function entered, unless it is only declared. -/
def countFunction (M : Module) (rows : Ident → Option Row) (n : Ident) : Ident → Option Row :=
  match M.bodyOf n with
  | none => rows
  | some b => Function.update rows n (some (countFunctionResources rows b))

/-- The pass on the functions reached from `main`, in the order of the call graph traversal. -/
def runOnModule (M : Module) (order : List Ident) : Ident → Option Row :=
  order.foldl (countFunction M) fun _ ↦ none

/-- The traversal of an acyclic call graph: no function twice, and callees before callers. -/
structure PostOrder (M : Module) (order : List Ident) : Prop where
  nodup : order.Nodup
  callees : ∀ A n B, order = A ++ n :: B → ∀ b, M.bodyOf n = some b → ∀ c args,
    Instr.call c args ∈ b → (M.bodyOf c).isSome → c ∈ A

/-! ## Kinds of gates -/

/-- The kinds of gates with a column of their own. -/
inductive GateKind
  | X
  | Z
  | H
  | T
  | Tdag
  | S
  | Sdag
  | CNOT
  | PrepZ
  | MeasZ
  deriving DecidableEq, Repr

def GateKind.column : GateKind → Fin 15
  | X => 4
  | Z => 5
  | H => 6
  | T => 7
  | Tdag => 8
  | S => 9
  | Sdag => 10
  | CNOT => 11
  | PrepZ => 12
  | MeasZ => 13

section Kind

variable {ι : Type*}

/-- The kind of a gate, if it has a column. -/
def kindOf : GateCall ι → Option GateKind
  | gate1 .X _ => some .X
  | gate1 .Z _ => some .Z
  | gate1 .H _ => some .H
  | gate1 .T _ => some .T
  | gate1 .Tdag _ => some .Tdag
  | gate1 .S _ => some .S
  | gate1 .Sdag _ => some .Sdag
  | .CNOT _ _ => some .CNOT
  | prep .z _ _ => some .PrepZ
  | meas .z _ => some .MeasZ
  | _ => none

/-- The number of gates of the kind in a circuit. -/
def occurrences (k : GateKind) (C : List (GateCall ι)) : ℕ := C.countP fun g ↦ kindOf g = some k

/-- The gate is a Toffoli gate. -/
def isToffoli : GateCall ι → Bool
  | .Toffoli _ _ _ => true
  | _ => false

/-- The kind under which a gate is counted: a Toffoli gate counts as a T gate. -/
def countedAs (g : GateCall ι) : Option GateKind := if isToffoli g then some .T else kindOf g

/-- The number of gates of a circuit counted under the kind. -/
def counted (k : GateKind) (C : List (GateCall ι)) : ℕ := C.countP fun g ↦ countedAs g = some k

theorem countedAs_map {κ : Type*} (f : ι → κ) (g : GateCall ι) :
    countedAs (g.map f) = countedAs g := by
  rcases g with ⟨_ | _⟩ | _ | ⟨_ | _⟩ | ⟨_ | _⟩ | _ | _ | _ <;> rfl

/-- **What the prefix tests select.** -/
theorem columnOf_name (ty : ι → QTy) (g : GateCall ι) :
    columnOf (g.name ty) = (countedAs g).map GateKind.column := by
  rcases g with ⟨_ | _, q⟩ | ⟨_ | _, q⟩ | ⟨_ | _, q⟩ | ⟨_ | _, q⟩ | _ | _ | _
  -- the tests for the longer names read into the suffix of these two
  case gate1.T =>
    change columnOf ("llvm.T".toList ++ (tySuffix (ty q) ++ [])) = _
    cases ty q <;> rfl
  case gate1.S =>
    change columnOf ("llvm.S".toList ++ (tySuffix (ty q) ++ [])) = _
    cases ty q <;> rfl
  all_goals rfl

end Kind

/-! ## One instruction -/

theorem Row.bump_self (r : Row) (c : Fin 15) (x : UInt64) : r.bump c x c = r c + x :=
  Function.update_self ..

theorem Row.bump_of_ne (r : Row) {c d : Fin 15} (h : d ≠ c) (x : UInt64) : r.bump c x d = r d :=
  Function.update_of_ne h ..

theorem GateKind.column_injective : Function.Injective GateKind.column := by
  intro k k' h
  cases k <;> cases k' <;> first | rfl | exact absurd h (by decide)

/-- The columns of the gates lie between those of the qubits and the one of all intrinsics. -/
theorem GateKind.column_range (k : GateKind) : 3 < k.column ∧ k.column < 14 := by
  cases k <;> decide

theorem countAlloca_column (r : Row) (ty : QTy) (size : ℕ) (k : GateKind) :
    countAlloca r ty size k.column = r k.column := by
  have h0 : k.column ≠ 0 := by cases k <;> decide
  have h1 : k.column ≠ 1 := by cases k <;> decide
  have h2 : k.column ≠ 2 := by cases k <;> decide
  have h3 : k.column ≠ 3 := by cases k <;> decide
  cases ty with
  | qbit => exact Row.bump_of_ne _ h0 _
  | abit =>
    simp only [countAlloca]
    split
    · rw [Function.update_of_ne h3, Row.bump_of_ne _ h2, Row.bump_of_ne _ h1]
    · rw [Row.bump_of_ne _ h2, Row.bump_of_ne _ h1]

theorem countGate_column (r : Row) (g : GateCall Operand) (k : GateKind) :
    countGate r (g.name Operand.ty) k.column = r k.column + .ofNat (counted k [g]) := by
  have h14 : k.column ≠ 14 := by cases k <;> decide
  rw [countGate, columnOf_name]
  cases hg : countedAs g with
  | none => simp [counted, hg, Row.bump_of_ne _ h14]
  | some k' =>
    by_cases hk : k' = k
    · subst hk
      simp [counted, hg, Row.bump_self, Row.bump_of_ne _ h14]
    · have hne : k.column ≠ k'.column := fun h ↦ hk (GateKind.column_injective h.symm)
      simp [counted, hg, hk, Row.bump_of_ne _ hne, Row.bump_of_ne _ h14]

theorem countCall_column (r callee : Row) (k : GateKind) :
    countCall r callee k.column = r k.column + callee k.column := by
  have h3 : k.column ≠ 3 := by cases k <;> decide
  have h14 : k.column ≠ 14 := by cases k <;> decide
  rw [countCall]
  dsimp only
  rw [if_pos ⟨k.column_range.2, h3⟩]
  congr 1
  split
  · rw [Function.update_of_ne h3, Row.bump_of_ne _ h14]
  · rw [Row.bump_of_ne _ h14]

theorem countFree_column (r : Row) (args : List Arg) (k : GateKind) :
    countFree r args k.column = r k.column := by
  have h2 : k.column ≠ 2 := by cases k <;> decide
  rw [countFree]
  exact Function.update_of_ne h2 ..

/-! ## Functions -/

section Function

variable {ι : Type*} {M : Module}

theorem counted_cons (k : GateKind) (g : GateCall ι) (C : List (GateCall ι)) :
    counted k (g :: C) = counted k [g] + counted k C := by
  rw [counted, counted, counted, ← List.countP_append]
  rfl

theorem counted_append (k : GateKind) (C D : List (GateCall ι)) :
    counted k (C ++ D) = counted k C + counted k D := List.countP_append

theorem counted_map {κ : Type*} (f : ι → κ) (k : GateKind) (g : GateCall ι) :
    counted k [g.map f] = counted k [g] := by
  simp [counted, countedAs_map]

/-- The row counts the gates of every circuit of the function. -/
def Counts (ι : Type*) (M : Module) (n : Ident) (r : Row) : Prop :=
  ∀ b, M.bodyOf n = some b → ∀ k (ρ : Env ι) C, Expands M ρ b C →
    r (GateKind.column k) = .ofNat (counted k C)

/-- The functions `A` are counted and no function without a body is. -/
structure CountedUpTo (ι : Type*) (M : Module) (A : List Ident) (rows : Ident → Option Row) :
    Prop where
  row : ∀ n ∈ A, (M.bodyOf n).isSome → ∃ r, rows n = some r ∧ Counts ι M n r
  declared : ∀ n, M.bodyOf n = none → rows n = none

/-- No function with a body goes by a name that is taken for the release of ancillas. -/
def NoAfree (M : Module) : Prop := ∀ n, "afree".toList <+: n → M.bodyOf n = none

/-- The counters after a body are those before it and the gates of its circuit. -/
theorem foldl_countInst_column (hM : NoAfree M) {A : List Ident} {rows : Ident → Option Row}
    (hrows : CountedUpTo ι M A rows) {is : List Instr}
    (his : ∀ c args, Instr.call c args ∈ is → (M.bodyOf c).isSome → c ∈ A) (k : GateKind) (r : Row)
    {ρ : Env ι} {C : List (GateCall ι)} (hC : Expands M ρ is C) :
    is.foldl (countInst rows) r k.column = r k.column + .ofNat (counted k C) := by
  induction is generalizing r C with
  | nil =>
    rw [Expands.nil_iff.mp hC]
    simp [counted]
  | cons i is ih =>
    have htail := fun r {C} ↦ @ih (fun c args hc ↦ his c args (List.mem_cons_of_mem i hc)) r C
    rw [List.foldl_cons]
    cases i with
    | alloca ty size =>
      rw [htail _ (Expands.alloca_iff.mp hC), countInst, countAlloca_column]
    | gate g =>
      obtain ⟨C', hC', rfl⟩ := Expands.gate_iff.mp hC
      rw [htail _ hC', countInst, countGate_column, counted_cons k (g.map _), counted_map,
        UInt64.ofNat_add, UInt64.add_assoc]
    | call c args =>
      rw [countInst]
      cases hb : M.bodyOf c with
      | none =>
        rw [htail _ ((Expands.call_iff_of_none hb).mp hC).2, hrows.declared c hb]
        split
        · rw [countFree_column]
        · rfl
      | some b =>
        have hafree : ¬ "afree".toList.isPrefixOf c = true := fun h ↦ by
          rw [hM c (List.isPrefixOf_iff_prefix.mp h)] at hb
          nomatch hb
        obtain ⟨r', hr', hcount⟩ :=
          hrows.row c (his c args List.mem_cons_self (by rw [hb]; rfl)) (by rw [hb]; rfl)
        obtain ⟨loc, C₁, C₂, h₁, h₂, rfl⟩ := (Expands.call_iff_of_body hb).mp hC
        rw [if_neg hafree, hr', htail _ h₂]
        dsimp only
        rw [countCall_column, hcount b hb k _ C₁ h₁, counted_append, UInt64.ofNat_add,
          UInt64.add_assoc]

/-- **What holds of each row**, in any order in which callees come first, if it holds of a row that
is filled from such rows. -/
theorem runOnModule_rule {Q : Ident → Row → Prop} {order : List Ident} (ho : PostOrder M order)
    (hstep : ∀ (A : List Ident) n (rows : Ident → Option Row) b, M.bodyOf n = some b →
      (∀ c args, Instr.call c args ∈ b → (M.bodyOf c).isSome → c ∈ A) →
      (∀ m ∈ A, (M.bodyOf m).isSome → ∃ r, rows m = some r ∧ Q m r) →
      (∀ m, M.bodyOf m = none → rows m = none) → Q n (countFunctionResources rows b)) :
    (∀ n ∈ order, (M.bodyOf n).isSome → ∃ r, runOnModule M order n = some r ∧ Q n r) ∧
      ∀ n, M.bodyOf n = none → runOnModule M order n = none := by
  have hrun : ∀ A B rows, order = A ++ B →
      ((∀ m ∈ A, (M.bodyOf m).isSome → ∃ r, rows m = some r ∧ Q m r) ∧
        ∀ m, M.bodyOf m = none → rows m = none) →
      (∀ m ∈ order, (M.bodyOf m).isSome → ∃ r, B.foldl (countFunction M) rows m = some r ∧ Q m r) ∧
        ∀ m, M.bodyOf m = none → B.foldl (countFunction M) rows m = none := by
    intro A B
    induction B generalizing A with
    | nil =>
      intro rows hAB hrows
      rw [hAB, List.append_nil]
      exact hrows
    | cons n B ih =>
      rintro rows hAB ⟨hfilled, hnone⟩
      have hn : n ∉ A := by
        have hnodup := ho.nodup
        rw [hAB, List.nodup_append] at hnodup
        exact fun hA ↦ hnodup.2.2 n hA n List.mem_cons_self rfl
      refine ih (A ++ [n]) _ (by rw [hAB, List.append_assoc]; rfl) ?_
      rw [countFunction]
      cases hb : M.bodyOf n with
      | none =>
        refine ⟨fun m hm hs ↦ ?_, hnone⟩
        rcases List.mem_append.mp hm with hm | hm
        · exact hfilled m hm hs
        · rw [List.mem_singleton.mp hm, hb] at hs
          nomatch hs
      | some b =>
        refine ⟨fun m hm hs ↦ ?_, fun m hm ↦ ?_⟩
        · rcases List.mem_append.mp hm with hmA | hm
          · obtain ⟨r, hr, hQ⟩ := hfilled m hmA hs
            have hmn : m ≠ n := by
              rintro rfl
              exact hn hmA
            refine ⟨r, ?_, hQ⟩
            dsimp only
            rw [Function.update_of_ne hmn, hr]
          · obtain rfl := List.mem_singleton.mp hm
            exact ⟨_, Function.update_self ..,
              hstep A m rows b hb (ho.callees A m B hAB b hb) hfilled hnone⟩
        · dsimp only
          rw [Function.update_of_ne, hnone m hm]
          rintro rfl
          rw [hb] at hm
          nomatch hm
  exact hrun [] order _ rfl ⟨fun n hn ↦ absurd hn List.not_mem_nil, fun _ _ ↦ rfl⟩

/-- **All functions are counted**, in any order in which callees come first. -/
theorem countedUpTo_runOnModule (hM : NoAfree M) {order : List Ident} (ho : PostOrder M order) :
    CountedUpTo ι M order (runOnModule M order) := by
  obtain ⟨hrow, hdeclared⟩ := runOnModule_rule ho (Q := Counts ι M)
    fun A n rows b hb hcalls hfilled hnone b' hb' k ρ C hC ↦ by
      obtain rfl := Option.some_injective _ (hb.symm.trans hb')
      rw [countFunctionResources, foldl_countInst_column hM ⟨hfilled, hnone⟩ hcalls k 0 hC]
      exact UInt64.zero_add _
  exact ⟨hrow, hdeclared⟩

/-! ## When the counts are right -/

/-- A column counts its own kind, and the T column the Toffoli gates too. -/
theorem counted_eq (k : GateKind) (C : List (GateCall ι)) :
    counted k C = occurrences k C + if k = .T then C.countP isToffoli else 0 := by
  induction C with
  | nil => cases k <;> rfl
  | cons g C ih =>
    have hocc : occurrences k (g :: C) = occurrences k [g] + occurrences k C := by
      rw [occurrences, occurrences, occurrences, ← List.countP_append]
      rfl
    have htof : (g :: C).countP isToffoli = [g].countP isToffoli + C.countP isToffoli := by
      rw [← List.countP_append]
      rfl
    have hone : counted k [g] = occurrences k [g] + if k = .T then [g].countP isToffoli else 0 := by
      cases hg : isToffoli g with
      | true =>
        have hkind : kindOf g = none := by
          cases g <;> first | rfl | nomatch hg
        by_cases hk : k = .T
        · simp [counted, occurrences, countedAs, hg, hkind, hk]
        · simp [counted, occurrences, countedAs, hg, hkind, hk, Ne.symm hk]
      | false => simp [counted, occurrences, countedAs, hg]
    rw [counted_cons, hone, ih, hocc, htof]
    split <;> omega

/-- **When a count is right.** The count of a kind in a function is the number of its occurrences in
the flattened circuit exactly when that number fits the counter and, for the T gate, the Toffoli
gates of the circuit add up to nothing there. -/
theorem count_eq_occurrences_iff (hM : NoAfree M) {order : List Ident} (ho : PostOrder M order)
    {n : Ident} (hn : n ∈ order) {b : List Instr} (hb : M.bodyOf n = some b) {ρ : Env ι}
    {C : List (GateCall ι)} (hC : Expands M ρ b C) (k : GateKind) :
    ∃ r, runOnModule M order n = some r ∧
      ((r k.column).toNat = occurrences k C ↔
        occurrences k C < 2 ^ 64 ∧ (k = .T → 2 ^ 64 ∣ C.countP isToffoli)) := by
  obtain ⟨r, hr, hcount⟩ := (countedUpTo_runOnModule hM ho).row n hn (by rw [hb]; rfl)
  refine ⟨r, hr, ?_⟩
  rw [hcount b hb k ρ C hC, UInt64.toNat_ofNat', counted_eq]
  by_cases hk : k = .T
  · simp only [hk, if_true, true_implies]
    omega
  · simp only [hk, if_false, false_implies, and_true]
    omega

end Function

/-! ## One gate -/

/-- A main function with one gate on local qubits. -/
def gateMain (g : GateCall Operand) : Module := [⟨"main".toList, some [.alloca .qbit 3, .gate g]⟩]

private theorem bodyOf_gateMain {g : GateCall Operand} {n : Ident} {b : List Instr}
    (hb : (gateMain g).bodyOf n = some b) : n = "main".toList ∧ b = [.alloca .qbit 3, .gate g] := by
  obtain ⟨F, hF, hFb⟩ := Module.bodyOf_eq_some.mp hb
  have hmem := List.mem_singleton.mp (Module.mem_of_getFunction hF)
  rw [← Module.name_of_getFunction hF, hmem]
  rw [hmem] at hFb
  exact ⟨rfl, (Option.some_injective _ hFb).symm⟩

theorem postOrder_gateMain (g : GateCall Operand) : PostOrder (gateMain g) ["main".toList] := by
  refine ⟨List.nodup_singleton _, fun A n B _ b hb c args hc _ ↦ ?_⟩
  rw [(bodyOf_gateMain hb).2] at hc
  simp at hc

theorem noAfree_gateMain (g : GateCall Operand) : NoAfree (gateMain g) := by
  intro n hn
  by_contra hne
  obtain ⟨b, hb⟩ := Option.ne_none_iff_exists'.mp hne
  rw [(bodyOf_gateMain hb).1] at hn
  exact absurd hn (by decide)

def toffoliMain : Module :=
  gateMain (.Toffoli ⟨.qbit, .alloca 0, 0⟩ ⟨.qbit, .alloca 0, 1⟩ ⟨.qbit, .alloca 0, 2⟩)

/-- **One Toffoli gate is reported as one T gate.** -/
theorem count_ne_occurrences_toffoliMain :
    PostOrder toffoliMain ["main".toList] ∧ NoAfree toffoliMain ∧
      ∃ b C r, toffoliMain.bodyOf "main".toList = some b ∧
        Expands toffoliMain (fun _ j ↦ j) b C ∧
        runOnModule toffoliMain ["main".toList] "main".toList = some r ∧
        (r GateKind.T.column).toNat ≠ occurrences .T C :=
  ⟨postOrder_gateMain _, noAfree_gateMain _, _, [.Toffoli 0 1 2], _, rfl,
    .alloca _ _ (.gate _ (.nil _)), rfl, by decide⟩

theorem count_eq_occurrences_iff_T :
    ∃ r, runOnModule (gateMain (gate1 .T ⟨.qbit, .alloca 0, 0⟩)) ["main".toList] "main".toList =
        some r ∧ ((r GateKind.T.column).toNat = occurrences .T [gate1 .T 0] ↔
      occurrences .T [gate1 .T 0] < 2 ^ 64 ∧
        (GateKind.T = .T → 2 ^ 64 ∣ [gate1 Gate1.T 0].countP isToffoli)) :=
  count_eq_occurrences_iff (noAfree_gateMain _) (postOrder_gateMain _) (List.mem_singleton.mpr rfl)
    rfl (ρ := fun _ j ↦ j) (.alloca _ _ (.gate _ (.nil _))) .T

end ScaffCC.ResourceCount
