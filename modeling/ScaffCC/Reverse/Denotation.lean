import ScaffCC.Reverse.Undo

/-!
# What reversed calls denote

A call of a function named `_reverse_f` stands for the inverse of `f`, and the prefix may be
stacked: an even number of prefixes stands for `f` and an odd number for its inverse. `Denotes`
says which circuit a body stands for, directly on the module as written, without any pass. It is
stated for an arbitrary table of inverse gates, which is used in two ways: with the true inverses,
to say what is meant, and with the table of the pass, to say what is made.
-/

namespace ScaffCC.FunctionReverse

open GateCall

/-! ## Stacked prefixes -/

/-- The prefix of the functions that stand for an inverse. -/
def reversePrefix : Ident := "_reverse_".toList

/-- The name `f` behind `k` prefixes. -/
def stacked : ℕ → Ident → Ident
  | 0, f => f
  | k + 1, f => reversePrefix ++ stacked k f

/-- The loop that strips prefixes and counts them, run at most as often as the first argument. -/
def stripPrefixes : ℕ → Ident → ℕ × Ident
  | 0, n => (0, n)
  | fuel + 1, n =>
    if reversePrefix <+: n then
      let r := stripPrefixes fuel (n.drop reversePrefix.length)
      (r.1 + 1, r.2)
    else (0, n)

/-- The number of prefixes of a name and the name behind them. -/
def forwardFunctionName (n : Ident) : ℕ × Ident := stripPrefixes n.length n

theorem length_reversePrefix : reversePrefix.length = 9 := by decide

theorem stripPrefixes_stacked {f : Ident} (hf : ¬ reversePrefix <+: f) (k : ℕ) {fuel : ℕ}
    (h : k ≤ fuel) : stripPrefixes fuel (stacked k f) = (k, f) := by
  induction k generalizing fuel with
  | zero =>
    cases fuel with
    | zero => rfl
    | succ fuel => rw [stacked, stripPrefixes, if_neg hf]
  | succ k ih =>
    obtain ⟨fuel, rfl⟩ := Nat.exists_eq_add_of_le' (Nat.one_le_of_lt h)
    rw [stacked, stripPrefixes, if_pos (List.prefix_append _ _), List.drop_left,
      ih (Nat.le_of_succ_le_succ h)]

theorem le_length_stacked (k : ℕ) (f : Ident) : k ≤ (stacked k f).length := by
  induction k with
  | zero => exact Nat.zero_le _
  | succ k ih =>
    rw [stacked, List.length_append, length_reversePrefix]
    omega

/-- **The prefixes are counted.** -/
theorem forwardFunctionName_stacked {f : Ident} (hf : ¬ reversePrefix <+: f) (k : ℕ) :
    forwardFunctionName (stacked k f) = (k, f) :=
  stripPrefixes_stacked hf k (le_length_stacked k f)

/-- Every name is a number of prefixes before a name without one. -/
theorem exists_stacked (n : Ident) : ∃ k f, ¬ reversePrefix <+: f ∧ n = stacked k f := by
  induction h : n.length using Nat.strong_induction_on generalizing n with
  | _ l ih =>
    by_cases hn : reversePrefix <+: n
    · obtain ⟨m, rfl⟩ := hn
      have hlen : m.length < l := by
        rw [← h, List.length_append, length_reversePrefix]
        omega
      obtain ⟨k, f, hf, rfl⟩ := ih _ hlen m rfl
      exact ⟨k + 1, f, hf, rfl⟩
    · exact ⟨0, n, hn, rfl⟩

theorem stacked_injective {f f' : Ident} {k k' : ℕ} (hf : ¬ reversePrefix <+: f)
    (hf' : ¬ reversePrefix <+: f') (h : stacked k f = stacked k' f') : k = k' ∧ f = f' := by
  have := forwardFunctionName_stacked hf k
  rw [h, forwardFunctionName_stacked hf' k'] at this
  exact ⟨(congrArg Prod.fst this).symm, (congrArg Prod.snd this).symm⟩

theorem prefix_stacked {f : Ident} (hf : ¬ reversePrefix <+: f) {k : ℕ} :
    reversePrefix <+: stacked k f ↔ k ≠ 0 := by
  cases k with
  | zero => simpa [stacked] using hf
  | succ k => simp [stacked]

/-! ## Intrinsics behind prefixes -/

/-- The intrinsics that can be called with the given arguments and nothing else. The rotations and
the preparations take an argument that is not a qubit. -/
def intrinsicsOn : List Arg → List (GateCall Operand)
  | [.qubit q] => [gate1 .H q, gate1 .X q, gate1 .Y q, gate1 .Z q, gate1 .S q, gate1 .Sdag q,
      gate1 .T q, gate1 .Tdag q, meas .x q, meas .z q]
  | [.qubit q, .qubit r] => [CNOT q r]
  | [.qubit q, .qubit r, .qubit s] => [Toffoli q r s, Fredkin q r s]
  | _ => []

/-- The intrinsic found under the name `n` put after `llvm.`, overloaded on as many qubits as the
call has arguments. -/
def intrinsic (n : Ident) (args : List Arg) : Option (GateCall Operand) :=
  (intrinsicsOn args).find? fun g ↦
    g.name Operand.ty = "llvm.".toList ++ n ++ (args.map fun _ ↦ tySuffix .qbit).flatten

theorem intrinsic_ne_rot {n : Ident} {args : List Arg} {a : Axis} {q : Operand} {θ : ℚ} :
    intrinsic n args ≠ some (rot a q θ) := by
  intro h
  have hmem := List.mem_of_find?_eq_some h
  rw [intrinsicsOn.eq_def] at hmem
  split at hmem <;> simp at hmem

/-! ## Denotation -/

/-- The true inverse of a gate that has one. -/
def dagger {ι : Type*} : GateCall ι → GateCall ι
  | rot a q θ => rot a q (-θ)
  | g => inverseGate g

/-- The circuit turned round when `k` is odd, each gate replaced by what `inv` gives for it. -/
def turned {ι : Type*} (inv : GateCall ι → GateCall ι) (k : ℕ) (C : List (GateCall ι)) :
    List (GateCall ι) :=
  if Odd k then (C.map inv).reverse else C

/-- `Denotes inv M ρ is C`: the instructions `is`, with their operands on the wires `ρ`, stand for
the circuit `C`. -/
inductive Denotes {ι : Type*} (inv : GateCall ι → GateCall ι) (M : Module) :
    Env ι → List Instr → List (GateCall ι) → Prop
  | nil (ρ : Env ι) : Denotes inv M ρ [] []
  | alloca {ρ : Env ι} {is : List Instr} {C : List (GateCall ι)} (ty : QTy) (size : ℕ) :
      Denotes inv M ρ is C → Denotes inv M ρ (.alloca ty size :: is) C
  | gate {ρ : Env ι} {is : List Instr} {C : List (GateCall ι)} (g : GateCall Operand) :
      Denotes inv M ρ is C → Denotes inv M ρ (.gate g :: is) (g.map ρ.wire :: C)
  | call {ρ : Env ι} {is : List Instr} {k : ℕ} {f : Ident} {args : List Arg} {b : List Instr}
      {loc : ℕ → ℕ → ι} {C₁ C₂ : List (GateCall ι)} :
      ¬ reversePrefix <+: f → M.bodyOf f = some b → Denotes inv M (ρ.bind args loc) b C₁ →
      Denotes inv M ρ is C₂ →
        Denotes inv M ρ (.call (stacked k f) args :: is) (turned inv k C₁ ++ C₂)
  | intrinsic {ρ : Env ι} {is : List Instr} {k : ℕ} {f : Ident} {args : List Arg}
      {g : GateCall Operand} {C : List (GateCall ι)} :
      ¬ reversePrefix <+: f → k ≠ 0 → M.getFunction f = none → intrinsic f args = some g →
      Denotes inv M ρ is C →
      Denotes inv M ρ (.call (stacked k f) args :: is) (turned inv k [g.map ρ.wire] ++ C)
  | declared {ρ : Env ι} {is : List Instr} {n : Ident} {args : List Arg} {C : List (GateCall ι)} :
      ¬ reversePrefix <+: n → (M.getFunction n).isSome → M.bodyOf n = none →
      Denotes inv M ρ is C → Denotes inv M ρ (.call n args :: is) C

namespace Denotes

variable {ι : Type*} {inv : GateCall ι → GateCall ι} {M : Module} {ρ : Env ι}

@[simp] theorem nil_iff {C : List (GateCall ι)} : Denotes inv M ρ [] C ↔ C = [] := by
  constructor
  · rintro ⟨⟩
    rfl
  · rintro rfl
    exact .nil ρ

@[simp] theorem alloca_iff {ty : QTy} {size : ℕ} {is : List Instr} {C : List (GateCall ι)} :
    Denotes inv M ρ (.alloca ty size :: is) C ↔ Denotes inv M ρ is C := by
  refine ⟨fun h ↦ ?_, .alloca ty size⟩
  cases h with
  | alloca _ _ h => exact h

theorem gate_iff {g : GateCall Operand} {is : List Instr} {C : List (GateCall ι)} :
    Denotes inv M ρ (.gate g :: is) C ↔
      ∃ C', Denotes inv M ρ is C' ∧ C = g.map ρ.wire :: C' := by
  constructor
  · rintro ⟨⟩
    exact ⟨_, ‹_›, rfl⟩
  · rintro ⟨C', h, rfl⟩
    exact .gate g h

private theorem call_cases {k : ℕ} {f : Ident} (hf : ¬ reversePrefix <+: f) {args : List Arg}
    {is : List Instr} {C : List (GateCall ι)}
    (h : Denotes inv M ρ (.call (stacked k f) args :: is) C) :
    (∃ b loc C₁ C₂, M.bodyOf f = some b ∧ Denotes inv M (ρ.bind args loc) b C₁ ∧
      Denotes inv M ρ is C₂ ∧ C = turned inv k C₁ ++ C₂) ∨
    (∃ g C₂, k ≠ 0 ∧ M.getFunction f = none ∧ FunctionReverse.intrinsic f args = some g ∧
      Denotes inv M ρ is C₂ ∧ C = turned inv k [g.map ρ.wire] ++ C₂) ∨
    (k = 0 ∧ (M.getFunction f).isSome ∧ M.bodyOf f = none ∧ Denotes inv M ρ is C) := by
  generalize hi : Instr.call (stacked k f) args = i at h
  generalize his : i :: is = is' at h
  cases h with
  | nil => nomatch his
  | alloca => exact Instr.noConfusion (hi.trans (List.cons.inj his).1)
  | gate => exact Instr.noConfusion (hi.trans (List.cons.inj his).1)
  | call hf' hb h₁ h₂ =>
    obtain ⟨rfl, rfl⟩ := List.cons.inj his
    obtain ⟨hs, rfl⟩ := Instr.call.inj hi
    obtain ⟨rfl, rfl⟩ := stacked_injective hf hf' hs
    exact .inl ⟨_, _, _, _, hb, h₁, h₂, rfl⟩
  | intrinsic hf' hk hnone hg h₂ =>
    obtain ⟨rfl, rfl⟩ := List.cons.inj his
    obtain ⟨hs, rfl⟩ := Instr.call.inj hi
    obtain ⟨rfl, rfl⟩ := stacked_injective hf hf' hs
    exact .inr (.inl ⟨_, _, hk, hnone, hg, h₂, rfl⟩)
  | declared hp hsome hb h₂ =>
    obtain ⟨rfl, rfl⟩ := List.cons.inj his
    obtain ⟨rfl, rfl⟩ := Instr.call.inj hi
    obtain rfl : k = 0 := by
      by_contra hk
      exact hp ((prefix_stacked hf).mpr hk)
    exact .inr (.inr ⟨rfl, hsome, hb, h₂⟩)

theorem call_iff_of_body {k : ℕ} {f : Ident} (hf : ¬ reversePrefix <+: f) {b : List Instr}
    (hb : M.bodyOf f = some b) {args : List Arg} {is : List Instr} {C : List (GateCall ι)} :
    Denotes inv M ρ (.call (stacked k f) args :: is) C ↔
      ∃ loc C₁ C₂, Denotes inv M (ρ.bind args loc) b C₁ ∧ Denotes inv M ρ is C₂ ∧
        C = turned inv k C₁ ++ C₂ := by
  constructor
  · intro h
    rcases call_cases hf h with ⟨b', loc, C₁, C₂, hb', h₁, h₂, rfl⟩ | ⟨g, C₂, -, hn, -⟩ |
      ⟨-, -, hn, -⟩
    · obtain rfl := Option.some_injective _ (hb.symm.trans hb')
      exact ⟨loc, C₁, C₂, h₁, h₂, rfl⟩
    · rw [Module.bodyOf, hn] at hb
      contradiction
    · rw [hn] at hb
      contradiction
  · rintro ⟨loc, C₁, C₂, h₁, h₂, rfl⟩
    exact .call hf hb h₁ h₂

theorem call_iff_of_intrinsic {k : ℕ} {f : Ident} (hf : ¬ reversePrefix <+: f) (hk : k ≠ 0)
    (hn : M.getFunction f = none) {args : List Arg} {g : GateCall Operand}
    (hg : FunctionReverse.intrinsic f args = some g) {is : List Instr} {C : List (GateCall ι)} :
    Denotes inv M ρ (.call (stacked k f) args :: is) C ↔
      ∃ C₂, Denotes inv M ρ is C₂ ∧ C = turned inv k [g.map ρ.wire] ++ C₂ := by
  constructor
  · intro h
    rcases call_cases hf h with ⟨b', loc, C₁, C₂, hb', -⟩ | ⟨g', C₂, -, -, hg', h₂, rfl⟩ | ⟨h0, -⟩
    · rw [Module.bodyOf, hn] at hb'
      contradiction
    · obtain rfl := Option.some_injective _ (hg.symm.trans hg')
      exact ⟨C₂, h₂, rfl⟩
    · exact absurd h0 hk
  · rintro ⟨C₂, h₂, rfl⟩
    exact .intrinsic hf hk hn hg h₂

theorem call_iff_of_declared {f : Ident} (hf : ¬ reversePrefix <+: f)
    (hn : (M.getFunction f).isSome)
    (hb : M.bodyOf f = none) {args : List Arg} {is : List Instr} {C : List (GateCall ι)} :
    Denotes inv M ρ (.call f args :: is) C ↔ Denotes inv M ρ is C := by
  refine ⟨fun h ↦ ?_, .declared hf hn hb⟩
  rcases call_cases (k := 0) hf h with ⟨b', loc, C₁, C₂, hb', -⟩ | ⟨g', C₂, h0, -⟩ |
    ⟨-, -, -, h₂⟩
  · rw [hb] at hb'
    contradiction
  · exact absurd rfl h0
  · exact h₂

/-! ### Shapes -/

theorem turned_map {κ : Type*} {inv' : GateCall κ → GateCall κ} {f : ι → κ}
    (hinv : ∀ g, inv' (g.map f) = (inv g).map f) (k : ℕ) (C : List (GateCall ι)) :
    turned inv' k (C.map (GateCall.map f)) = (turned inv k C).map (GateCall.map f) := by
  rw [turned, turned]
  split_ifs
  · simp [Function.comp_def, hinv]
  · rfl

theorem length_turned (k : ℕ) (C : List (GateCall ι)) : (turned inv k C).length = C.length := by
  rw [turned]
  split_ifs <;> simp

private theorem bind_comp {κ : Type*} (f : ι → κ) (ρ : Env ι) (args : List Arg)
    (loc : ℕ → ℕ → ι) :
    (fun b j ↦ f (ρ.bind args loc b j)) =
      Env.bind (fun b j ↦ f (ρ b j)) args fun k j ↦ f (loc k j) := by
  funext b j
  cases b with
  | alloca k => rfl
  | param k =>
    simp only [Env.bind]
    split <;> rfl

theorem map {κ : Type*} {inv' : GateCall κ → GateCall κ} {f : ι → κ}
    (hinv : ∀ g, inv' (g.map f) = (inv g).map f) {is : List Instr} {C : List (GateCall ι)}
    (h : Denotes inv M ρ is C) :
    Denotes inv' M (fun b j ↦ f (ρ b j)) is (C.map (GateCall.map f)) := by
  induction h with
  | nil ρ => exact .nil _
  | alloca ty size _ ih => exact .alloca ty size ih
  | gate g _ ih =>
    rw [List.map_cons, GateCall.map_map]
    exact .gate g ih
  | @call ρ is k f args b loc C₁ C₂ hf hb _ _ ih₁ ih₂ =>
    rw [List.map_append, ← turned_map hinv]
    rw [bind_comp] at ih₁
    exact .call hf hb ih₁ ih₂
  | @intrinsic ρ is k f args g C hf hk hn hg _ ih =>
    rw [List.map_append, ← turned_map hinv, List.map_singleton, GateCall.map_map]
    exact .intrinsic hf hk hn hg ih
  | declared hp hn hb _ ih => exact .declared hp hn hb ih

theorem unique [Subsingleton ι] {ρ' : Env ι} {is : List Instr} {C C' : List (GateCall ι)}
    (h : Denotes inv M ρ is C) (h' : Denotes inv M ρ' is C') : C = C' := by
  induction h generalizing ρ' C' with
  | nil ρ => rw [nil_iff.mp h']
  | alloca ty size _ ih => exact ih (alloca_iff.mp h')
  | gate g _ ih =>
    obtain ⟨D, hD, rfl⟩ := gate_iff.mp h'
    rw [ih hD, GateCall.map_congr fun q _ ↦ Subsingleton.elim _ _]
  | @call ρ is k f args b loc C₁ C₂ hf hb _ _ ih₁ ih₂ =>
    obtain ⟨loc', D₁, D₂, h₁, h₂, rfl⟩ := (call_iff_of_body hf hb).mp h'
    rw [ih₁ h₁, ih₂ h₂]
  | @intrinsic ρ is k f args g C hf hk hn hg _ ih =>
    obtain ⟨D₂, h₂, rfl⟩ := (call_iff_of_intrinsic hf hk hn hg).mp h'
    rw [ih h₂, GateCall.map_congr fun q _ ↦ Subsingleton.elim _ _]
  | declared hp hn hb _ ih => exact ih ((call_iff_of_declared hp hn hb).mp h')

/-- Another table of inverse gates makes circuits of the same length. -/
theorem exists_of_table (inv' : GateCall ι → GateCall ι) {is : List Instr}
    {C : List (GateCall ι)} (h : Denotes inv M ρ is C) :
    ∃ C', Denotes inv' M ρ is C' ∧ C'.length = C.length := by
  induction h with
  | nil ρ => exact ⟨[], .nil ρ, rfl⟩
  | alloca ty size _ ih =>
    obtain ⟨C', h, hl⟩ := ih
    exact ⟨C', .alloca ty size h, hl⟩
  | gate g _ ih =>
    obtain ⟨C', h, hl⟩ := ih
    exact ⟨_, .gate g h, by rw [List.length_cons, hl, List.length_cons]⟩
  | call hf hb _ _ ih₁ ih₂ =>
    obtain ⟨C₁', h₁, hl₁⟩ := ih₁
    obtain ⟨C₂', h₂, hl₂⟩ := ih₂
    refine ⟨_, .call hf hb h₁ h₂, ?_⟩
    rw [List.length_append, List.length_append, length_turned, length_turned, hl₁, hl₂]
  | intrinsic hf hk hn hg _ ih =>
    obtain ⟨C', h, hl⟩ := ih
    refine ⟨_, .intrinsic hf hk hn hg h, ?_⟩
    rw [List.length_append, List.length_append, length_turned, length_turned, hl]
  | declared hp hn hb _ ih =>
    obtain ⟨C', h, hl⟩ := ih
    exact ⟨C', .declared hp hn hb h, hl⟩

end Denotes

/-- A gate without its operands. -/
def shape {ι : Type*} : GateCall ι → GateCall Unit := GateCall.map fun _ ↦ ()

theorem dagger_map {ι κ : Type*} (f : ι → κ) (g : GateCall ι) :
    dagger (g.map f) = (dagger g).map f := by
  rcases g with ⟨_ | _⟩ | _ | _ | _ | _ | _ | _ <;> rfl

/-- All circuits a body denotes have the same gates in the same order. -/
theorem Denotes.shape_eq {ι : Type*} {M : Module} {ρ ρ' : Env ι} {is : List Instr}
    {C C' : List (GateCall ι)} (h : Denotes dagger M ρ is C) (h' : Denotes dagger M ρ' is C') :
    C.map shape = C'.map shape :=
  Denotes.unique (h.map (dagger_map _)) (h'.map (dagger_map _))

theorem Denotes.length_eq {ι : Type*} {M : Module} {ρ ρ' : Env ι} {is : List Instr}
    {C C' : List (GateCall ι)} (h : Denotes inverseGate M ρ is C)
    (h' : Denotes dagger M ρ' is C') : C.length = C'.length := by
  obtain ⟨D, hD, hl⟩ := Denotes.exists_of_table inverseGate h'
  have hCD := Denotes.unique (h.map (inverseGate_map fun _ ↦ ()))
    (hD.map (inverseGate_map fun _ ↦ ()))
  have hlen := congrArg List.length hCD
  rwa [List.length_map, List.length_map, hl] at hlen

end ScaffCC.FunctionReverse
