import ScaffCC.Frequency.Count

/-!
# Calls that find the entry of another call

A call of `memoize` finds the entry of an earlier call exactly if the two have the same key. The key
ends before the fields do, and parameters that are left out are zeros, so two calls with one key can
have different parameters.
-/

namespace ScaffCC.Frequency

open Memory

/-! ## Entries that stay -/

theorem isSome_find_memo {memos : List hash_entry_t} {f : Invocation} :
    (find_memo memos f).isSome ↔ ∃ memo ∈ memos, memo.key = f.lookup_key.key := by
  rw [find_memo, List.find?_isSome]
  simp only [decide_eq_true_eq]

theorem exists_key_addInvocations {memos : List hash_entry_t} {k : List UInt8} (g : Invocation)
    (n : UInt64) (h : ∃ memo ∈ memos, memo.key = k) :
    ∃ memo ∈ addInvocations memos g n, memo.key = k := by
  obtain ⟨memo, hmemo, rfl⟩ := h
  rw [addInvocations]
  split
  · exact ⟨memo, List.mem_append_left _ hmemo, rfl⟩
  · refine ⟨_, List.mem_map_of_mem hmemo, ?_⟩
    split <;> rfl

theorem exists_key_self (memos : List hash_entry_t) (f : Invocation) (n : UInt64) :
    ∃ memo ∈ addInvocations memos f n, memo.key = f.lookup_key.key := by
  cases hfind : find_memo memos f with
  | none =>
    rw [addInvocations, hfind]
    exact ⟨_, List.mem_append_right _ (List.mem_singleton_self _), rfl⟩
  | some memo =>
    exact exists_key_addInvocations f n (isSome_find_memo.mp (by rw [hfind]; rfl))

theorem memoize_memos {s s' : State} {f : Invocation} {rep : UInt32}
    (h : memoize s f rep = some s') :
    s'.memos = addInvocations s.memos f (rep.toUInt64 * accumulativeMult s.stack) := by
  rw [memoize] at h
  split at h
  · cases h
  · obtain ⟨stack, -, rfl⟩ := Option.map_eq_some_iff.mp h
    rfl

theorem exists_key_step {s s' : State} {k : List UInt8} {e : Event} (h : step s e = some s')
    (hk : ∃ memo ∈ s.memos, memo.key = k) : ∃ memo ∈ s'.memos, memo.key = k := by
  cases e with
  | memoize f rep =>
    rw [memoize_memos h]
    exact exists_key_addInvocations f _ hk
  | exit_scope =>
    obtain ⟨stack, -, rfl⟩ := Option.map_eq_some_iff.mp h
    exact hk

theorem exists_key_runFrom {s s' : State} {k : List UInt8} {es : List Event}
    (h : runFrom s es = some s') (hk : ∃ memo ∈ s.memos, memo.key = k) :
    ∃ memo ∈ s'.memos, memo.key = k := by
  induction es generalizing s with
  | nil =>
    cases h
    exact hk
  | cons e es ih =>
    obtain ⟨s₁, hs₁, hrest⟩ := Option.bind_eq_some_iff.mp h
    exact ih hrest (exists_key_step hs₁ hk)

theorem find_memo_of_runFrom {s s' : State} {f : Invocation} {rep : UInt32} {es es' : List Event}
    (h : runFrom s (es ++ .memoize f rep :: es') = some s') :
    f.Fits ∧ (find_memo s'.memos f).isSome := by
  induction es generalizing s with
  | nil =>
    obtain ⟨s₁, hs₁, hrest⟩ := Option.bind_eq_some_iff.mp h
    have hfits : f.Fits := by
      by_contra hf
      exact absurd ((memoize_of_not_fits hf rep).symm.trans hs₁) nofun
    refine ⟨hfits, isSome_find_memo.mpr (exists_key_runFrom hrest ?_)⟩
    rw [memoize_memos hs₁]
    exact exists_key_self ..
  | cons e es ih =>
    obtain ⟨s₁, -, hrest⟩ := Option.bind_eq_some_iff.mp h
    exact ih hrest

/-! ## The same key -/

/-- The calls have the same name, the same integers and first three doubles, where those left out
are zeros, and the same low 16 bits of the fourth double. -/
structure SameKey (f g : Invocation) : Prop where
  function_name : f.function_name = g.function_name
  int_params : padded maxIntParams 0 f.int_params = padded maxIntParams 0 g.int_params
  double_params : (padded maxDoubleParams 0 f.double_params).take 3 =
    (padded maxDoubleParams 0 g.double_params).take 3
  last : ((padded maxDoubleParams 0 f.double_params).getD 3 0).toNat % 2 ^ 16 =
    ((padded maxDoubleParams 0 g.double_params).getD 3 0).toNat % 2 ^ 16

private theorem four_doubles {f : Invocation} (hf : f.Fits) :
    ∃ x₀ x₁ x₂ x₃, f.lookup_key.double_params = [x₀, x₁, x₂, x₃] := by
  have hlen : f.lookup_key.double_params.length = 4 := length_padded _ hf.doubles
  obtain ⟨x₀, l, hl⟩ := List.exists_cons_of_length_eq_add_one hlen
  rw [hl, List.length_cons, Nat.add_right_cancel_iff] at hlen
  obtain ⟨x₁, x₂, x₃, rfl⟩ := List.length_eq_three.mp hlen
  exact ⟨x₀, x₁, x₂, x₃, hl⟩

/-- **What has the same key.** -/
theorem key_eq_iff_sameKey {f g : Invocation} (hf : f.Fits) (hg : g.Fits) :
    f.lookup_key.key = g.lookup_key.key ↔ SameKey f g := by
  obtain ⟨x₀, x₁, x₂, x₃, hx⟩ := four_doubles hf
  obtain ⟨y₀, y₁, y₂, y₃, hy⟩ := four_doubles hg
  have hx' : padded maxDoubleParams 0 f.double_params = [x₀, x₁, x₂, x₃] := hx
  have hy' : padded maxDoubleParams 0 g.double_params = [y₀, y₁, y₂, y₃] := hy
  rw [key_eq_iff hf hg hx hy]
  constructor
  · rintro ⟨hname, hints, rfl, rfl, rfl, hlast⟩
    exact ⟨hname, hints, by rw [hx', hy']; rfl, by rw [hx', hy']; exact hlast⟩
  · rintro ⟨hname, hints, hdoubles, hlast⟩
    rw [hx', hy'] at hdoubles hlast
    obtain ⟨h₀, hdoubles⟩ := List.cons.inj hdoubles
    obtain ⟨h₁, hdoubles⟩ := List.cons.inj hdoubles
    exact ⟨hname, hints, h₀, h₁, (List.cons.inj hdoubles).1, hlast⟩

/-! ## Hits -/

/-- A call of `g` finds the entry of `f`. -/
def Hits (s : State) (f g : Invocation) : Prop :=
  ∃ memo, find_memo s.memos f = some memo ∧ find_memo s.memos g = some memo

/-- The call has a result wherever the stack has room for its frequency. -/
def HasResult (f : Invocation) : Prop :=
  ∀ s rep, (stackPush s.stack rep).isSome → (memoize s f rep).isSome

/-- The entry of a call is only found by the same call: both calls have results, and in no run in
which `memoize` is called with `f`, a call with `g` then finds the entry of `f`, unless the name and
all parameters are equal. -/
def KeySound (f g : Invocation) : Prop :=
  HasResult f ∧ HasResult g ∧ ∀ es rep es' s, run (es ++ .memoize f rep :: es') = some s →
    Hits s f g → f = g

theorem Hits.key_eq {s : State} {f g : Invocation} (h : Hits s f g) :
    f.lookup_key.key = g.lookup_key.key := by
  obtain ⟨memo, hf, hg⟩ := h
  have hfind : ∀ {f : Invocation}, find_memo s.memos f = some memo → memo.key = f.lookup_key.key :=
    fun h ↦ by simpa using List.find?_some h
  exact (hfind hf).symm.trans (hfind hg)

theorem hits_of_key_eq {s : State} {f g : Invocation} (hf : (find_memo s.memos f).isSome)
    (hkey : f.lookup_key.key = g.lookup_key.key) : Hits s f g := by
  obtain ⟨memo, hmemo⟩ := Option.isSome_iff_exists.mp hf
  refine ⟨memo, hmemo, ?_⟩
  rw [find_memo, ← hkey]
  exact hmemo

/-- Two calls that fit can be made one after the other. -/
theorem exists_run {f g : Invocation} (hf : f.Fits) (hg : g.Fits) :
    ∃ s s', run [.memoize f 1] = some s ∧ memoize s g 1 = some s' := by
  obtain ⟨s, hs, htracks⟩ := tracks_qasm_initialize
  obtain ⟨s₁, hs₁, htracks₁⟩ := htracks.memoize hf (show 1 < maxCallDepth by decide) 1
  obtain ⟨s₂, hs₂, -⟩ := htracks₁.memoize hg (show 2 < maxCallDepth by decide) 1
  exact ⟨s₁, s₂, by rw [run, hs, Option.bind_some, runFrom, step, hs₁]; rfl, hs₂⟩

theorem hasResult_iff {f : Invocation} : HasResult f ↔ f.Fits := by
  constructor
  · intro h
    by_contra hf
    obtain ⟨s, hs⟩ : ∃ s, qasm_initialize = some s := ⟨_, rfl⟩
    have hroom : (stackPush s.stack 1).isSome := by
      obtain rfl := Option.some_injective _ hs
      decide
    have hsome := h s 1 hroom
    rw [memoize_of_not_fits hf] at hsome
    contradiction
  · intro hf s rep hroom
    rw [memoize, if_neg (not_not.mpr hf), Option.isSome_map]
    exact hroom

/-- **When an entry is only found by the same call**: the two calls fit into the fields, and they
have the same key only if they are equal. -/
theorem keySound_iff (f g : Invocation) :
    KeySound f g ↔ f.Fits ∧ g.Fits ∧ (SameKey f g → f = g) := by
  rw [KeySound, hasResult_iff, hasResult_iff]
  refine and_congr_right fun hf ↦ and_congr_right fun hg ↦ ⟨fun h hsame ↦ ?_, fun h ↦ ?_⟩
  · obtain ⟨s, -, hs, -⟩ := exists_run hf hg
    have hrun : run ([] ++ .memoize f 1 :: []) = some s := hs
    obtain ⟨s₀, -, hfrom⟩ := Option.bind_eq_some_iff.mp hrun
    have hfind := (find_memo_of_runFrom hfrom).2
    exact h [] 1 [] s hrun (hits_of_key_eq hfind ((key_eq_iff_sameKey hf hg).mpr hsame))
  · intro es rep es' s hs hhits
    exact h ((key_eq_iff_sameKey hf hg).mp hhits.key_eq)

private theorem zero_notMem_name : (0 : UInt8) ∉ [82] := by decide

/-- A rotation whose fourth angle is given by its bits. -/
private def fourthAngle (angle : UInt64) : Invocation where
  function_name := [82]
  int_params := []
  double_params := [0, 0, 0, angle]
  cstring := zero_notMem_name

/-- **A call with another fourth angle finds the entry.** -/
theorem not_keySound_fourthAngle :
    ¬ KeySound (fourthAngle 0x3ff0000000000000) (fourthAngle 0x4000000000000000) := by
  rintro ⟨-, -, h⟩
  have hf : (fourthAngle 0x3ff0000000000000).Fits := by decide
  have hg : (fourthAngle 0x4000000000000000).Fits := by decide
  obtain ⟨s, -, hs, -⟩ := exists_run hf hg
  have hrun : run ([] ++ .memoize (fourthAngle 0x3ff0000000000000) 1 :: []) = some s := hs
  obtain ⟨s₀, -, hfrom⟩ := Option.bind_eq_some_iff.mp hrun
  have heq := h [] 1 [] s hrun (hits_of_key_eq (find_memo_of_runFrom hfrom).2
    ((key_eq_iff_sameKey hf hg).mpr ⟨rfl, rfl, rfl, by decide⟩))
  exact absurd heq (by decide)

end ScaffCC.Frequency
