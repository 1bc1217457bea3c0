import ScaffCC.Frequency.Memoize

/-!
# Invocation counts

How often a module is executed with some parameters is the sum, over the calls of it, of the product
of the repeat counts of all calls open at that moment. The main module counts as the first call,
with the repeat count `1`.

The table holds one entry for each key. Its value is the sum over all calls with that key, so the
counts are right exactly when no two modules with their parameters have one key.
-/

namespace ScaffCC.Frequency

open Memory

/-! ## What is to be counted -/

/-- The modules called. -/
def invoked : List Event → List Invocation
  | [] => []
  | .memoize f _ :: es => f :: invoked es
  | .exit_scope :: es => invoked es

/-- The repeat counts of the open calls after the events, the last call first. -/
def opensFrom (o : List ℕ) : List Event → List ℕ
  | [] => o
  | .memoize _ rep :: es => opensFrom (rep.toNat :: o) es
  | .exit_scope :: es => opensFrom o.tail es

/-- The executions of the modules that satisfy a condition, when some calls are already open. -/
def countFrom (p : Invocation → Bool) (o : List ℕ) : List Event → ℕ
  | [] => 0
  | .memoize f rep :: es =>
    (if p f then (rep.toNat :: o).prod else 0) + countFrom p (rep.toNat :: o) es
  | .exit_scope :: es => countFrom p o.tail es

/-- The events of a program, from the call of the main module on. -/
def started (es : List Event) : List Event :=
  .memoize mainInvocation 1 :: es

/-- How often a module is executed with the parameters. -/
def frequency (f : Invocation) (es : List Event) : ℕ :=
  countFrom (fun g ↦ g = f) [] (started es)

/-- Every `exit_scope` leaves a call entered after the main module, and the calls open at one time,
the main module among them, fit on the stack; `d` calls are open. -/
def WellNested : ℕ → List Event → Prop
  | _, [] => True
  | d, .memoize _ _ :: es => d < maxCallDepth ∧ WellNested (d + 1) es
  | d, .exit_scope :: es => 1 < d ∧ WellNested (d - 1) es

instance decidableWellNested : (d : ℕ) → (es : List Event) → Decidable (WellNested d es)
  | _, [] => inferInstanceAs (Decidable True)
  | d, .memoize _ _ :: es =>
    have := decidableWellNested (d + 1) es
    inferInstanceAs (Decidable (_ ∧ _))
  | d, .exit_scope :: es =>
    have := decidableWellNested (d - 1) es
    inferInstanceAs (Decidable (_ ∧ _))

/-- The entry shows the module and the parameters. -/
structure hash_entry_t.IsFor (memo : hash_entry_t) (f : Invocation) : Prop where
  function_name : memo.function_name = f.lookup_key.function_name
  int_params : memo.int_params = f.lookup_key.int_params
  double_params : memo.double_params = f.lookup_key.double_params
  num_ints : memo.resources₁ = UInt64.ofNat f.int_params.length
  num_doubles : memo.resources₂ = UInt64.ofNat f.double_params.length

instance (memo : hash_entry_t) (f : Invocation) : Decidable (memo.IsFor f) :=
  decidable_of_iff (memo.function_name = f.lookup_key.function_name ∧
      memo.int_params = f.lookup_key.int_params ∧
      memo.double_params = f.lookup_key.double_params ∧
      memo.resources₁ = UInt64.ofNat f.int_params.length ∧
      memo.resources₂ = UInt64.ofNat f.double_params.length)
    ⟨fun h ↦ ⟨h.1, h.2.1, h.2.2.1, h.2.2.2.1, h.2.2.2.2⟩,
      fun h ↦ ⟨h.1, h.2, h.3, h.4, h.5⟩⟩

/-- **The counts are right**: the run ends, and for each module called with its parameters the table
has one entry, which holds the number of executions modulo `2 ^ 64`. -/
def CountsRight (es : List Event) : Prop :=
  ∃ s, run es = some s ∧ ∀ f ∈ invoked (started es),
    (s.memos.filter fun memo ↦ memo.IsFor f).map (·.resources₀) = [UInt64.ofNat (frequency f es)]

/-! ## Appending an event -/

theorem opensFrom_append (o : List ℕ) (es es' : List Event) :
    opensFrom o (es ++ es') = opensFrom (opensFrom o es) es' := by
  induction es generalizing o with
  | nil => rfl
  | cons e es ih =>
    cases e with
    | memoize f rep => exact ih _
    | exit_scope => exact ih _

theorem countFrom_append (p : Invocation → Bool) (o : List ℕ) (es es' : List Event) :
    countFrom p o (es ++ es') = countFrom p o es + countFrom p (opensFrom o es) es' := by
  induction es generalizing o with
  | nil => exact (Nat.zero_add _).symm
  | cons e es ih =>
    cases e with
    | memoize f rep =>
      rw [List.cons_append, countFrom, ih, countFrom, opensFrom, Nat.add_assoc]
    | exit_scope => exact ih _

theorem invoked_append (es es' : List Event) : invoked (es ++ es') = invoked es ++ invoked es' := by
  induction es with
  | nil => rfl
  | cons e es ih =>
    cases e with
    | memoize f rep => exact congrArg (f :: ·) ih
    | exit_scope => exact ih

theorem countFrom_congr {p q : Invocation → Bool} {es : List Event}
    (h : ∀ f ∈ invoked es, p f = q f) (o : List ℕ) : countFrom p o es = countFrom q o es := by
  induction es generalizing o with
  | nil => rfl
  | cons e es ih =>
    cases e with
    | memoize f rep =>
      obtain ⟨hf, hes⟩ := List.forall_mem_cons.mp h
      rw [countFrom, countFrom, hf, ih hes]
    | exit_scope => exact ih h _

theorem countFrom_false (o : List ℕ) (es : List Event) : countFrom (fun _ ↦ false) o es = 0 := by
  induction es generalizing o with
  | nil => rfl
  | cons e es ih =>
    cases e with
    | memoize f rep => rw [countFrom, ih, if_neg Bool.false_ne_true]
    | exit_scope => exact ih _

/-! ## The product on the stack -/

/-- The loop over the stack multiplies the repeat counts of the calls above the bottom. -/
theorem foldl_mul_eq (rs : List UInt32) (m : ℕ) :
    rs.foldl (fun mult r ↦ mult * r.toUInt64) (UInt64.ofNat m)
      = UInt64.ofNat (m * (rs.map UInt32.toNat).prod) := by
  induction rs generalizing m with
  | nil => rw [List.foldl_nil, List.map_nil, List.prod_nil, Nat.mul_one]
  | cons r rs ih =>
    have hr : UInt64.ofNat m * r.toUInt64 = UInt64.ofNat (m * r.toNat) := by
      rw [UInt64.ofNat_mul, UInt64.ofNat_uInt32ToNat]
    rw [List.foldl_cons, hr, ih, List.map_cons, List.prod_cons, Nat.mul_assoc]

/-! ## What the state knows of the events -/

theorem hash_entry_t.IsFor.key_eq {memo : hash_entry_t} {f : Invocation} (h : memo.IsFor f) :
    memo.key = f.lookup_key.key := by
  rw [lookup_key_t.key, lookup_key_t.bytes, h.function_name, h.int_params, h.double_params]
  rfl

/-- The executions of all modules with the key. -/
def countKey (k : List UInt8) (es : List Event) : ℕ :=
  countFrom (fun g ↦ g.lookup_key.key = k) [] es

/-- The stack holds the open calls, and the table the sums over the calls with each key. -/
structure Tracks (pre : List Event) (s : State) : Prop where
  maxSize : s.stack.maxSize = maxCallDepth
  contents : s.stack.contents.map UInt32.toNat = (opensFrom [] pre).reverse
  bottom : ∃ o, opensFrom [] pre = o ++ [1]
  nodup : (s.memos.map fun memo ↦ memo.key).Nodup
  entry : ∀ memo ∈ s.memos, (∃ f ∈ invoked pre, memo.IsFor f) ∧
    memo.resources₀ = UInt64.ofNat (countKey memo.key pre)
  covered : ∀ f ∈ invoked pre, ∃ memo ∈ s.memos, memo.key = f.lookup_key.key

namespace Tracks

variable {pre : List Event} {s : State} (h : Tracks pre s)
include h

theorem length_contents : s.stack.contents.length = (opensFrom [] pre).length := by
  rw [← List.length_map UInt32.toNat, h.contents, List.length_reverse]

theorem accumulativeMult_eq :
    accumulativeMult s.stack = UInt64.ofNat (opensFrom [] pre).prod := by
  obtain ⟨o, ho⟩ := h.bottom
  have hcontents := h.contents
  rw [ho, List.reverse_append, List.reverse_singleton, List.singleton_append] at hcontents
  obtain ⟨r, rs, hrs, -, htail⟩ := List.map_eq_cons_iff.mp hcontents
  have hmul := foldl_mul_eq rs.reverse 1
  rw [List.map_reverse, htail, List.reverse_reverse, Nat.one_mul] at hmul
  rw [accumulativeMult, hrs, List.tail_cons, ho, List.prod_append, List.prod_singleton,
    Nat.mul_one]
  exact hmul

end Tracks

theorem Tracks.exit_scope {pre : List Event} {s : State} (h : Tracks pre s)
    (hopen : 1 < (opensFrom [] pre).length) :
    ∃ s', exit_scope s = some s' ∧ Tracks (pre ++ [.exit_scope]) s' := by
  have hne : s.stack.contents ≠ [] := by
    rw [← List.length_pos_iff, h.length_contents]
    omega
  have hopens : opensFrom [] (pre ++ [.exit_scope]) = (opensFrom [] pre).tail :=
    opensFrom_append ..
  have hinvoked : invoked (pre ++ [.exit_scope]) = invoked pre := by
    rw [invoked_append]
    exact List.append_nil _
  have hcount : ∀ k, countKey k (pre ++ [.exit_scope]) = countKey k pre := fun k ↦
    countFrom_append ..
  refine ⟨{ s with stack := { s.stack with contents := s.stack.contents.dropLast } }, ?_, ?_⟩
  · rw [Frequency.exit_scope, stackPop, if_neg hne]
    rfl
  · refine ⟨h.maxSize, ?_, ?_, h.nodup, ?_, ?_⟩
    · rw [hopens, List.map_dropLast, h.contents, List.dropLast_reverse]
    · obtain ⟨o, ho⟩ := h.bottom
      rw [hopens, ho]
      rw [ho] at hopen
      obtain _ | ⟨r, o⟩ := o
      · exact absurd hopen (lt_irrefl _)
      · exact ⟨o, rfl⟩
    · simpa only [hinvoked, hcount] using h.entry
    · simpa only [hinvoked] using h.covered

theorem countKey_memoize (k : List UInt8) (pre : List Event) (f : Invocation) (rep : UInt32) :
    countKey k (pre ++ [.memoize f rep]) = countKey k pre +
      if f.lookup_key.key = k then rep.toNat * (opensFrom [] pre).prod else 0 := by
  rw [countKey, countFrom_append]
  simp [countFrom, countKey]

theorem Tracks.entry_addInvocations {pre : List Event} {s : State} (h : Tracks pre s)
    (f : Invocation) (rep : UInt32) :
    let memos := addInvocations s.memos f (UInt64.ofNat (rep.toNat * (opensFrom [] pre).prod))
    (memos.map fun memo ↦ memo.key).Nodup ∧
      (∀ memo ∈ memos, (∃ g ∈ invoked pre ++ [f], memo.IsFor g) ∧
        memo.resources₀ = UInt64.ofNat (countKey memo.key (pre ++ [.memoize f rep]))) ∧
      ∀ g ∈ invoked pre ++ [f], ∃ memo ∈ memos, memo.key = g.lookup_key.key := by
  generalize hn : rep.toNat * (opensFrom [] pre).prod = n
  have hcount : ∀ k, countKey k (pre ++ [.memoize f rep])
      = countKey k pre + if f.lookup_key.key = k then n else 0 := fun k ↦ by
    rw [countKey_memoize, hn]
  -- an entry of another key is counted no further
  have hother : ∀ memo ∈ s.memos, memo.key ≠ f.lookup_key.key →
      memo.resources₀ = UInt64.ofNat (countKey memo.key (pre ++ [.memoize f rep])) := by
    intro memo hmemo hne
    rw [hcount, if_neg hne.symm]
    exact (h.entry memo hmemo).2
  have hisFor : ∀ memo ∈ s.memos, ∃ g ∈ invoked pre ++ [f], memo.IsFor g := by
    intro memo hmemo
    obtain ⟨g, hg, hfor⟩ := (h.entry memo hmemo).1
    exact ⟨g, List.mem_append_left _ hg, hfor⟩
  dsimp only
  cases hfind : find_memo s.memos f with
  | none =>
    have hnew : ∀ memo ∈ s.memos, memo.key ≠ f.lookup_key.key := by
      simpa [find_memo] using hfind
    -- a call of this key before would have left an entry
    have hzero : countKey f.lookup_key.key pre = 0 := by
      refine (countFrom_congr (fun g hg ↦ ?_) []).trans (countFrom_false [] pre)
      obtain ⟨memo, hmemo, hkey⟩ := h.covered g hg
      exact decide_eq_false fun hgf ↦ hnew memo hmemo (hkey.trans hgf)
    rw [addInvocations, hfind]
    dsimp only [add_memo]
    refine ⟨?_, List.forall_mem_append.mpr ⟨fun memo hmemo ↦
      ⟨hisFor memo hmemo, hother memo hmemo (hnew memo hmemo)⟩, ?_⟩, ?_⟩
    · rw [List.map_append, List.nodup_append]
      refine ⟨h.nodup, List.nodup_singleton _, ?_⟩
      rintro k hk k' hk' rfl
      obtain ⟨memo, hmemo, rfl⟩ := List.mem_map.mp hk
      exact hnew memo hmemo (List.mem_singleton.mp hk')
    · refine List.forall_mem_singleton.mpr
        ⟨⟨f, List.mem_append_right _ List.mem_cons_self, rfl, rfl, rfl, rfl, rfl⟩, ?_⟩
      rw [hcount, hzero, if_pos rfl, Nat.zero_add]
    · intro g hg
      rcases List.mem_append.mp hg with hg | hg
      · obtain ⟨memo, hmemo, hkey⟩ := h.covered g hg
        exact ⟨memo, List.mem_append_left _ hmemo, hkey⟩
      · obtain rfl := List.mem_singleton.mp hg
        exact ⟨_, List.mem_append_right _ List.mem_cons_self, rfl⟩
  | some found =>
    have hkey : found.key = f.lookup_key.key := by
      simpa using List.find?_some hfind
    rw [addInvocations, hfind]
    dsimp only
    refine ⟨?_, List.forall_mem_map.mpr fun memo hmemo ↦ ?_, fun g hg ↦ ?_⟩
    · -- adding to a count changes no key
      have hkeys : ((fun memo : hash_entry_t ↦ memo.key) ∘ fun memo ↦
          if memo.key = f.lookup_key.key
          then { memo with resources₀ := memo.resources₀ + UInt64.ofNat n } else memo)
          = fun memo ↦ memo.key := by
        funext memo
        dsimp only [Function.comp]
        split_ifs <;> rfl
      rw [List.map_map, hkeys]
      exact h.nodup
    · split_ifs with hk
      · obtain ⟨g, hg, hfor⟩ := hisFor memo hmemo
        refine ⟨⟨g, hg, hfor.1, hfor.2, hfor.3, hfor.4, hfor.5⟩, ?_⟩
        rw [hcount, if_pos hk.symm, UInt64.ofNat_add, ← (h.entry memo hmemo).2]
      · exact ⟨hisFor memo hmemo, hother memo hmemo hk⟩
    · obtain ⟨memo, hmemo, hmkey⟩ : ∃ memo ∈ s.memos, memo.key = g.lookup_key.key := by
        rcases List.mem_append.mp hg with hg | hg
        · exact h.covered g hg
        · obtain rfl := List.mem_singleton.mp hg
          exact ⟨found, List.mem_of_find?_eq_some hfind, hkey⟩
      refine ⟨_, List.mem_map.mpr ⟨memo, hmemo, rfl⟩, ?_⟩
      split_ifs <;> exact hmkey

theorem Tracks.memoize {pre : List Event} {s : State} (h : Tracks pre s) {f : Invocation}
    (hf : f.Fits) (hopen : (opensFrom [] pre).length < maxCallDepth) (rep : UInt32) :
    ∃ s', memoize s f rep = some s' ∧ Tracks (pre ++ [.memoize f rep]) s' := by
  have hopens : opensFrom [] (pre ++ [.memoize f rep]) = rep.toNat :: opensFrom [] pre :=
    opensFrom_append ..
  have hinvoked : invoked (pre ++ [.memoize f rep]) = invoked pre ++ [f] := invoked_append ..
  have hmul : rep.toUInt64 * accumulativeMult s.stack
      = UInt64.ofNat (rep.toNat * (opensFrom [] pre).prod) := by
    rw [h.accumulativeMult_eq, UInt64.ofNat_mul, UInt64.ofNat_uInt32ToNat]
  have hpush : stackPush s.stack rep = some ⟨s.stack.contents ++ [rep], s.stack.maxSize⟩ := by
    rw [stackPush, if_neg]
    rw [h.maxSize, h.length_contents]
    omega
  obtain ⟨hnodup, hentry, hcovered⟩ := h.entry_addInvocations f rep
  refine ⟨⟨_, s.stack.contents ++ [rep], s.stack.maxSize⟩, ?_,
    ⟨h.maxSize, ?_, ?_, hnodup, ?_, ?_⟩⟩
  · rw [Frequency.memoize, if_neg (not_not.mpr hf), hpush, hmul]
    rfl
  · rw [hopens, List.map_append, h.contents, List.reverse_cons]
    rfl
  · obtain ⟨o, ho⟩ := h.bottom
    exact ⟨rep.toNat :: o, by rw [hopens, ho, List.cons_append]⟩
  · rwa [hinvoked]
  · rwa [hinvoked]

theorem tracks_first (f : Invocation) :
    Tracks [.memoize f 1] ⟨add_memo [] f 1, [1], maxCallDepth⟩ := by
  refine ⟨rfl, rfl, ⟨[], rfl⟩, List.nodup_singleton _, ?_, ?_⟩
  · refine List.forall_mem_singleton.mpr
      ⟨⟨f, List.mem_cons_self, rfl, rfl, rfl, rfl, rfl⟩, ?_⟩
    have hone : countKey f.lookup_key.key [.memoize f 1] = 1 := by
      simp [countKey, countFrom]
    exact congrArg UInt64.ofNat hone.symm
  · exact List.forall_mem_singleton.mpr ⟨_, List.mem_cons_self, rfl⟩

theorem tracks_qasm_initialize :
    ∃ s, qasm_initialize = some s ∧ Tracks (started []) s :=
  ⟨_, rfl, tracks_first mainInvocation⟩

/-! ## The run -/

theorem memoize_of_not_fits {s : State} {f : Invocation} (hf : ¬ f.Fits) (rep : UInt32) :
    memoize s f rep = none :=
  if_pos hf

/-- A sequence of events whose calls fit has a result. -/
theorem runFrom_spec {pre es : List Event} {s : State} (h : Tracks pre s)
    (hes : WellNested (opensFrom [] pre).length es) (hfits : ∀ f ∈ invoked es, f.Fits) :
    ∃ s', runFrom s es = some s' ∧ Tracks (pre ++ es) s' := by
  induction es generalizing pre s with
  | nil => exact ⟨s, rfl, by rwa [List.append_nil]⟩
  | cons e es ih =>
    obtain ⟨s', hs', htracks, hnested, hrest⟩ : ∃ s', step s e = some s' ∧ Tracks (pre ++ [e]) s' ∧
        WellNested (opensFrom [] (pre ++ [e])).length es ∧ ∀ f ∈ invoked es, f.Fits := by
      rw [opensFrom_append]
      cases e with
      | memoize f rep =>
        obtain ⟨hf, hrest⟩ := List.forall_mem_cons.mp hfits
        obtain ⟨s', hs', htracks⟩ := h.memoize hf hes.1 rep
        exact ⟨s', hs', htracks, hes.2, hrest⟩
      | exit_scope =>
        obtain ⟨s', hs', htracks⟩ := h.exit_scope hes.1
        refine ⟨s', hs', htracks, ?_, hfits⟩
        rw [opensFrom, opensFrom, List.length_tail]
        exact hes.2
    obtain ⟨s'', hs'', htracks'⟩ := ih htracks hnested hrest
    refine ⟨s'', by rw [runFrom, hs', Option.bind_some, hs''], ?_⟩
    rwa [List.append_assoc] at htracks'

theorem fits_of_runFrom {es : List Event} {s s' : State} (h : runFrom s es = some s') :
    ∀ f ∈ invoked es, f.Fits := by
  induction es generalizing s with
  | nil => exact List.forall_mem_nil _
  | cons e es ih =>
    obtain ⟨s₁, hs₁, hrest⟩ := Option.bind_eq_some_iff.mp h
    cases e with
    | memoize f rep =>
      refine List.forall_mem_cons.mpr ⟨not_not.mp fun hf ↦ ?_, ih hrest⟩
      rw [step, memoize_of_not_fits hf] at hs₁
      exact absurd hs₁.symm (Option.some_ne_none _)
    | exit_scope => exact ih hrest

theorem tracks_of_run {es : List Event} (h : WellNested 1 es) {s : State} (hs : run es = some s) :
    Tracks (started es) s := by
  obtain ⟨s₀, hs₀, htracks⟩ := tracks_qasm_initialize
  rw [run, hs₀, Option.bind_some] at hs
  obtain ⟨s', hs', htracks'⟩ := runFrom_spec htracks h (fits_of_runFrom hs)
  obtain rfl := Option.some_injective _ (hs.symm.trans hs')
  exact htracks'

/-! ## When the counts are right -/

theorem fits_mainInvocation : mainInvocation.Fits := by decide

theorem hash_entry_t.IsFor.unique {memo : hash_entry_t} {f g : Invocation} (hf : memo.IsFor f)
    (hg : memo.IsFor g) (hff : f.Fits) (hgf : g.Fits) : f = g := by
  have hlength : ∀ {n m : ℕ}, n ≤ 4 → m ≤ 4 → UInt64.ofNat n = UInt64.ofNat m → n = m := by
    intro n m hn hm h
    have h := congrArg UInt64.toNat h
    rw [UInt64.toNat_ofNat', UInt64.toNat_ofNat'] at h
    omega
  have hname : f.function_name = g.function_name :=
    padded_injective_of_notMem f.cstring g.cstring (hf.function_name.symm.trans hg.function_name)
  have hints : f.int_params = g.int_params :=
    padded_injective_of_length
      (hlength hff.ints hgf.ints (hf.num_ints.symm.trans hg.num_ints))
      (hf.int_params.symm.trans hg.int_params)
  have hdoubles : f.double_params = g.double_params :=
    padded_injective_of_length
      (hlength hff.doubles hgf.doubles (hf.num_doubles.symm.trans hg.num_doubles))
      (hf.double_params.symm.trans hg.double_params)
  obtain ⟨_, _, _, _⟩ := f
  obtain ⟨_, _, _, _⟩ := g
  congr

/-- No two modules with their parameters have one key. -/
def KeysDistinct (es : List Event) : Prop :=
  ∀ f ∈ invoked (started es), ∀ g ∈ invoked (started es),
    f.lookup_key.key = g.lookup_key.key → f = g

/-- **The counts are right exactly when the keys are distinct.** -/
theorem countsRight_iff {es : List Event} (h : WellNested 1 es) :
    CountsRight es ↔ (∀ f ∈ invoked es, f.Fits) ∧ KeysDistinct es := by
  constructor
  · rintro ⟨s, hs, hcounts⟩
    have hfits : ∀ f ∈ invoked (started es), f.Fits :=
      List.forall_mem_cons.mpr ⟨fits_mainInvocation, fun f hf ↦ by
        obtain ⟨s₀, -, hs⟩ := Option.bind_eq_some_iff.mp hs
        exact fits_of_runFrom hs f hf⟩
    have htracks := tracks_of_run h hs
    have hentry : ∀ f ∈ invoked (started es), ∃ memo ∈ s.memos, memo.IsFor f := by
      intro f hf
      obtain ⟨memo, rest, hmemo, -, -⟩ := List.map_eq_cons_iff.mp (hcounts f hf)
      obtain ⟨hmem, hfor⟩ := List.mem_filter.mp (hmemo ▸ List.mem_cons_self)
      exact ⟨memo, hmem, of_decide_eq_true hfor⟩
    refine ⟨(List.forall_mem_cons.mp hfits).2, fun f hf g hg hkey ↦ ?_⟩
    obtain ⟨memo, hmemo, hfor⟩ := hentry f hf
    obtain ⟨memo', hmemo', hfor'⟩ := hentry g hg
    obtain rfl := eq_of_key_eq htracks.nodup hmemo hmemo'
      (hfor.key_eq.trans (hkey.trans hfor'.key_eq.symm))
    exact hfor.unique hfor' (hfits f hf) (hfits g hg)
  · rintro ⟨hfits, hdistinct⟩
    obtain ⟨s₀, hs₀, htracks₀⟩ := tracks_qasm_initialize
    obtain ⟨s, hs, htracks⟩ := runFrom_spec htracks₀ h hfits
    refine ⟨s, by rw [run, hs₀, Option.bind_some, hs], fun f hf ↦ ?_⟩
    obtain ⟨memo, hmemo, hkey⟩ := htracks.covered f hf
    obtain ⟨⟨g, hg, hfor⟩, hvalue⟩ := htracks.entry memo hmemo
    obtain rfl := hdistinct g hg f hf (hfor.key_eq.symm.trans hkey)
    rw [filter_eq_singleton htracks.nodup hmemo (decide_eq_true hfor) fun b _ hb ↦
        (of_decide_eq_true hb).key_eq.trans hkey.symm, List.map_singleton, hvalue]
    refine congrArg (fun n ↦ [UInt64.ofNat n]) (countFrom_congr (fun g' hg' ↦ ?_) [])
    refine decide_eq_decide.mpr ⟨fun hk ↦ ?_, fun h ↦ by rw [h, hkey]⟩
    exact hdistinct g' hg' g hg (hk.trans hkey)

/-- A module called `R` that rotates by the angles given by their bits. -/
private def rotations (angles : List UInt64) : Invocation where
  function_name := [82]
  int_params := []
  double_params := angles
  cstring := by decide

/-- Two calls under a call that is repeated three times. -/
private def nestedCalls : List Event :=
  [.memoize (rotations [1]) 3, .memoize (rotations [2]) 2, .exit_scope,
    .memoize (rotations [2]) 5, .exit_scope, .exit_scope]

/-- The inner module is counted `3 * 2 + 3 * 5` times. -/
theorem countsRight_nestedCalls :
    frequency (rotations [2]) nestedCalls = 21 ∧ CountsRight nestedCalls :=
  ⟨by decide, (countsRight_iff (by decide)).mpr ⟨by decide +kernel, by
    rw [KeysDistinct]
    decide +kernel⟩⟩

/-- Two calls whose fourth angles are `1.0` and `2.0`. -/
private def fourAngles : List Event :=
  [.memoize (rotations [0, 0, 0, 0x3ff0000000000000]) 1, .exit_scope,
    .memoize (rotations [0, 0, 0, 0x4000000000000000]) 1, .exit_scope]

/-- **Two calls that differ in the fourth angle share an entry**, so neither count is right. -/
theorem not_countsRight_fourAngles : WellNested 1 fourAngles ∧ ¬ CountsRight fourAngles := by
  refine ⟨by decide, ?_⟩
  rintro ⟨s, hs, hcounts⟩
  have hmem : rotations [0, 0, 0, 0x4000000000000000] ∈ invoked (started fourAngles) := by
    decide +kernel
  have hnone : (run fourAngles).map (fun s ↦ (s.memos.filter fun memo ↦
      memo.IsFor (rotations [0, 0, 0, 0x4000000000000000])).map (·.resources₀)) = some [] := by
    decide +kernel
  rw [hs, Option.map_some] at hnone
  have hcount := hcounts _ hmem
  rw [Option.some_injective _ hnone] at hcount
  exact absurd hcount (List.cons_ne_nil _ _).symm

/-! ## The key -/

theorem toNat_lt_of_mem {l : List UInt32} : ∀ n ∈ l.map UInt32.toNat, n < 256 ^ 4 := by
  intro n hn
  obtain ⟨x, -, rfl⟩ := List.mem_map.mp hn
  exact x.toNat_lt

/-- The compared bytes, field by field: two bytes are left for the last double. -/
theorem key_eq {f : Invocation} (hf : f.Fits) {x₀ x₁ x₂ x₃ : UInt64}
    (hx : f.lookup_key.double_params = [x₀, x₁, x₂, x₃]) :
    f.lookup_key.key = f.lookup_key.function_name ++ (List.replicate 2 0 ++
      (arrayBytes 4 (f.lookup_key.int_params.map UInt32.toNat) ++ (List.replicate 4 0 ++
        (leBytes 8 x₀.toNat ++ (leBytes 8 x₁.toNat ++ (leBytes 8 x₂.toNat ++
          leBytes 2 x₃.toNat)))))) := by
  have hname : f.lookup_key.function_name.length = 90 := length_padded _ hf.name.le
  have hints : f.lookup_key.int_params.length = 4 := length_padded _ hf.ints
  have hlast : leBytes 8 x₃.toNat = leBytes 2 x₃.toNat ++ (leBytes 8 x₃.toNat).drop 2 := by
    rw [← take_leBytes (show 2 ≤ 8 by decide), List.take_append_drop]
  have hbytes : f.lookup_key.bytes = (f.lookup_key.function_name ++ (List.replicate 2 0 ++
      (arrayBytes 4 (f.lookup_key.int_params.map UInt32.toNat) ++ (List.replicate 4 0 ++
        (leBytes 8 x₀.toNat ++ (leBytes 8 x₁.toNat ++ (leBytes 8 x₂.toNat ++
          leBytes 2 x₃.toNat))))))) ++ (leBytes 8 x₃.toNat).drop 2 := by
    rw [lookup_key_t.bytes, hx]
    simp only [List.map_cons, List.map_nil, List.append_assoc, ← hlast]
    simp only [arrayBytes, List.flatMap_cons, List.flatMap_nil, List.append_nil]
  rw [lookup_key_t.key, hbytes]
  refine List.take_left' ?_
  simp only [List.length_append, hname, List.length_replicate, length_arrayBytes, List.length_map,
    hints, length_leBytes]
  rfl

theorem UInt64.leBytes_eq_iff {x y : UInt64} : leBytes 8 x.toNat = leBytes 8 y.toNat ↔ x = y := by
  have hlt : ∀ z : UInt64, z.toNat % 256 ^ 8 = z.toNat := fun z ↦ Nat.mod_eq_of_lt z.toNat_lt
  rw [Memory.leBytes_eq_iff, hlt, hlt, UInt64.toNat_inj]

/-- **What the key tells apart**: the names, the integers, the first three doubles and the low
sixteen bits of the fourth. -/
theorem key_eq_iff {f g : Invocation} (hf : f.Fits) (hg : g.Fits) {x₀ x₁ x₂ x₃ y₀ y₁ y₂ y₃ : UInt64}
    (hx : f.lookup_key.double_params = [x₀, x₁, x₂, x₃])
    (hy : g.lookup_key.double_params = [y₀, y₁, y₂, y₃]) :
    f.lookup_key.key = g.lookup_key.key ↔
      f.function_name = g.function_name ∧ f.lookup_key.int_params = g.lookup_key.int_params ∧
        x₀ = y₀ ∧ x₁ = y₁ ∧ x₂ = y₂ ∧ x₃.toNat % 2 ^ 16 = y₃.toNat % 2 ^ 16 := by
  have hname : f.lookup_key.function_name.length = g.lookup_key.function_name.length :=
    (length_padded _ hf.name.le).trans (length_padded _ hg.name.le).symm
  have hlength : f.lookup_key.int_params.length = g.lookup_key.int_params.length :=
    (length_padded _ hf.ints).trans (length_padded _ hg.ints).symm
  have hints : arrayBytes 4 (f.lookup_key.int_params.map UInt32.toNat)
      = arrayBytes 4 (g.lookup_key.int_params.map UInt32.toNat) ↔
      f.lookup_key.int_params = g.lookup_key.int_params := by
    refine ⟨fun h ↦ List.map_injective_iff.mpr (fun _ _ ↦ UInt32.toNat_inj.mp)
      (arrayBytes_injective (by simpa using hlength) toNat_lt_of_mem toNat_lt_of_mem h), fun h ↦ ?_⟩
    rw [h]
  have hnames : f.lookup_key.function_name = g.lookup_key.function_name ↔
      f.function_name = g.function_name :=
    ⟨padded_injective_of_notMem f.cstring g.cstring, fun h ↦ congrArg (padded _ _) h⟩
  rw [key_eq hf hx, key_eq hg hy, List.append_eq_append_iff_of_size_eq_left hname,
    List.append_cancel_left_eq, List.append_eq_append_iff_of_size_eq_left (by simp [hlength]),
    List.append_cancel_left_eq, List.append_eq_append_iff_of_size_eq_left (by simp),
    List.append_eq_append_iff_of_size_eq_left (by simp),
    List.append_eq_append_iff_of_size_eq_left (by simp), hnames, hints, UInt64.leBytes_eq_iff,
    UInt64.leBytes_eq_iff, UInt64.leBytes_eq_iff, Memory.leBytes_eq_iff]
  exact Iff.rfl

end ScaffCC.Frequency
