import ScaffCC.CriticalPath.Lookup
import ScaffCC.GenSimd.Leaf

/-!
# Times of qubits while a function is scheduled

`GenSIMDSchedule` looks at every call of a function twice, whether the function is a leaf or not.
The first pass over the body looks up all operands and makes an entry for each index, and the
entries stay when the times are set back. In the second pass, where the calls get their timesteps,
the first measurement looks its operand up without making an entry, as in `GetCriticalPath`, but
here the entry is there.

Where a call is placed does not depend on the maps of times but on the timesteps filled so far, so
the search for a place is a parameter.
-/

open Scheduling Fallible

namespace ScaffCC.GenSimd.Calls

open CriticalPath

/-- The arguments and arrays that get a map each: ancilla arrays do, ancilla parameters do not. -/
def simdTracked (F : Func) : List Ident :=
  (F.args.filter (·.2 = some .qbit)).map Prod.fst ++ F.arrays.map Prod.fst

/-- The search for the timestep of a call, from a timestep on, among the timesteps filled so far. It
can stop the pass. -/
abbrev Placer (σ : Type) := σ → ℕ → Inst → Option (ℕ × σ)

/-- The state while the calls are placed. -/
structure State (σ : Type) where
  funcQbits : FuncQbits
  isFirstMeas : Bool
  slots : σ

variable (asserts : Bool)

/-- The priority of a call. -/
def calc_critical_time_unbounded (T : FuncQbits) (x : Inst) :
    Except CriticalPath.Failure (FuncQbits × ℕ) := do
  let (T, m) ← compute_max_ts_of_all_args asserts T 0 x.operands
  return (update_timesteps T (m + 1) x.operands, m + 1)

/-- The priorities of the calls from a position on, the last call first. Calls without quantum
operands are left out. -/
def priorityVector (T : FuncQbits) :
    ℕ → List Inst → Except CriticalPath.Failure (FuncQbits × List InstPri)
  | _, [] => .ok (T, [])
  | k, x :: xs => do
    let (T, insts) ← priorityVector T (k + 1) xs
    if x.operands = [] then return (T, insts)
    else do
      let (T, p) ← calc_critical_time_unbounded asserts T x
      return (T, insts ++ [(k, p)])

variable {σ : Type} (P : Placer σ)

/-- The first measurement. Its operand is no array, and the entry is used without a check. -/
def first_measurement (s : State σ) (x : Inst) (q : Operand) :
    Except CriticalPath.Failure (State σ) :=
  match P s.slots s.funcQbits.latest x with
  | none => .error .assertion
  | some (max_ts_sched, slots) => do
    let T := s.funcQbits.reset max_ts_sched
    let c ← asserted asserts (find_map T q.name)
    assert asserts q.index.isSome
    let _ ← unchecked (entry c q.index)
    let c := set_top (set_entry c (max_ts_sched + 1) q.index) (max_ts_sched + 1)
    return ⟨set_map T q.name c, false, slots⟩

/-- A call is placed. -/
def calc_critical_time (s : State σ) (x : Inst) : Except CriticalPath.Failure (State σ) :=
  match x.operands with
  | [] => .ok s
  | q :: qs =>
    if s.isFirstMeas && x.isMeasurement then first_measurement asserts P s x q
    else do
      let (T, m) ← compute_max_ts_of_all_args asserts s.funcQbits 0 (q :: qs)
      match P s.slots m x with
      | none => .error .assertion
      | some (ts_sched, slots) =>
        return ⟨update_timesteps T (ts_sched + 1) (q :: qs), s.isFirstMeas, slots⟩

/-- The calls are placed in the order of falling priorities. -/
def schedule (S : PrioritySort) (start : σ) (F : Func) :
    Except CriticalPath.Failure (State σ) := do
  let (T, insts) ← priorityVector asserts ⟨simdTracked F, fun _ ↦ .zero⟩ 0 F.body
  (S.sort insts).reverse.foldlM (fun s inst ↦ do
    let x ← asserted asserts F.body[inst.1]?
    calc_critical_time asserts P s x) ⟨T.reset 0, true, start⟩

/-! ## The first pass -/

section Lookup

variable {asserts : Bool} {P : Placer σ} {T : FuncQbits} {x : Inst} {xs : List Inst} {k : ℕ}
  {qs : List Operand} {s : State σ} {F : Func}

theorem yields_compute_max (m : ℕ) :
    Yields (compute_max_ts_of_all_args asserts T m qs) (∀ q ∈ qs, q.name ∈ T.names)
      (fun r ↦ r.1 = (qs.map Operand.access).foldl Clocks.touch T) (stop asserts) := by
  constructor
  · intro h
    exact ⟨_, compute_max_eq h m, rfl⟩
  · intro h
    induction qs generalizing T m with
    | nil => exact absurd (List.forall_mem_nil _) h
    | cons q qs ih =>
      rw [compute_max_ts_of_all_args]
      by_cases hq : q.name ∈ T.names
      · rw [find_map_eq hq]
        exact ih (T := T.touch q.access) _ fun hqs ↦ h (List.forall_mem_cons.mpr ⟨hq, hqs⟩)
      · rw [find_map, if_neg (by rw [List.contains_iff_mem]; exact hq)]
        rfl

theorem yields_unbounded (asserts : Bool) (T : FuncQbits) (x : Inst) :
    Yields (calc_critical_time_unbounded asserts T x) (∀ q ∈ x.operands, q.name ∈ T.names)
      (fun r ↦ r.1.names = T.names ∧ (∀ q, HasEntry T q → HasEntry r.1 q) ∧
        ∀ q ∈ x.operands, q.name ∈ T.names → HasEntry r.1 q) (stop asserts) := by
  refine (yields_compute_max 0).bind_ok fun r hr ↦ ⟨_, rfl, ?_⟩
  rw [hr, update_timesteps_eq]
  exact ⟨Clocks.names_use, fun q hq ↦ hq.use,
    fun q hq hname ↦ hasEntry_use_self hname (List.mem_map_of_mem hq)⟩

theorem yields_priorityVector (asserts : Bool) (T : FuncQbits) (k : ℕ) (xs : List Inst) :
    Yields (priorityVector asserts T k xs) (∀ x ∈ xs, ∀ q ∈ x.operands, q.name ∈ T.names)
      (fun r ↦ r.1.names = T.names ∧
        (∀ x ∈ xs, ∀ q ∈ x.operands, q.name ∈ T.names → HasEntry r.1 q) ∧
        ∀ inst ∈ r.2, inst.1 < k + xs.length) (stop asserts) := by
  induction xs generalizing k with
  | nil =>
    exact yields_ok (List.forall_mem_nil _)
      ⟨rfl, List.forall_mem_nil _, List.forall_mem_nil _⟩
  | cons x xs ih =>
    rw [priorityVector]
    refine ((ih (k + 1)).bind (q := ∀ q ∈ x.operands, q.name ∈ T.names)
      fun r hr ↦ ?_).congr ?_
    · obtain ⟨T₁, insts⟩ := r
      obtain ⟨hnames, hentries, hkeys⟩ := hr
      have hkeys : ∀ inst ∈ insts, inst.1 < k + (x :: xs).length := fun inst hi ↦ by
        have := hkeys inst hi
        rw [List.length_cons]
        omega
      dsimp only at hnames hentries ⊢
      by_cases hnil : x.operands = []
      · rw [if_pos hnil]
        refine yields_ok (by simp [hnil]) ⟨hnames, ?_, hkeys⟩
        exact List.forall_mem_cons.mpr ⟨by simp [hnil], hentries⟩
      · rw [if_neg hnil]
        have hcall := yields_unbounded asserts T₁ x
        rw [hnames] at hcall
        refine hcall.bind_ok fun r hr ↦ ⟨_, rfl, ?_⟩
        obtain ⟨hnames', hkept, hself⟩ := hr
        refine ⟨hnames', List.forall_mem_cons.mpr ⟨hself, fun y hy q hq hname ↦ ?_⟩, ?_⟩
        · exact hkept q (hentries y hy q hq hname)
        · refine List.forall_mem_append.mpr ⟨hkeys, List.forall_mem_singleton.mpr ?_⟩
          rw [List.length_cons]
          omega
    · rw [List.forall_mem_cons, and_comm]

/-! ## The second pass -/

/-- All operands of the body have entries. -/
def AllEntered (F : Func) (T : FuncQbits) : Prop := ∀ x ∈ F.body, ∀ q ∈ x.operands, HasEntry T q

theorem place_ok_or_error (h : AllEntered F s.funcQbits) (hx : x ∈ F.body) :
    (∃ s', calc_critical_time asserts P s x = .ok s' ∧ AllEntered F s'.funcQbits) ∨
      calc_critical_time asserts P s x = .error .assertion := by
  rw [calc_critical_time]
  cases hops : x.operands with
  | nil => exact .inl ⟨s, rfl, h⟩
  | cons q qs =>
    have hentries : ∀ q' ∈ q :: qs, HasEntry s.funcQbits q' := hops ▸ h x hx
    dsimp only
    split
    · rw [first_measurement]
      cases P s.slots s.funcQbits.latest x with
      | none => exact .inr rfl
      | some r =>
        obtain ⟨ts, slots⟩ := r
        have hq : HasEntry (s.funcQbits.reset ts) q := (hentries q List.mem_cons_self).reset
        obtain ⟨t, ht⟩ := hq.exists_entry
        dsimp only
        rw [find_map_eq hq.1]
        show (∃ s', (assert asserts q.index.isSome >>= fun _ ↦ unchecked (entry _ q.index) >>= _) =
          .ok s' ∧ _) ∨ (assert asserts q.index.isSome >>= _) = _
        rw [ht, assert]
        split
        · exact .inr rfl
        · exact .inl ⟨_, rfl, fun y hy q' hq' ↦ (h y hy q' hq').reset.set_map fun _ hi ↦
            isSome_set_entry.mpr (.inl hi)⟩
    · rw [compute_max_eq fun q' hq' ↦ (hentries q' hq').1]
      dsimp only [bind, Except.bind]
      split
      · exact .inr rfl
      · refine .inl ⟨_, rfl, fun y hy q' hq' ↦ ?_⟩
        rw [update_timesteps_eq]
        exact (h y hy q' hq').use

/-- **No entry is missing** while a function is scheduled, if all its operands have maps. -/
theorem lookups_iff (asserts : Bool) (P : Placer σ) (S : PrioritySort) (start : σ) (F : Func) :
    schedule asserts P S start F ≠ .error .missingEntry ↔
      asserts = true ∨ ∀ x ∈ F.body, ∀ q ∈ x.operands, q.name ∈ simdTracked F := by
  have hy := yields_priorityVector asserts ⟨simdTracked F, fun _ ↦ .zero⟩ 0 F.body
  by_cases htracked : ∀ x ∈ F.body, ∀ q ∈ x.operands, q.name ∈ simdTracked F
  · refine iff_of_true (fun herror ↦ ?_) (.inr htracked)
    obtain ⟨⟨T, insts⟩, hfirst, hnames, hentries, hkeys⟩ := hy.ok htracked
    rw [schedule, hfirst] at herror
    have hloop := foldlM_ok_or_error (e := CriticalPath.Failure.assertion)
      (I := fun s : State σ ↦ AllEntered F s.funcQbits) (l := (S.sort insts).reverse)
      (f := fun s inst ↦ asserted asserts F.body[inst.1]? >>= calc_critical_time asserts P s)
      (fun s inst hinst hs ↦ by
        have hmem := (S.perm insts).mem_iff.mp (List.mem_reverse.mp hinst)
        have hlt := hkeys inst hmem
        rw [Nat.zero_add] at hlt
        rw [List.getElem?_eq_getElem hlt]
        exact place_ok_or_error hs (List.getElem_mem hlt))
      (s := ⟨T.reset 0, true, start⟩) fun x hx q hq ↦
        (hentries x hx q hq (htracked x hx q hq)).reset
    rcases hloop with ⟨s, hs, -⟩ | hs
    · exact nomatch hs.symm.trans herror
    · exact nomatch hs.symm.trans herror
  · have hstop : schedule asserts P S start F = .error (stop asserts) := by
      rw [schedule, hy.error htracked]
      rfl
    rw [hstop, stop, or_iff_left htracked]
    cases asserts <;> simp

/-! ## Both passes -/

/-- **Neither pass uses a map entry that is not there** exactly if every call of a function before
which all calls found what they need does too or is stopped by an assertion, the operand of the
first measurement was touched before, and all operands have maps or an assertion stops the pass. -/
theorem neverMissing_iff (asserts : Bool) (tables : Tables) (P : Placer σ) (S : PrioritySort)
    (start : σ) (F : BodyFunc) :
    CountCriticalFunctionResources asserts tables F.toFunc ≠ .error .missingEntry ∧
        schedule asserts P S start F.toFunc ≠ .error .missingEntry ↔
      (∀ pre x post, F.body = pre ++ x :: post → (∀ y ∈ pre, Served asserts tables y) →
        (asserts = true ∨ Served asserts tables x) ∧ EntryMade tables pre x) ∧
      (asserts = true ∨ ∀ x ∈ F.body, ∀ q ∈ x.operands, q.name ∈ simdTracked F.toFunc) := by
  rw [CriticalPath.lookups_iff, lookups_iff]

end Lookup

private def measFirst : Func :=
  ⟨[], [("a".toList, .qbit)], [.gate (.meas .z ⟨"a".toList, .qbit, some 0⟩)]⟩

private theorem declared_measFirst : ∀ x ∈ measFirst.body, ∀ q ∈ x.operands,
    (q.name, some q.ty) ∈ measFirst.args ∨ (q.name, q.ty) ∈ measFirst.arrays := by
  decide

theorem not_neverMissing_measFirst :
    ¬ ∀ (asserts : Bool) (F : BodyFunc),
      CountCriticalFunctionResources asserts (fun _ ↦ none) F.toFunc ≠ .error .missingEntry ∧
        schedule asserts (fun s ts _ ↦ some (ts, s)) .stable () F.toFunc ≠
          .error .missingEntry := by
  intro h
  have hstop : CountCriticalFunctionResources true (fun _ ↦ none) measFirst =
      .error .missingEntry := rfl
  exact (h true ⟨measFirst, declared_measFirst⟩).1 hstop

end ScaffCC.GenSimd.Calls
