import ScaffCC.CriticalPath.Late

/-!
# Map entries that are not there

An index gets an entry in the map of its array when a gate or a call looks it up, and a call of a
function with the whole array brings the entries of the table of that function. The first
measurement looks its operand up without making an entry. So it depends on what comes before the
first measurement whether the entry is there.

The other searches that can fail are those in the tables of called functions, and there an assertion
stops the pass first, unless assertions are compiled out.
-/

open Scheduling Fallible

namespace ScaffCC.CriticalPath

open GenSimd (fname isMeas)

/-! ## What a body has -/

/-- All operands of a call, ancillas too. -/
def Inst.operands : Inst → List Operand
  | .gate g => g.operands
  | .call _ operands => operands

/-- A function with a body whose operands are its parameters and arrays. -/
structure BodyFunc extends Func where
  declared : ∀ x ∈ body, ∀ q ∈ x.operands,
    (q.name, some q.ty) ∈ args ∨ (q.name, q.ty) ∈ arrays

/-- The search in the table of the times at which operands are needed succeeds. -/
def startServed (asserts : Bool) (callee : Callee) (x : Operand × ℕ) : Bool :=
  match callee.tableFuncQbitsStart x.2 with
  | none => !asserts
  | some c => x.1.index.isNone || (c.elem 0).isSome

/-- The search in the table of the times of the operands succeeds. -/
def endServed (callee : Callee) (x : Operand × ℕ) : Bool :=
  match callee.tableFuncQbits x.2 with
  | none => true
  | some c => x.1.index.isNone || (c.elem 0).isSome

/-- All searches in the tables of a called function succeed. -/
def callServed (asserts : Bool) (tables : Tables) (qFunc : Ident) (qs : List Operand) : Bool :=
  match tables qFunc with
  | none => false
  | some callee => qs.zipIdx.all fun x ↦ startServed asserts callee x && endServed callee x

/-- The searches of a call of a function succeed. -/
def Served (asserts : Bool) (tables : Tables) : Inst → Prop
  | .gate _ => True
  | .call qFunc operands => (Inst.call qFunc operands).args = [] ∨
      callServed asserts tables qFunc (Inst.call qFunc operands).args = true

/-- A call makes an entry for an index: by an operand, or by the table of the called function for
the whole array. -/
def Touches (tables : Tables) (n : Ident) (i : ℕ) : Inst → Prop
  | .gate g => (n, some i) ∈ uses g
  | .call qFunc operands =>
    (n, some i) ∈ (Inst.call qFunc operands).args.map GenSimd.Operand.access ∨
      ∃ callee, tables qFunc = some callee ∧
        ∃ x ∈ (Inst.call qFunc operands).args.zipIdx, x.1.access = (n, none) ∧
          ∃ c, callee.tableFuncQbits x.2 = some c ∧ (c.elem i).isSome

def Measures (x : Inst) : Prop := x.isMeasurement = true ∧ x.args ≠ []

/-- The operands of the first measurement have entries. -/
def EntryMade (tables : Tables) (pre : List Inst) (x : Inst) : Prop :=
  Measures x → (∀ y ∈ pre, ¬ Measures y) →
    ∀ q ∈ x.args, ∀ i, q.index = some i → ∃ y ∈ pre, Touches tables q.name i y

variable {asserts : Bool} {tables : Tables} {F : BodyFunc} {s : State} {T T' : FuncQbits}
  {qs : List Operand} {callee : Callee} {tmax slk : ℕ} {x : Inst} {pre : List Inst}

/-! ## Calls of functions -/

/-- What a failed search does that an assertion guards. -/
def stop (asserts : Bool) : Failure := if asserts then .assertion else .missingEntry

theorem yields_asserted {α : Type} (r : Option α) :
    Yields (asserted asserts r) (r.isSome = true) (fun _ ↦ True) (stop asserts) := by
  cases r with
  | none => exact yields_error Bool.false_ne_true
  | some a => exact yields_ok rfl trivial

theorem yields_startsAt (x : Operand × ℕ) :
    Yields (startsAt asserts callee tmax x.2 x.1) (startServed asserts callee x = true)
      (fun _ ↦ True) (stop asserts) := by
  rw [startsAt, startServed]
  cases callee.tableFuncQbitsStart x.2 with
  | none =>
    cases asserts with
    | false => exact yields_ok rfl trivial
    | true => exact yields_error Bool.false_ne_true
  | some c =>
    cases x.1.index with
    | none => exact yields_ok rfl trivial
    | some i => exact (yields_asserted (c.elem 0)).bind_ok fun t _ ↦ ⟨_, rfl, trivial⟩

theorem yields_compute_least_slack :
    Yields (compute_least_slack asserts callee T tmax qs)
      (∀ x ∈ qs.zipIdx, startServed asserts callee x = true) (fun _ ↦ True) (stop asserts) := by
  refine (yields_mapM fun x _ ↦ yields_startsAt x).bind_ok fun starts _ ↦ ?_
  exact ⟨_, rfl, trivial⟩

theorem yields_update_from_table {x : Operand × ℕ} (hx : x.1.name ∈ T.names) :
    Yields (update_from_table asserts callee tmax slk T x) (endServed callee x = true)
      (fun T' ↦ T'.names = T.names) (stop asserts) := by
  rw [update_from_table, find_map_eq hx]
  show Yields (match callee.tableFuncQbits x.2 with | none => _ | some table => _) _ _ _
  rw [endServed]
  cases callee.tableFuncQbits x.2 with
  | none => exact yields_ok rfl rfl
  | some c =>
    cases x.1.index with
    | none => exact yields_ok rfl rfl
    | some i => exact (yields_asserted (c.elem 0)).bind_ok fun t _ ↦ ⟨_, rfl, rfl⟩

/-- The table of a called function brings an entry for an index. -/
def Sets (callee : Callee) (n : Ident) (i : ℕ) (x : Operand × ℕ) : Prop :=
  x.1.name = n ∧ ∃ c, callee.tableFuncQbits x.2 = some c ∧
    (x.1.index = some i ∨ x.1.index = none ∧ (c.elem i).isSome)

theorem hasElem_update_from_table {x : Operand × ℕ} {n : Ident} {i : ℕ}
    (h : update_from_table asserts callee tmax slk T x = .ok T') :
    T'.names = T.names ∧ (HasElem T' n i ↔ HasElem T n i ∨ Sets callee n i x) := by
  rw [update_from_table, bind_eq_ok] at h
  obtain ⟨c, hc, h⟩ := h
  have hclock : c = T.clock x.1.name := by
    rw [find_map] at hc
    split at hc
    · cases hc
      rfl
    · cases hc
  subst hclock
  rw [Sets]
  cases htable : callee.tableFuncQbits x.2 with
  | none =>
    rw [htable] at h
    cases h
    simp
  | some table =>
    rw [htable] at h
    by_cases hn : n = x.1.name
    · subst hn
      cases hi : x.1.index with
      | none =>
        rw [hi] at h
        cases h
        refine ⟨rfl, hasElem_set_map_self.trans ?_⟩
        show ((((table.elem i).map _).or ((T.clock x.1.name).elem i)).isSome = true) ↔ _
        rw [Option.isSome_or, Option.isSome_map, Bool.or_eq_true, or_comm]
        simp [HasElem]
      | some j =>
        rw [hi] at h
        obtain ⟨t, -, h⟩ := bind_eq_ok.mp h
        cases h
        refine ⟨rfl, hasElem_set_map_self.trans ?_⟩
        show (Function.update (T.clock x.1.name).elem j _ i).isSome = true ↔ _
        rw [isSome_update]
        simp [HasElem]
    · -- the entries of another register are left alone
      have hne : ¬ x.1.name = n := Ne.symm hn
      cases hi : x.1.index with
      | none =>
        rw [hi] at h
        cases h
        exact ⟨rfl, (hasElem_set_map_of_ne hn).trans (by simp [hne])⟩
      | some j =>
        rw [hi] at h
        obtain ⟨t, -, h⟩ := bind_eq_ok.mp h
        cases h
        exact ⟨rfl, (hasElem_set_map_of_ne hn).trans (by simp [hne])⟩

theorem hasElem_updates {l : List (Operand × ℕ)} {n : Ident} {i : ℕ}
    (h : l.foldlM (update_from_table asserts callee tmax slk) T = .ok T') :
    T'.names = T.names ∧ (HasElem T' n i ↔ HasElem T n i ∨ ∃ x ∈ l, Sets callee n i x) := by
  induction l generalizing T with
  | nil =>
    cases h
    simp
  | cons x l ih =>
    rw [List.foldlM_cons, bind_eq_ok] at h
    obtain ⟨T₁, hx, h⟩ := h
    obtain ⟨hnames₁, helem₁⟩ := hasElem_update_from_table (n := n) (i := i) hx
    obtain ⟨hnames, helem⟩ := ih h
    refine ⟨hnames.trans hnames₁, helem.trans ?_⟩
    simp [helem₁, or_assoc]

/-- What a call of a function leaves. -/
structure Called (tables : Tables) (s : State) (qFunc : Ident) (qs : List Operand) (s' : State) :
    Prop where
  names : s'.funcQbits.names = s.funcQbits.names
  isFirstMeas : s'.isFirstMeas = s.isFirstMeas
  isLeaf : s'.isLeaf = false
  hasElem : ∀ n i, HasElem s'.funcQbits n i ↔ HasElem s.funcQbits n i ∨
    (n, some i) ∈ qs.map GenSimd.Operand.access ∨ ∃ callee, tables qFunc = some callee ∧
      ∃ x ∈ qs.zipIdx, x.1.access = (n, none) ∧
        ∃ c, callee.tableFuncQbits x.2 = some c ∧ (c.elem i).isSome

theorem names_foldl_touch {as : List (Access Ident ℕ)} :
    (as.foldl Clocks.touch T).names = T.names := by
  induction as generalizing T with
  | nil => rfl
  | cons a as ih => rw [List.foldl_cons, ih]; rfl

theorem fst_mem_of_mem_zipIdx {x : Operand × ℕ} (hx : x ∈ qs.zipIdx) : x.1 ∈ qs :=
  (List.mem_zipIdx' hx).2 ▸ List.getElem_mem _

theorem yields_updates {l : List (Operand × ℕ)} (hl : ∀ x ∈ l, x.1.name ∈ T.names) :
    Yields (l.foldlM (update_from_table asserts callee tmax slk) T)
      (∀ x ∈ l, endServed callee x = true)
      (fun T' ↦ T'.names = T.names ∧ ∀ n i,
        HasElem T' n i ↔ HasElem T n i ∨ ∃ x ∈ l, Sets callee n i x) (stop asserts) := by
  have hloop := yields_foldlM (e := stop asserts) (I := fun T' : FuncQbits ↦ T'.names = T.names)
    (f := update_from_table asserts callee tmax slk) (p := fun x ↦ endServed callee x = true)
    (l := l) (fun T₁ x hx hT₁ ↦ by
      refine (yields_update_from_table (hT₁ ▸ hl x hx)).mono fun T₂ hT₂ ↦ hT₂.trans hT₁) rfl
  refine ⟨fun h ↦ ?_, hloop.error⟩
  obtain ⟨T', hT', hnames⟩ := hloop.ok h
  exact ⟨T', hT', hnames, fun n i ↦ (hasElem_updates hT').2⟩

theorem exists_sets_iff {n : Ident} {i : ℕ} :
    ((n, some i) ∈ qs.map GenSimd.Operand.access ∨ ∃ x ∈ qs.zipIdx, Sets callee n i x) ↔
      (n, some i) ∈ qs.map GenSimd.Operand.access ∨ ∃ x ∈ qs.zipIdx, x.1.access = (n, none) ∧
        ∃ c, callee.tableFuncQbits x.2 = some c ∧ (c.elem i).isSome := by
  constructor
  · rintro (h | ⟨x, hx, hname, c, hc, hi | ⟨hi, hci⟩⟩)
    · exact .inl h
    · refine .inl (List.mem_map.mpr ⟨x.1, fst_mem_of_mem_zipIdx hx, ?_⟩)
      rw [GenSimd.Operand.access, hname, hi]
    · exact .inr ⟨x, hx, by rw [GenSimd.Operand.access, hname, hi], c, hc, hci⟩
  · rintro (h | ⟨x, hx, hacc, c, hc, hci⟩)
    · exact .inl h
    · obtain ⟨hname, hi⟩ := Prod.mk.inj hacc
      exact .inr ⟨x, hx, hname, c, hc, .inr ⟨hi, hci⟩⟩

theorem yields_call_function (asserts : Bool) (tables : Tables) (qFunc : Ident)
    (hnames : ∀ q ∈ qs, q.name ∈ s.funcQbits.names) :
    Yields (call_function asserts tables s qFunc qs)
      (callServed asserts tables qFunc qs = true) (Called tables s qFunc qs) (stop asserts) := by
  rw [call_function, compute_max_eq hnames, callServed]
  show Yields (asserted asserts (tables qFunc) >>= _) _ _ _
  cases hcallee : tables qFunc with
  | none => exact yields_error Bool.false_ne_true
  | some callee =>
    have hops : ∀ x ∈ qs.zipIdx,
        x.1.name ∈ ((qs.map GenSimd.Operand.access).foldl Clocks.touch s.funcQbits).names := by
      intro x hx
      rw [names_foldl_touch]
      exact hnames x.1 (fst_mem_of_mem_zipIdx hx)
    refine (yields_compute_least_slack.bind fun slk _ ↦ (yields_updates hops).bind_ok
      fun T' hT' ↦ ⟨_, rfl, ?_⟩).congr ?_
    · refine ⟨hT'.1.trans names_foldl_touch, rfl, rfl, fun n i ↦ ?_⟩
      rw [hT'.2 n i, hasElem_foldl_touch, or_assoc, exists_sets_iff]
      simp [hcallee]
    · show _ ↔ qs.zipIdx.all (fun x ↦ startServed asserts callee x && endServed callee x) = true
      rw [List.all_eq_true, ← forall₂_and]
      simp only [Bool.and_eq_true]

/-! ## The body -/

/-- What is known after a part of the body. As long as nothing was measured, the indices that have
entries are those that were touched. -/
structure BodyInv (F : Func) (tables : Tables) (pre : List Inst) (s : State) : Prop where
  names : s.funcQbits.names = F.tracked
  isFirstMeas : s.isFirstMeas = true ↔ ∀ x ∈ pre, ¬ Measures x
  hasElem : s.isFirstMeas = true →
    ∀ n i, HasElem s.funcQbits n i ↔ ∃ x ∈ pre, Touches tables n i x
  leaf : s.isLeaf = true → LeafInv s

theorem bodyInv_start (F : Func) : BodyInv F tables [] F.start :=
  ⟨rfl, by simp [Func.start], fun _ n i ↦ by simp [HasElem, Func.start, Func.funcQbits,
    ArrayClock.zero], fun _ ↦ leafInv_start F⟩

theorem exists_mem_concat {P : Inst → Prop} : (∃ y ∈ pre ++ [x], P y) ↔ (∃ y ∈ pre, P y) ∨ P x := by
  simp [or_and_right, exists_or]

theorem forall_mem_concat {P : Inst → Prop} : (∀ y ∈ pre ++ [x], P y) ↔ (∀ y ∈ pre, P y) ∧ P x := by
  rw [List.forall_mem_append, List.forall_mem_singleton]

theorem BodyInv.skip {F : Func} (h : BodyInv F tables pre s) (hargs : x.args = []) :
    BodyInv F tables (pre ++ [x]) s := by
  have htouch : ∀ n i, ¬ Touches tables n i x := by
    intro n i hx
    cases x with
    | gate g =>
      rw [Touches, uses, hargs] at hx
      cases hx
    | call qFunc operands =>
      rw [Touches, hargs] at hx
      simp at hx
  refine ⟨h.names, ?_, fun hfirst n i ↦ ?_, h.leaf⟩
  · rw [forall_mem_concat, h.isFirstMeas]
    exact ⟨fun hpre ↦ ⟨hpre, fun hm ↦ hm.2 hargs⟩, fun hall ↦ hall.1⟩
  · rw [exists_mem_concat, h.hasElem hfirst, or_iff_left (htouch n i)]

theorem BodyInv.gate {F : Func} {g : GateCall Operand} (h : BodyInv F tables pre s)
    (hnames : ∀ q ∈ (Inst.gate g).args, q.name ∈ F.tracked)
    (hfirst : (s.isFirstMeas && isMeas g) = false) :
    BodyInv F tables (pre ++ [.gate g]) { s.addToTSGates g (s.funcQbits.lastUses (uses g) + 1) with
      funcQbits := asap uses s.funcQbits g } := by
  rw [← h.names] at hnames
  have hkept : (s.addToTSGates g (s.funcQbits.lastUses (uses g) + 1)).isFirstMeas =
      s.isFirstMeas := by
    rw [State.addToTSGates]
    split <;> rfl
  refine ⟨Clocks.names_use.trans h.names, ?_, fun hmeas n i ↦ ?_, fun hleaf ↦ ?_⟩
  · show (s.addToTSGates g _).isFirstMeas = true ↔ _
    rw [hkept, forall_mem_concat, h.isFirstMeas]
    refine ⟨fun hpre ↦ ⟨hpre, fun hm ↦ ?_⟩, fun hall ↦ hall.1⟩
    rw [h.isFirstMeas.mpr hpre, Bool.true_and] at hfirst
    exact Bool.false_ne_true (hfirst.symm.trans hm.1)
  · show HasElem (s.funcQbits.use _ (uses g)) n i ↔ _
    rw [hasElem_use, h.hasElem (hkept.symm.trans hmeas), exists_mem_concat]
    rfl
  · have hleaf : s.isLeaf = true := isLeaf_addToTSGates.symm.trans hleaf
    exact (h.leaf hleaf).gate hleaf hnames

theorem BodyInv.meas {F : Func} {g : GateCall Operand} {q : Operand}
    (h : BodyInv F tables pre s) (hargs : (Inst.gate g).args = [q]) (hmeas : isMeas g = true)
    (hq : HasEntry s.funcQbits q) :
    BodyInv F tables (pre ++ [.gate g]) { s.addToTSGates g (s.funcQbits.latest + 1) with
      funcQbits := measured s.funcQbits q, isFirstMeas := false } := by
  refine ⟨h.names, ?_, fun hfirst ↦ absurd hfirst Bool.false_ne_true, fun hleaf ↦ ?_⟩
  · refine ⟨fun hfirst ↦ absurd hfirst Bool.false_ne_true, fun hall ↦ ?_⟩
    exact absurd ⟨hmeas, by rw [hargs]; simp⟩ (forall_mem_concat.mp hall).2
  · have hleaf : s.isLeaf = true := isLeaf_addToTSGates.symm.trans hleaf
    exact (h.leaf hleaf).meas hleaf hq fun q' hq' ↦ List.mem_singleton.mp (hargs ▸ hq')

theorem BodyInv.called {F : Func} {qFunc : Ident} {operands : List Operand} {s' : State}
    (h : BodyInv F tables pre s)
    (hs' : Called tables s qFunc (Inst.call qFunc operands).args s') :
    BodyInv F tables (pre ++ [.call qFunc operands]) s' := by
  refine ⟨hs'.names.trans h.names, ?_, fun hfirst n i ↦ ?_, fun hleaf ↦ ?_⟩
  · rw [hs'.isFirstMeas, forall_mem_concat, h.isFirstMeas]
    exact ⟨fun hpre ↦ ⟨hpre, fun hm ↦ Bool.false_ne_true hm.1⟩, fun hall ↦ hall.1⟩
  · rw [hs'.hasElem, h.hasElem (hs'.isFirstMeas ▸ hfirst), exists_mem_concat]
    rfl
  · rw [hs'.isLeaf] at hleaf
    exact absurd hleaf Bool.false_ne_true

theorem exists_args_of_isMeas {g : GateCall Operand} (h : isMeas g = true)
    (hargs : (Inst.gate g).args ≠ []) : ∃ q, (Inst.gate g).args = [q] := by
  obtain ⟨b, q, rfl⟩ := GenSimd.exists_of_isMeas h
  refine ⟨q, ?_⟩
  have hop : (Inst.gate (.meas b q)).args = if q.ty = .qbit then [q] else [] := by
    simp [Inst.args, GateCall.operands, List.filter_cons]
  rw [hop] at hargs ⊢
  split at hargs
  · rw [if_pos ‹_›]
  · exact absurd rfl hargs

/-- **One call.** The pass gets through it if its searches succeed. -/
theorem BodyInv.step (asserts : Bool) {F : Func} (h : BodyInv F tables pre s)
    (hnames : ∀ q ∈ x.args, q.name ∈ F.tracked) :
    (Served asserts tables x → EntryMade tables pre x →
      ∃ s', calc_critical_time asserts tables s x = .ok s' ∧ BodyInv F tables (pre ++ [x]) s') ∧
    (¬ Served asserts tables x →
      calc_critical_time asserts tables s x = .error (stop asserts)) ∧
    (¬ EntryMade tables pre x →
      calc_critical_time asserts tables s x = .error .missingEntry) := by
  cases hargs : x.args with
  | nil =>
    have hcalc : calc_critical_time asserts tables s x = .ok s := by
      rw [calc_critical_time, hargs]
    refine ⟨fun _ _ ↦ ⟨s, hcalc, h.skip hargs⟩, fun hserved ↦ ?_, fun hmade ↦ ?_⟩
    · refine absurd ?_ hserved
      cases x with
      | gate g => trivial
      | call qFunc operands => exact .inl hargs
    · exact absurd (fun hm ↦ absurd hargs hm.2) hmade
  | cons q qs =>
    have hne : x.args ≠ [] := by rw [hargs]; exact List.cons_ne_nil q qs
    cases x with
    | call qFunc operands =>
      -- a call is no measurement, so it makes no first use of an entry
      have hnotMeas : ¬ Measures (.call qFunc operands) := fun hm ↦ Bool.false_ne_true hm.1
      have hcalc : calc_critical_time asserts tables s (.call qFunc operands) =
          call_function asserts tables s qFunc (Inst.call qFunc operands).args := by
        rw [calc_critical_time, hargs]
      have hy := yields_call_function (s := s) asserts tables qFunc
        (by rw [h.names]; exact hnames : ∀ q ∈ (Inst.call qFunc operands).args, _)
      rw [hcalc]
      refine ⟨fun hserved _ ↦ ?_, fun hserved ↦ hy.error fun hcall ↦ hserved (.inr hcall),
        fun hmade ↦ absurd (fun hm ↦ absurd hm hnotMeas) hmade⟩
      obtain ⟨s', hs', hcalled⟩ := hy.ok (hserved.resolve_left hne)
      exact ⟨s', hs', h.called hcalled⟩
    | gate g =>
      rw [calc_critical_time_gate hargs]
      cases hfirst : s.isFirstMeas && isMeas g with
      | false =>
        rw [if_neg Bool.false_ne_true]
        refine ⟨fun _ _ ↦ ⟨_, schedule_gate_eq (by rw [h.names]; exact hnames),
          h.gate hnames hfirst⟩, fun hserved ↦ absurd trivial hserved, fun hmade ↦ ?_⟩
        refine absurd (fun hm hpre ↦ ?_) hmade
        rw [h.isFirstMeas.mpr hpre, Bool.true_and] at hfirst
        exact absurd (hfirst.symm.trans hm.1) Bool.false_ne_true
      | true =>
        obtain ⟨hfm, hmeas⟩ := Bool.and_eq_true_iff.mp hfirst
        obtain ⟨q', hq'⟩ := exists_args_of_isMeas hmeas hne
        obtain ⟨rfl, rfl⟩ := List.cons.inj (hargs.symm.trans hq')
        have hname : q.name ∈ s.funcQbits.names := by
          rw [h.names]
          exact hnames q (hq' ▸ List.mem_singleton_self q)
        -- the gate is the first measurement, so the elements known are those made before it
        have hmade : EntryMade tables pre (.gate g) ↔ HasEntry s.funcQbits q := by
          rw [EntryMade, hq']
          constructor
          · intro hmade
            refine ⟨hname, fun i hi ↦ (h.hasElem hfm _ i).mpr ?_⟩
            exact hmade ⟨hmeas, hne⟩ (h.isFirstMeas.mp hfm) q (List.mem_singleton_self q) i hi
          · rintro hq - - q' hq' i hi
            obtain rfl := List.mem_singleton.mp hq'
            exact (h.hasElem hfm _ i).mp (hq.2 i hi)
        rw [if_pos rfl, hmade]
        obtain ⟨hok, herror⟩ := first_measurement_eq (g := g) hname
        exact ⟨fun _ hq ↦ ⟨_, hok hq, h.meas hq' hmeas hq⟩, fun hserved ↦ absurd trivial hserved,
          herror⟩

/-- **A part of the body.** When the pass gets through it, all its searches succeeded. -/
theorem bodyInv_of_ok {F : Func} {body : List Inst}
    (hnames : ∀ x ∈ body, ∀ q ∈ x.args, q.name ∈ F.tracked)
    (h : calc_critical_times asserts tables F.start body = .ok s) :
    BodyInv F tables body s ∧ ∀ x ∈ body, Served asserts tables x := by
  induction body using List.reverseRecOn generalizing s with
  | nil =>
    cases h
    exact ⟨bodyInv_start F, List.forall_mem_nil _⟩
  | append_singleton body x ih =>
    obtain ⟨hbody, hx⟩ := forall_mem_concat.mp hnames
    obtain ⟨t, ht, h⟩ := foldlM_append_eq_ok.mp h
    rw [List.foldlM_cons, bind_eq_ok] at h
    obtain ⟨s', hs', h⟩ := h
    cases h
    obtain ⟨hinv, hserved⟩ := ih hbody ht
    obtain ⟨hok, hcall, hmeas⟩ := hinv.step asserts hx
    have hx : Served asserts tables x := by
      by_contra hx
      rw [hcall hx] at hs'
      cases hs'
    have hmade : EntryMade tables body x := by
      by_contra hmade
      rw [hmeas hmade] at hs'
      cases hs'
    obtain ⟨s'', hs'', hinv'⟩ := hok hx hmade
    rw [hs', Except.ok.injEq] at hs''
    exact ⟨hs'' ▸ hinv', forall_mem_concat.mpr ⟨hserved, hx⟩⟩

theorem BodyFunc.names (F : BodyFunc) : ∀ x ∈ F.body, ∀ q ∈ x.args, q.name ∈ F.tracked := by
  intro x hx q hq
  have hargs : q ∈ x.operands ∧ q.ty = .qbit := by
    cases x <;> simpa [Inst.args, Inst.operands] using hq
  rw [Func.tracked, List.mem_append]
  rcases F.declared x hx q hargs.1 with h | h
  · refine .inl (List.mem_map.mpr ⟨_, List.mem_filter.mpr ⟨h, ?_⟩, rfl⟩)
    simp [hargs.2]
  · refine .inr (List.mem_map.mpr ⟨_, List.mem_filter.mpr ⟨h, ?_⟩, rfl⟩)
    simp [hargs.2]

/-- **No entry is missing** exactly if, whenever all calls of functions before a call found what
they need, that call does too or is stopped by an assertion, and the operand of the first
measurement was touched before. -/
theorem lookups_iff (asserts : Bool) (tables : Tables) (F : BodyFunc) :
    CountCriticalFunctionResources asserts tables F.toFunc ≠ .error .missingEntry ↔
      ∀ pre x post, F.body = pre ++ x :: post → (∀ y ∈ pre, Served asserts tables y) →
        (asserts = true ∨ Served asserts tables x) ∧ EntryMade tables pre x := by
  -- a missing entry at a call of the body
  have hmissing : ∀ pre x post t, F.body = pre ++ x :: post →
      calc_critical_times asserts tables F.start pre = .ok t →
      calc_critical_time asserts tables t x = .error .missingEntry →
        CountCriticalFunctionResources asserts tables F.toFunc = .error .missingEntry := by
    intro pre x post t heq ht hx
    refine bind_eq_error.mpr (.inl ?_)
    rw [heq]
    exact foldlM_eq_error.mpr ⟨pre, x, post, t, rfl, ht, hx⟩
  have hnames : ∀ {pre x post}, F.body = pre ++ x :: post →
      (∀ y ∈ pre, ∀ q ∈ y.args, q.name ∈ F.tracked) ∧ ∀ q ∈ x.args, q.name ∈ F.tracked := by
    intro pre x post heq
    exact ⟨fun y hy ↦ F.names y (heq ▸ List.mem_append_left _ hy),
      F.names x (heq ▸ List.mem_append_right _ List.mem_cons_self)⟩
  constructor
  · intro h pre x post heq hserved
    cases hrun : calc_critical_times asserts tables F.start pre with
    | ok t =>
      obtain ⟨-, hcall, hmeas⟩ :=
        ((bodyInv_of_ok (hnames heq).1 hrun).1).step asserts (hnames heq).2
      constructor
      · by_contra hx
        obtain ⟨ha, hx⟩ := not_or.mp hx
        refine h (hmissing pre x post t heq hrun ((hcall hx).trans ?_))
        rw [stop, if_neg ha]
      · by_contra hmade
        exact h (hmissing pre x post t heq hrun (hmeas hmade))
    | error e =>
      -- all calls of functions before were served, so a measurement was not
      obtain ⟨pre', y, rest, t, rfl, ht, hy⟩ := foldlM_eq_error.mp hrun
      rw [List.append_assoc, List.cons_append] at heq
      obtain ⟨hok, -, hmeas⟩ := ((bodyInv_of_ok (hnames heq).1 ht).1).step asserts (hnames heq).2
      by_cases hmade : EntryMade tables pre' y
      · obtain ⟨s', hs', -⟩ := hok (hserved y (by simp)) hmade
        rw [hs'] at hy
        cases hy
      · exact absurd (hmissing pre' y _ t heq ht (hmeas hmade)) h
  · intro h herror
    rcases bind_eq_error.mp herror with hrun | ⟨s, hrun, herror⟩
    · obtain ⟨pre, x, post, t, heq, ht, hx⟩ := foldlM_eq_error.mp hrun
      obtain ⟨hinv, hpre⟩ := bodyInv_of_ok (hnames heq).1 ht
      obtain ⟨hserved, hmade⟩ := h pre x post heq hpre
      obtain ⟨hok, hcall, -⟩ := hinv.step asserts (hnames heq).2
      by_cases hxs : Served asserts tables x
      · obtain ⟨s', hs', -⟩ := hok hxs hmade
        rw [hs'] at hx
        cases hx
      · rw [hcall hxs, stop, if_pos (hserved.resolve_right hxs)] at hx
        cases hx
    · -- the body ran through, so only the last lookup of a leaf is left
      have hinv := (bodyInv_of_ok F.names hrun).1
      cases hleaf : s.isLeaf with
      | false =>
        simp only [hleaf, Bool.false_eq_true, if_false] at herror
        cases herror
      | true =>
        simp only [hleaf, if_true] at herror
        rcases bind_eq_error.mp herror with herror | ⟨H, -, herror⟩
        · cases ((hinv.leaf hleaf).yields.eq_of_error herror).1
        · cases herror

end ScaffCC.CriticalPath
