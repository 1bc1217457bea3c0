import ScaffCC.Lpfs.Rounds

/-!
# Moves with local memories

With local memories every move of a qubit starts at the place in its entry. As long as no operation
is in a region whose number is divisible by ten, the number of qubits in each local memory is
counted right. So a full one has a qubit that can be put out, and this qubit is not in its region
but still on the list of those to be fetched, if it is used.
-/

namespace ScaffCC.Lpfs

open Scheduling

variable {body : List Call} {s : State} {O : MoveOptions} {ts : ℕ} {m m' : Moving} {p q : Qubit}
  {us : List (Qubit × ℕ × ℕ)} {σ : Tracking} {pending pending' : List Qubit}

/-! ## The qubits at a place -/

/-- The number of qubits at a place. -/
def held (body : List Call) (σ : Tracking) (a : ℕ) : ℕ :=
  (names body).countP fun w ↦ (σ.qubitMap w).loc = a

theorem held_congr {σ σ' : Tracking} (h : ∀ p ∈ qubits body, σ'.loc p = σ.loc p) (a : ℕ) :
    held body σ' a = held body σ a := by
  refine List.countP_congr fun w hw ↦ ?_
  obtain ⟨p, hp, rfl⟩ := mem_names.mp hw
  rw [decide_eq_true_iff, decide_eq_true_iff]
  exact iff_of_eq (congrArg (· = a) (h p hp))

theorem held_move {σ σ' : Tracking} {dest : ℕ} (hq : q ∈ qubits body)
    (h : ∀ p ∈ qubits body, σ'.loc p = if p = q then dest else σ.loc p) (a : ℕ) :
    held body σ' a + (if σ.loc q = a then 1 else 0)
      = held body σ a + if dest = a then 1 else 0 := by
  have hmem : qubitName q ∈ names body := mem_names.mpr ⟨q, hq, rfl⟩
  have hperm := List.perm_cons_erase hmem
  have hrest : ((names body).erase (qubitName q)).countP (fun w ↦ (σ'.qubitMap w).loc = a)
      = ((names body).erase (qubitName q)).countP fun w ↦ (σ.qubitMap w).loc = a := by
    refine List.countP_congr fun w hw ↦ ?_
    obtain ⟨hne, hw⟩ := (nodup_names body).mem_erase_iff.mp hw
    obtain ⟨p, hp, rfl⟩ := mem_names.mp hw
    have hpq : p ≠ q := fun heq ↦ hne (by rw [heq])
    rw [decide_eq_true_iff, decide_eq_true_iff]
    exact iff_of_eq (congrArg (· = a) ((h p hp).trans (if_neg hpq)))
  have hhead : (σ'.qubitMap (qubitName q)).loc = dest := (h q hq).trans (if_pos rfl)
  rw [held, held, hperm.countP_eq, hperm.countP_eq, List.countP_cons, List.countP_cons, hrest,
    hhead]
  have hold : (σ.qubitMap (qubitName q)).loc = σ.loc q := rfl
  rw [hold]
  by_cases hsrc : σ.loc q = a <;> by_cases hdest : dest = a <;> simp [hsrc, hdest]

theorem exists_of_held_pos {σ : Tracking} {a : ℕ} (h : 0 < held body σ a) :
    ∃ q ∈ qubits body, σ.loc q = a := by
  obtain ⟨w, hw, hloc⟩ := List.countP_pos_iff.mp h
  obtain ⟨q, hq, rfl⟩ := mem_names.mp hw
  exact ⟨q, hq, of_decide_eq_true hloc⟩

/-! ## Putting a qubit out -/

theorem foldl_best_of_some {a : ℕ} (l : List (List Char)) {best : ℤ × Option QArgInfo}
    (h : ∃ w ∈ names body, (m.qubitMap w).loc = a ∧ best.2 = some (m.qubitMap w))
    (hl : l ⊆ names body) :
    ∃ w ∈ names body, (m.qubitMap w).loc = a ∧
      (l.foldl (fun (best : ℤ × Option QArgInfo) name ↦
        let e := m.qubitMap name
        if e.loc = a ∧ best.1 ≤ e.nextTS then (e.nextTS, some e) else best) best).2
        = some (m.qubitMap w) := by
  induction l generalizing best with
  | nil => exact h
  | cons w l ih =>
    obtain ⟨hw, hl⟩ := List.cons_subset.mp hl
    refine ih ?_ hl
    dsimp only
    split_ifs with hbest
    · exact ⟨w, hw, hbest.1, rfl⟩
    · exact h

theorem foldl_best {a : ℕ} {l : List (List Char)} (h : ∃ w ∈ l, (m.qubitMap w).loc = a)
    (hl : l ⊆ names body)
    (hsoon : ∀ w ∈ names body, (m.qubitMap w).loc = a → 0 ≤ (m.qubitMap w).nextTS) :
    ∃ w ∈ names body, (m.qubitMap w).loc = a ∧
      (l.foldl (fun (best : ℤ × Option QArgInfo) name ↦
        let e := m.qubitMap name
        if e.loc = a ∧ best.1 ≤ e.nextTS then (e.nextTS, some e) else best) (0, none)).2
        = some (m.qubitMap w) := by
  induction l with
  | nil => simp at h
  | cons w l ih =>
    obtain ⟨hw, hl⟩ := List.cons_subset.mp hl
    rw [List.foldl_cons]
    by_cases hloc : (m.qubitMap w).loc = a
    · rw [if_pos ⟨hloc, hsoon w hw hloc⟩]
      exact foldl_best_of_some l ⟨w, hw, hloc, rfl⟩ hl
    · rw [if_neg fun h ↦ hloc h.1]
      obtain ⟨v, hv, hva⟩ := h
      refine ih ⟨v, (List.mem_cons.mp hv).resolve_left ?_, hva⟩ hl
      rintro rfl
      exact hloc hva

/-- A qubit is found if there is one, and if all there are needed again. -/
theorem exists_victim {a : ℕ} (hheld : 0 < held body m.toTracking a)
    (hsoon : ∀ q ∈ qubits body, m.loc q = a → 0 ≤ (m.entry q).nextTS) :
    ∃ q ∈ qubits body, m.loc q = a ∧ m.victim body a = some (m.entry q) := by
  obtain ⟨q, hq, hloc⟩ := exists_of_held_pos hheld
  obtain ⟨w, hw, hwa, hbest⟩ := foldl_best (m := m)
    ⟨qubitName q, mem_names.mpr ⟨q, hq, rfl⟩, hloc⟩ (List.Subset.refl _) fun w hw hwa ↦ by
      obtain ⟨p, hp, rfl⟩ := mem_names.mp hw
      exact hsoon p hp hwa
  obtain ⟨p, hp, rfl⟩ := mem_names.mp hw
  exact ⟨p, hp, hwa, hbest⟩

/-! ## What is kept about the local memories -/

/-- The operation is placed. -/
def Known (s : State) (last : Option ℕ) : Prop := ∃ i, last = some i ∧ 0 ≤ opSimd s i

theorem opSimd_nonneg_of_opTS {i : ℕ} (h : opTS s i = ts) : 0 ≤ opSimd s i := by
  rw [opTS] at h
  rw [opSimd]
  cases hslot : s.slot i with
  | none =>
    rw [hslot] at h
    exact absurd h (by simp)
  | some x => simp

theorem nextUseOf_nonneg (body : List Call) (s : State) (i : ℕ) (q : Qubit)
    (h : 0 ≤ (nextUseOf body s i q).2) : 0 ≤ (nextUseOf body s i q).1 := by
  have hop : ∀ j, 0 ≤ opSimd s j → 0 ≤ opTS s j := by
    intro j
    rw [opSimd, opTS]
    cases s.slot j <;> simp
  have hfold : ∀ (l : List ℕ) (low : ℤ × ℤ), (0 ≤ low.2 → 0 ≤ low.1) →
      0 ≤ (l.foldl (fun low j ↦
        if q ∈ (callAt body j).args then (opTS s j, opSimd s j) else low) low).2 →
      0 ≤ (l.foldl (fun low j ↦
        if q ∈ (callAt body j).args then (opTS s j, opSimd s j) else low) low).1 := by
    intro l
    induction l with
    | nil => exact fun low hlow ↦ hlow
    | cons j l ih =>
      intro low hlow
      refine ih _ ?_
      dsimp only
      split_ifs
      · exact hop j
      · exact hlow
  exact hfold _ _ (fun _ ↦ by decide) h

/-- The tables while the first loop goes on, with the qubits `pending` still to be looked at. -/
structure Stored (body : List Call) (s : State) (O : MoveOptions) (ts : ℕ) (pending : List Qubit)
    (m : Moving) : Prop where
  listed : ∀ q ∈ pending ++ m.next, q ∈ qubits body ∧ Known s (m.entry q).last_inst
  sizes : ∀ r, 1 ≤ r → m.localMemSizeMap (r * 10) = held body m.toTracking (r * 10)
  soon : ∀ q ∈ qubits body, ∀ r, 1 ≤ r → m.loc q = r * 10 → 0 ≤ (m.entry q).nextTS
  room : 1 ≤ O.local_Q ∨ ∀ q ∈ pending, ∀ i, (m.entry q).last_inst = some i →
    ¬ wantsLocal body s O ts i q

theorem Stored.moved (hst : Stored body s O ts pending m)
    (hq : q ∈ qubits body) {dest : ℕ}
    (hloc : ∀ p ∈ qubits body, m'.loc p = if p = q then dest else m.loc p)
    (hframe : ∀ p ∈ qubits body, (m'.entry p).nextTS = (m.entry p).nextTS ∧
      (m'.entry p).last_inst = (m.entry p).last_inst)
    (hsize : ∀ r, 1 ≤ r → m'.localMemSizeMap (r * 10) + (if m.loc q = r * 10 then 1 else 0)
      = m.localMemSizeMap (r * 10) + if dest = r * 10 then 1 else 0)
    (hlists : ∀ p ∈ pending' ++ m'.next, p ∈ qubits body ∧ Known s (m.entry p).last_inst)
    (hpending : pending' ⊆ pending)
    (hsoon : ∀ r, 1 ≤ r → dest = r * 10 → 0 ≤ (m.entry q).nextTS) :
    Stored body s O ts pending' m' := by
  have hlast : ∀ p ∈ pending' ++ m'.next, (m'.entry p).last_inst = (m.entry p).last_inst :=
    fun p hp ↦ (hframe p (hlists p hp).1).2
  refine ⟨fun p hp ↦ ⟨(hlists p hp).1, hlast p hp ▸ (hlists p hp).2⟩, fun r hr ↦ ?_,
    fun p hp r hr hpr ↦ ?_, hst.room.imp_right fun hroom p hp i hi ↦ ?_⟩
  · have hheld := held_move hq hloc (r * 10)
    have hold := hst.sizes r hr
    have hnew := hsize r hr
    split_ifs at hheld hnew <;> omega
  · rw [(hframe p hp).1]
    rw [hloc p hp] at hpr
    split_ifs at hpr with hpq
    · exact hpq ▸ hsoon r hr hpr
    · exact hst.soon p hp r hr hpr
  · rw [hlast p (List.mem_append_left _ hp)] at hi
    exact hroom p (hpending hp) i hi

namespace Stored

/-- A place that is not divisible by ten is neither that of a local memory nor counted. -/
theorem ne_of_mod {a r : ℕ} (h : a % 10 ≠ 0) : a ≠ r * 10 := by
  rintro rfl
  exact h (Nat.mul_mod_left r 10)

theorem keep (hown : Own body m.qubitMap) (hst : Stored body s O ts (q :: pending) m) :
    Stored body s O ts pending (m.keep (qubitName q)) := by
  have hq := hst.listed q List.mem_cons_self
  have hnext : (m.keep (qubitName q)).next = m.next ++ [q] :=
    congrArg (fun q ↦ m.next ++ [q]) (hown q hq.1)
  refine ⟨fun p hp ↦ ?_, hst.sizes, hst.soon,
    hst.room.imp_right fun hroom p hp ↦ hroom p (List.mem_cons_of_mem q hp)⟩
  rw [hnext, ← List.append_assoc, List.mem_append, List.mem_singleton] at hp
  rcases hp with hp | rfl
  · exact hst.listed p (List.mem_cons_of_mem q hp)
  · exact hq

theorem drop (hst : Stored body s O ts (q :: pending) m) : Stored body s O ts pending m :=
  ⟨fun p hp ↦ hst.listed p (List.mem_cons_of_mem q hp), hst.sizes, hst.soon,
    hst.room.imp_right fun hroom p hp ↦ hroom p (List.mem_cons_of_mem q hp)⟩

/-- A qubit is moved from a region to a region or to the memory. -/
theorem move (h : DistinctNames body) (hst : Stored body s O ts pending m) (hq : q ∈ qubits body)
    (isLocal : Bool) {src dest : ℕ} (hsrc : m.loc q % 10 ≠ 0)
    (hdest : ∀ r, 1 ≤ r → dest ≠ r * 10) :
    Stored body s O ts pending (m.move ts isLocal (qubitName q) src dest) := by
  refine hst.moved hq (fun p hp ↦ Moving.loc_move h hp hq ts isLocal src dest) (fun p hp ↦ ?_)
    (fun r hr ↦ ?_) hst.listed (List.Subset.refl _) fun r hr hd ↦ absurd hd (hdest r hr)
  · rw [Moving.entry_move h hp hq ts isLocal src dest]
    split_ifs with hpq
    · rw [hpq]
      exact ⟨rfl, rfl⟩
    · exact ⟨rfl, rfl⟩
  · rw [if_neg (ne_of_mod hsrc), if_neg (hdest r hr)]
    rfl

theorem taken (h : DistinctNames body) (hown : Own body m.qubitMap)
    (hst : Stored body s O ts (q :: pending) m) {c : Qubit × ℕ} (hc : c.1 = q)
    (hsrc : m.loc q % 10 ≠ 0) (hregion : c.2 % 10 ≠ 0) :
    Stored body s O ts pending (m.taken ts c) := by
  subst hc
  obtain ⟨hmem, hlast⟩ := hst.listed c.1 List.mem_cons_self
  have hentry : ∀ p ∈ qubits body, (m.taken ts c).entry p = _ := fun p hp ↦
    Moving.entry_taken (m := m) h hp hmem
  refine hst.moved hmem (fun p hp ↦ ?_) (fun p hp ↦ ?_) (fun r hr ↦ ?_) (fun p hp ↦ ?_)
    (List.subset_cons_self _ _) fun r hr hd ↦ absurd hd (ne_of_mod hregion)
  · rw [Tracking.loc_eq, hentry p hp]
    split_ifs <;> rfl
  · rw [hentry p hp]
    split_ifs with hpc
    · exact ⟨rfl, rfl⟩
    · exact ⟨rfl, rfl⟩
  · have hsize : (m.taken ts c).localMemSizeMap = m.localMemSizeMap := by
      rw [Moving.taken]
      split_ifs <;> rfl
    rw [hsize, if_neg (ne_of_mod hsrc), if_neg (ne_of_mod hregion)]
  · rw [Moving.next_taken hown hmem, ← List.append_assoc, List.mem_append,
      List.mem_singleton] at hp
    rcases hp with hp | rfl
    · exact hst.listed p (List.mem_cons_of_mem _ hp)
    · exact ⟨hmem, hlast⟩

/-- The time of the next use is noted for a qubit in a region. -/
theorem modify (h : DistinctNames body) (hst : Stored body s O ts pending m)
    (hq : q ∈ qubits body) (hsrc : m.loc q % 10 ≠ 0) (t : ℤ) :
    Stored body s O ts pending (m.modify (qubitName q) fun e ↦ { e with nextTS := t }) := by
  have hentry : ∀ p ∈ qubits body, _ = _ := fun p hp ↦
    Moving.entry_modify (m := m) h hp hq fun e ↦ { e with nextTS := t }
  have hloc : ∀ p ∈ qubits body,
      (m.modify (qubitName q) fun e ↦ { e with nextTS := t }).loc p = m.loc p := by
    intro p hp
    rw [Tracking.loc_eq, hentry p hp]
    split_ifs with hpq
    · rw [hpq]
      rfl
    · rfl
  have hlast : ∀ p ∈ qubits body, ((m.modify (qubitName q) fun e ↦
      { e with nextTS := t }).entry p).last_inst = (m.entry p).last_inst := by
    intro p hp
    rw [hentry p hp]
    split_ifs with hpq
    · rw [hpq]
    · rfl
  refine ⟨fun p hp ↦ ?_, fun r hr ↦ ?_, fun p hp r hr hpr ↦ ?_,
    hst.room.imp_right fun hroom p hp i hi ↦ ?_⟩
  · obtain ⟨hmem, hne⟩ := hst.listed p hp
    exact ⟨hmem, hlast p hmem ▸ hne⟩
  · rw [held_congr hloc]
    exact hst.sizes r hr
  · rw [hloc p hp] at hpr
    have hpq : p ≠ q := by
      rintro rfl
      exact ne_of_mod hsrc hpr
    rw [hentry p hp, if_neg hpq]
    exact hst.soon p hp r hr hpr
  · rw [hlast p (hst.listed p (List.mem_append_left _ hp)).1] at hi
    exact hroom p hp i hi

theorem evict (h : DistinctNames body) (hst : Stored body s O ts pending m) (hp : p ∈ qubits body)
    {r : ℕ} (hr : 1 ≤ r) (hloc : m.loc p = r * 10) :
    Stored body s O ts pending
      ((m.move ts false (qubitName p) (r * 10) 0).resize (r * 10) (-1)) := by
  refine hst.moved hp (fun p' hp' ↦ Moving.loc_move h hp' hp ts false (r * 10) 0)
    (fun p' hp' ↦ ?_) (fun r' hr' ↦ ?_) hst.listed (List.Subset.refl _)
    fun r' hr' hd ↦ absurd hd (by omega)
  · have hentry := Moving.entry_move (m := m) h hp' hp ts false (r * 10) 0
    have hresize : ((m.move ts false (qubitName p) (r * 10) 0).resize (r * 10) (-1)).entry p'
        = (m.move ts false (qubitName p) (r * 10) 0).entry p' := rfl
    rw [hresize, hentry]
    split_ifs with hpp
    · rw [hpp]
      exact ⟨rfl, rfl⟩
    · exact ⟨rfl, rfl⟩
  · have hsize : ((m.move ts false (qubitName p) (r * 10) 0).resize (r * 10) (-1)).localMemSizeMap
        = Function.update m.localMemSizeMap (r * 10) (m.localMemSizeMap (r * 10) + -1) := rfl
    rw [hsize, hloc]
    by_cases hrr : r' * 10 = r * 10
    · rw [hrr, Function.update_self, if_pos rfl, if_neg (by omega)]
      omega
    · rw [Function.update_of_ne hrr, if_neg fun heq ↦ hrr heq.symm, if_neg (by omega)]

/-- A qubit is put into the local memory of its region. -/
theorem store (h : DistinctNames body) (hown : Own body m.qubitMap)
    (hst : Stored body s O ts (q :: pending) m) (hsrc : m.loc q % 10 ≠ 0)
    (hsoon : 0 ≤ (m.entry q).nextTS) :
    Stored body s O ts pending (((m.move ts true (qubitName q) (m.loc q) (m.loc q * 10)).keep
      (qubitName q)).resize (m.loc q * 10) 1) := by
  obtain ⟨hmem, hlast⟩ := hst.listed q List.mem_cons_self
  refine hst.moved hmem
    (fun p hp ↦ Moving.loc_move h hp hmem ts true (m.loc q) (m.loc q * 10))
    (fun p hp ↦ ?_) (fun r hr ↦ ?_) (fun p hp ↦ ?_) (List.subset_cons_self _ _)
    fun r hr hd ↦ hsoon
  · have hentry := Moving.entry_move (m := m) h hp hmem ts true (m.loc q) (m.loc q * 10)
    have hresize : (((m.move ts true (qubitName q) (m.loc q) (m.loc q * 10)).keep
        (qubitName q)).resize (m.loc q * 10) 1).entry p
        = (m.move ts true (qubitName q) (m.loc q) (m.loc q * 10)).entry p := rfl
    rw [hresize, hentry]
    split_ifs with hpq
    · rw [hpq]
      exact ⟨rfl, rfl⟩
    · exact ⟨rfl, rfl⟩
  · have hsize : (((m.move ts true (qubitName q) (m.loc q) (m.loc q * 10)).keep
        (qubitName q)).resize (m.loc q * 10) 1).localMemSizeMap
        = Function.update m.localMemSizeMap (m.loc q * 10)
          (m.localMemSizeMap (m.loc q * 10) + 1) := rfl
    rw [hsize, if_neg (ne_of_mod hsrc)]
    by_cases hrr : r * 10 = m.loc q * 10
    · rw [hrr, Function.update_self, if_pos rfl]
      omega
    · rw [Function.update_of_ne hrr, if_neg fun heq ↦ hrr heq.symm]
  · have hnext : (((m.move ts true (qubitName q) (m.loc q) (m.loc q * 10)).keep
        (qubitName q)).resize (m.loc q * 10) 1).next = m.next ++ [q] := by
      have hown' := (hown.update h hmem (e := { m.entry q with loc := m.loc q * 10 })
        (hown q hmem)) q hmem
      exact congrArg (fun q ↦ m.next ++ [q]) hown'
    rw [hnext, ← List.append_assoc, List.mem_append, List.mem_singleton] at hp
    rcases hp with hp | rfl
    · exact hst.listed p (List.mem_cons_of_mem _ hp)
    · exact ⟨hmem, hlast⟩

end Stored

/-! ## The first loop -/

/-- What the places of the operands and of other operations are like. -/
structure RegionsOk (s : State) (k ts : ℕ) (us : List (Qubit × ℕ × ℕ)) : Prop where
  used : ∀ u ∈ us, u.2.1 % 10 ≠ 0
  active : ∀ a, simdActive k s ts a → a % 10 ≠ 0

theorem Consistent.not_used_of_label (hm : Consistent body s ts us σ m) {i : ℕ}
    (hi : (m.entry q).last_inst = some i) (hts : opTS s i ≠ ts) : ∀ u ∈ us, u.1 ≠ q := by
  rintro u hu rfl
  obtain ⟨j, hj, hjts⟩ := hm.label u hu
  rw [hi, Option.some.injEq] at hj
  exact hts (hj ▸ hjts)

/-- The qubits that have been put into local memories at the timestep are not used, and they are at
places divisible by ten. -/
def Parked (body : List Call) (ts : ℕ) (us : List (Qubit × ℕ × ℕ)) (m : Moving) : Prop :=
  ∀ mov ∈ m.local_move_schedule, mov.ts = ts →
    mov.token ∈ qubits body ∧ m.loc mov.token % 10 = 0 ∧ ∀ u ∈ us, u.1 ≠ mov.token

namespace Parked

theorem unstored_of_mod (h : Parked body ts us m) (hq : m.loc q % 10 ≠ 0) : m.Unstored ts q :=
  fun mov hmov hts heq ↦ hq (heq ▸ (h mov hmov hts).2.1)

theorem unstored_of_used (h : Parked body ts us m) {u : Qubit × ℕ × ℕ} (hu : u ∈ us) :
    m.Unstored ts u.1 :=
  fun mov hmov hts heq ↦ (h mov hmov hts).2.2 u hu heq.symm

/-- Moves that are not from or to a local memory bring no qubit away from there but those that are
used. -/
theorem congr (h : Parked body ts us m) (hB : m'.local_move_schedule = m.local_move_schedule)
    (hloc : ∀ p ∈ qubits body,
      m'.loc p = m.loc p ∨ m'.loc p % 10 = 0 ∨ ∃ u ∈ us, u.1 = p) : Parked body ts us m' := by
  intro mov hmov hts
  obtain ⟨hmem, hten, hunused⟩ := h mov (hB ▸ hmov) hts
  refine ⟨hmem, ?_, hunused⟩
  rcases hloc _ hmem with heq | hzero | ⟨u, hu, heq⟩
  · rwa [heq]
  · exact hzero
  · exact absurd heq (hunused u hu)

/-- A qubit that is not used is put into the local memory of its region. -/
theorem store (hpk : Parked body ts us m) (h : DistinctNames body) (hq : q ∈ qubits body)
    (hown : (m.entry q).qubit = q) (hunused : ∀ u ∈ us, u.1 ≠ q) {src r : ℕ} :
    Parked body ts us (((m.move ts true (qubitName q) src (r * 10)).keep (qubitName q)).resize
      (r * 10) 1) := by
  have hloc : ∀ p ∈ qubits body, _ = _ := fun p hp ↦
    Moving.loc_move (m := m) h hp hq ts true src (r * 10)
  intro mov hmov hts
  rcases List.mem_append.mp hmov with hmov | hmov
  · obtain ⟨hmem, hten, hnot⟩ := hpk mov hmov hts
    refine ⟨hmem, ?_, hnot⟩
    have hplace := hloc _ hmem
    split_ifs at hplace
    · exact (congrArg (· % 10) hplace).trans (Nat.mul_mod_left r 10)
    · exact (congrArg (· % 10) hplace).trans hten
  · have htoken : mov.token = q := by rw [List.mem_singleton.mp hmov]; exact hown
    rw [htoken]
    refine ⟨hq, ?_, hunused⟩
    exact (congrArg (· % 10) ((hloc q hq).trans (if_pos rfl))).trans (Nat.mul_mod_left r 10)

theorem taken (hpk : Parked body ts us m) (h : DistinctNames body) (hu : UsesOk body s ts us)
    {c : Qubit × ℕ} {i : ℕ} (hc : (c.1, c.2, i) ∈ us) : Parked body ts us (m.taken ts c) := by
  have hlocal : (m.taken ts c).local_move_schedule = m.local_move_schedule := by
    rw [Moving.taken]
    split_ifs <;> rfl
  refine hpk.congr hlocal fun p hp ↦ ?_
  rw [Tracking.loc_eq, Moving.entry_taken h hp (hu.mem _ hc)]
  split_ifs with hpc
  · exact .inr (.inr ⟨_, hc, hpc.symm⟩)
  · exact .inl rfl

end Parked

/-- The entries of qubits elsewhere do not matter for which qubit is put out. -/
theorem victim_modify {a : ℕ} (h : m.loc q ≠ a) (t : ℤ) :
    (m.modify (qubitName q) fun e ↦ { e with nextTS := t }).victim body a = m.victim body a := by
  rw [Moving.victim, Moving.victim]
  congr 2
  funext best name
  by_cases hname : name = qubitName q
  · subst hname
    have hentry : (m.modify (qubitName q) fun e ↦ { e with nextTS := t }).qubitMap (qubitName q) =
        { m.qubitMap (qubitName q) with nextTS := t } := Function.update_self ..
    rw [hentry, if_neg fun hle ↦ h hle.1, if_neg fun hle ↦ h hle.1]
  · have hentry : (m.modify (qubitName q) fun e ↦ { e with nextTS := t }).qubitMap name =
        m.qubitMap name := Function.update_of_ne hname ..
    rw [hentry]

theorem unstored_of_spares (h : m.spares body s O ts q) {i : ℕ}
    (hi : (m.entry q).last_inst = some i) (hactive : simdActive O.k s ts (m.loc q))
    (hwants : wantsLocal body s O ts i q)
    (hfull : O.local_Q ≤ m.localMemSizeMap (m.loc q * 10)) {v : QArgInfo}
    (hv : m.victim body (m.loc q * 10) = some v) : m.Unstored ts v.qubit := by
  have hlast : (m.qubitMap (qubitName q)).last_inst = some i := hi
  have hvictim : m.victim body ((m.qubitMap (qubitName q)).loc * 10) = some v := hv
  have hcond : simdActive O.k s ts (m.qubitMap (qubitName q)).loc ∧ wantsLocal body s O ts i q ∧
      O.local_Q ≤ m.localMemSizeMap ((m.qubitMap (qubitName q)).loc * 10) :=
    ⟨hactive, hwants, hfull⟩
  rw [Moving.spares, hlast, Option.all_some, if_pos hcond, hvictim, Option.all_some,
    List.all_eq_true] at h
  exact fun mov hmov hts heq ↦ of_decide_eq_true (h mov hmov) ⟨hts, heq⟩

/-- If the local memory is full, a qubit is put out of it. -/
theorem exists_evict (h : DistinctNames body) (hu : UsesOk body s ts us)
    (hr : RegionsOk s O.k ts us) (hm : Consistent body s ts us σ m)
    (hst : Stored body s O ts pending m) (hpk : Parked body ts us m) (hQ : 1 ≤ O.local_Q) {a : ℕ}
    (ha : a % 10 ≠ 0) (hspares : O.local_Q ≤ m.localMemSizeMap (a * 10) →
      ∀ v, m.victim body (a * 10) = some v → m.Unstored ts v.qubit) :
    ∃ m', (if a ≠ 0 ∧ O.local_Q ≤ m.localMemSizeMap (a * 10) then m.evict body ts (a * 10)
        else some m) = some m' ∧ Consistent body s ts us σ m' ∧ Stored body s O ts pending m' ∧
      Parked body ts us m' ∧ m'.next = m.next ∧
      ∀ p ∈ qubits body, m.loc p ≠ a * 10 → m'.entry p = m.entry p := by
  have hpos : 1 ≤ a := by omega
  split_ifs with hfull
  · have hheld : 0 < held body m.toTracking (a * 10) := by
      have := hst.sizes a hpos
      omega
    obtain ⟨p, hp, hloc, hvictim⟩ := exists_victim hheld fun p hp hpa ↦ hst.soon p hp a hpos hpa
    have hqubit : (m.entry p).qubit = p := hm.own p hp
    have happart : m.Unstored ts p := hqubit ▸ hspares hfull.2 _ hvictim
    refine ⟨(m.move ts false (qubitName p) (a * 10) 0).resize (a * 10) (-1), ?_, ?_,
      hst.evict h hp hpos hloc, hpk.congr rfl fun p' hp' ↦ ?_, rfl, fun p' hp' hne ↦ ?_⟩
    · rw [Moving.evict, hvictim, Option.map_some, hqubit]
    · have hwaiting : ∀ u ∈ us, u.1 = p → (u.1, u.2.1) ∈ m.current ∨ 0 = u.2.1 := by
        intro u hmem hup
        refine .inl ((hm.settled u hmem).resolve_right fun hplaced ↦ hr.used u hmem ?_)
        rw [← hplaced, hup, hloc, Nat.mul_mod_left]
      have hmove := hm.move h hu hp (fun _ : false = false ↦ happart) hwaiting
      rw [hloc] at hmove
      exact hmove.resize _ _
    · have hloc' := Moving.loc_move (m := m) h hp' hp ts false (a * 10) 0
      by_cases hpp : p' = p
      · exact .inr (.inl (congrArg (· % 10) (hloc'.trans (if_pos hpp))))
      · exact .inl (hloc'.trans (if_neg hpp))
    · have hpp : p' ≠ p := by
        rintro rfl
        exact hne hloc
      exact (Moving.entry_move h hp' hp ts false (a * 10) 0).trans (if_neg hpp)
  · exact ⟨m, rfl, hm, hst, hpk, rfl, fun _ _ _ ↦ rfl⟩

theorem exists_leaveRegion (h : DistinctNames body) (hu : UsesOk body s ts us)
    (hr : RegionsOk s O.k ts us) (hm : Consistent body s ts us σ m)
    (hst : Stored body s O ts (q :: pending) m) (hpk : Parked body ts us m)
    (hsrc : m.loc q % 10 ≠ 0) (hactive : simdActive O.k s ts (m.loc q))
    (hsp : m.spares body s O ts q) :
    ∃ m', m.leaveRegion body s O ts (qubitName q) (m.loc q) = some m' ∧
      Consistent body s ts us σ m' ∧ Stored body s O ts pending m' ∧ Parked body ts us m' := by
  obtain ⟨hmem, i, hi, hplaced⟩ := hst.listed q List.mem_cons_self
  have hlast : (m.qubitMap (qubitName q)).last_inst = some i := hi
  have hqubit : (m.qubitMap (qubitName q)).qubit = q := hm.own q hmem
  rw [Moving.leaveRegion, hlast, Option.bind_some, hqubit]
  generalize ht : (nextUseOf body s i q).1 = t
  have hm₁ := hm.modify h hu hmem (f := fun e ↦ { e with nextTS := t })
    (fun _ ↦ ⟨rfl, rfl, rfl⟩) fun u hmem' huq ↦ huq ▸ hm.simd u hmem'
  have hst₁ := hst.modify h hmem hsrc t
  -- only the next use of the operand is written before the move is chosen
  have hentry : (m.modify (qubitName q) fun e ↦ { e with nextTS := t }).entry q
      = { m.entry q with nextTS := t } :=
    (Moving.entry_modify (m := m) h hmem hmem _).trans (if_pos rfl)
  have hvictim : (m.modify (qubitName q) fun e ↦ { e with nextTS := t }).victim body
      (m.loc q * 10) = m.victim body (m.loc q * 10) := victim_modify (by omega) t
  have hsize : (m.modify (qubitName q) fun e ↦ { e with nextTS := t }).localMemSizeMap =
      m.localMemSizeMap := rfl
  have hlist : (m.modify (qubitName q) fun e ↦ { e with nextTS := t }).local_move_schedule =
      m.local_move_schedule := rfl
  have hpk₁ : Parked body ts us (m.modify (qubitName q) fun e ↦ { e with nextTS := t }) := by
    refine hpk.congr rfl fun p hp ↦ .inl ?_
    rw [Tracking.loc_eq, Moving.entry_modify h hp hmem]
    split_ifs with hpq
    · rw [hpq]
      rfl
    · rfl
  -- the rest is about the map after this write
  generalize m.modify (qubitName q) (fun e ↦ { e with nextTS := t }) = m₁
    at hm₁ hst₁ hentry hvictim hsize hlist hpk₁
  have hloc₁ : m₁.loc q = m.loc q := by
    rw [Tracking.loc_eq, hentry]
    rfl
  have hunused : opTS s i ≠ ts → ∀ u ∈ us, u.1 ≠ q := hm.not_used_of_label hi
  dsimp only
  by_cases hlocal : wantsLocal body s O ts i q ∧ m.loc q % 10 ≠ 0
  · rw [if_pos hlocal]
    obtain ⟨hwants, -⟩ := hlocal
    obtain ⟨-, hearlier, hregion⟩ : _ ∧ _ ∧ _ := of_decide_eq_true hwants
    -- with no room in the local memories nothing is sent there
    have hQ : 1 ≤ O.local_Q := hst.room.resolve_right fun hroom ↦
      hroom q List.mem_cons_self i hi hwants
    obtain ⟨m₂, heq, hm₂, hst₂, hpk₂, -, hother⟩ := exists_evict h hu hr hm₁ hst₁ hpk₁ hQ hsrc
      fun hfull v hv mov hmov ↦ unstored_of_spares hsp hi hactive hwants (hsize ▸ hfull)
        (hvictim ▸ hv) mov (hlist ▸ hmov)
    have hentry₂ : m₂.entry q = m₁.entry q := hother q hmem (by omega)
    have hloc₂ : m₂.loc q = m.loc q := (congrArg QArgInfo.loc hentry₂).trans hloc₁
    have hsoon : 0 ≤ (m₂.entry q).nextTS := by
      rw [hentry₂, hentry, ← ht]
      exact nextUseOf_nonneg body s i q (hregion ▸ hplaced)
    rw [heq, ← hloc₂]
    refine ⟨_, rfl, ((hm₂.move h hu hmem (fun hfar : true = false ↦ absurd hfar (by decide))
        fun u hmem' huq ↦ ?_).keep _).resize _ _,
      hst₂.store h hm₂.own (hloc₂ ▸ hsrc) hsoon, hpk₂.store h hmem (hm₂.own q hmem) ?_⟩
    · exact absurd huq (hunused hearlier u hmem')
    · exact hunused hearlier
  · rw [if_neg hlocal]
    split_ifs with hleave
    · rw [← hloc₁]
      refine ⟨_, rfl, hm₁.move h hu hmem (fun _ ↦ hpk₁.unstored_of_mod (hloc₁ ▸ hsrc))
          fun u hmem' huq ↦ ?_,
        (hst₁.move h hmem false (hloc₁ ▸ hsrc) fun r hpos ↦ by omega).drop,
        hpk₁.congr rfl fun p hp ↦ ?_⟩
      · exact absurd huq (hunused hleave u hmem')
      · have hloc := Moving.loc_move (m := m₁) h hp hmem ts false (m₁.loc q) 0
        by_cases hpq : p = q
        · exact .inr (.inl (congrArg (· % 10) (hloc.trans (if_pos hpq))))
        · exact .inl (hloc.trans (if_neg hpq))
    · exact ⟨m₁, rfl, hm₁, hst₁.drop, hpk₁⟩

namespace Stored

theorem examine (h : DistinctNames body) (hu : UsesOk body s ts us)
    (hr : RegionsOk s O.k ts us) (hlocal : O.local_mem = true) (hm : Consistent body s ts us σ m)
    (hst : Stored body s O ts (q :: pending) m) (hpk : Parked body ts us m)
    (hsp : m.spares body s O ts q) :
    ∃ m', m.examine body s O ts q = some m' ∧ Consistent body s ts us σ m' ∧
      Stored body s O ts pending m' ∧ Parked body ts us m' := by
  have hmem : q ∈ qubits body := (hst.listed q List.mem_cons_self).1
  rcases Moving.examine_cases (O := O) h hu hm hmem with
    ⟨c, hc, hq, hsrc, heq⟩ | ⟨-, ⟨-, heq⟩ | ⟨hactive, heq⟩⟩
  · obtain ⟨i, hi⟩ := hm.current c hc
    exact ⟨_, heq, hm.taken h hu hc (hpk.unstored_of_used hi),
      hst.taken h hm.own hq hsrc (hr.used _ hi), hpk.taken h hu hi⟩
  · exact ⟨_, heq, hm.keep _, hst.keep hm.own, hpk⟩
  · rw [if_neg (by rw [hlocal]; decide)] at heq
    rw [heq]
    exact exists_leaveRegion h hu hr hm hst hpk (hr.active _ hactive) hactive hsp

theorem fetch (h : DistinctNames body) (hu : UsesOk body s ts us) (hr : RegionsOk s O.k ts us)
    (hlocal : O.local_mem = true) (hm : Consistent body s ts us σ m)
    (hst : Stored body s O ts [] m) {c : Qubit × ℕ} {i : ℕ} (hc : (c.1, c.2, i) ∈ us) :
    Stored body s O ts [] (m.fetch O ts c) := by
  have hmem : c.1 ∈ qubits body := hu.mem _ hc
  have hregion : c.2 % 10 ≠ 0 := hr.used _ hc
  refine hst.moved hmem (fun p hp ↦ Moving.loc_fetch h hu hm hc hp) (fun p hp ↦ ?_)
    (fun r hpos ↦ ?_) (fun p hp ↦ ?_) (List.Subset.refl _)
    fun r hpos hd ↦ absurd hd (ne_of_mod hregion)
  · rw [Moving.entry_fetch h hu hm hc hp]
    split_ifs with hpc
    · rw [hpc]
      exact ⟨rfl, rfl⟩
    · exact ⟨rfl, rfl⟩
  · rw [if_neg (ne_of_mod hregion)]
    have hloc : (m.qubitMap (qubitName c.1)).loc = m.loc c.1 := rfl
    by_cases hzero : m.loc c.1 = 0
    · have hsize : (m.fetch O ts c).localMemSizeMap = m.localMemSizeMap := by
        rw [Moving.fetch, if_pos (.inl (hloc.trans hzero))]
        rfl
      rw [hsize, if_neg (by omega)]
    · have hsize : (m.fetch O ts c).localMemSizeMap = Function.update m.localMemSizeMap
          (m.loc c.1) (m.localMemSizeMap (m.loc c.1) + -1) := by
        rw [Moving.fetch, if_neg (by rw [hlocal, hloc]; simpa using hzero)]
        rfl
      rw [hsize]
      split_ifs with heq
      · rw [heq, Function.update_self]
        omega
      · rw [Function.update_of_ne (Ne.symm heq)]
  · rw [List.nil_append, Moving.next_fetch hm.own hmem, List.mem_append,
      List.mem_singleton] at hp
    rcases hp with hp | rfl
    · exact hst.listed p hp
    · obtain ⟨j, hj, hjts⟩ := hm.label _ hc
      exact ⟨hmem, j, hj, opSimd_nonneg_of_opTS hjts⟩

theorem foldl_fetch (h : DistinctNames body) (hu : UsesOk body s ts us)
    (hr : RegionsOk s O.k ts us) (hlocal : O.local_mem = true) {cs : List (Qubit × ℕ)}
    (hcs : ∀ c ∈ cs, ∃ i, (c.1, c.2, i) ∈ us) (hnodup : (cs.map Prod.fst).Nodup)
    (happart : ∀ c ∈ cs, m.Unstored ts c.1) (hm : Consistent body s ts us σ m)
    (hst : Stored body s O ts [] m) :
    Stored body s O ts [] (cs.foldl (Moving.fetch O ts) m) := by
  induction cs generalizing m with
  | nil => exact hst
  | cons c cs ih =>
    obtain ⟨⟨i, hi⟩, hcs⟩ := List.forall_mem_cons.mp hcs
    obtain ⟨hc, hnodup⟩ := List.nodup_cons.mp hnodup
    obtain ⟨hfirst, happart⟩ := List.forall_mem_cons.mp happart
    have hglobal : O.local_mem = false → m.loc c.1 = 0 := fun hfalse ↦
      absurd (hlocal.symm.trans hfalse) (by decide)
    exact ih hcs hnodup (Moving.unstored_fetch hm.own (hu.mem _ hi) hc happart)
      (hm.fetch h hu hi hfirst hglobal) (hst.fetch h hu hr hlocal hm hi)

end Stored

/-! ## From timestep to timestep -/

end ScaffCC.Lpfs
