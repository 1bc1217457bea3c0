import ScaffCC.Lpfs.Moves

/-!
# What the moves of a timestep keep

If different qubits have different texts, the entry of a qubit in `qubitMap` is its own. Then every
move carries a qubit from the place in its entry, and an operand of the timestep is in its region as
soon as it is no longer in the list `current`.
-/

namespace ScaffCC.Lpfs

open Scheduling

variable {body : List Call} {s : State} {O : MoveOptions} {ts : ℕ} {m m' : Moving} {p q : Qubit}

theorem mem_qubits_of_mem_args {i : ℕ} (h : q ∈ (callAt body i).args) : q ∈ qubits body := by
  have hi : i < body.length := by
    by_contra hi
    rw [callAt, List.getD_eq_default _ _ (not_lt.mp hi)] at h
    exact absurd h List.not_mem_nil
  rw [callAt_eq hi] at h
  exact List.mem_flatMap.mpr ⟨_, List.getElem_mem hi, h⟩

theorem mem_names {w : List Char} : w ∈ names body ↔ ∃ q ∈ qubits body, qubitName q = w := by
  rw [names, (List.mergeSort_perm ..).mem_iff, List.mem_dedup, List.mem_map]

theorem nodup_names (body : List Call) : (names body).Nodup :=
  (List.mergeSort_perm ..).nodup_iff.mpr (List.nodup_dedup _)

/-! ## The operands -/

theorem mem_usesAt {k r i : ℕ} :
    (q, r, i) ∈ usesAt body k s ts ↔
      (1 ≤ r ∧ r ≤ k) ∧ (⟨ts, r⟩, i) ∈ s.schedule ∧ q ∈ (callAt body i).args := by
  simp only [usesAt, List.mem_flatMap, List.mem_range'_1, List.mem_map, State.mem_opsAt,
    Prod.mk.injEq]
  constructor
  · rintro ⟨simd, hsimd, j, hj, p, hp, rfl, rfl, rfl⟩
    exact ⟨by omega, hj, hp⟩
  · rintro ⟨hr, hi, hq⟩
    exact ⟨r, by omega, i, hi, q, hq, rfl, rfl, rfl⟩

def Tracking.entry (σ : Tracking) (q : Qubit) : QArgInfo := σ.qubitMap (qubitName q)

theorem Tracking.loc_eq (σ : Tracking) (q : Qubit) : σ.loc q = (σ.entry q).loc := rfl

/-- Every qubit has an entry of its own. -/
def Own (body : List Call) (map : List Char → QArgInfo) : Prop :=
  ∀ q ∈ qubits body, (map (qubitName q)).qubit = q

theorem update_entry (h : DistinctNames body) (hp : p ∈ qubits body) (hq : q ∈ qubits body)
    (map : List Char → QArgInfo) (e : QArgInfo) :
    Function.update map (qubitName q) e (qubitName p) = if p = q then e else map (qubitName p) := by
  rw [Function.update_apply]
  exact if_congr ⟨fun heq ↦ h hp hq heq, fun heq ↦ heq ▸ rfl⟩ rfl rfl

theorem Own.update (h : DistinctNames body) {map : List Char → QArgInfo} (hown : Own body map)
    (hq : q ∈ qubits body) {e : QArgInfo} (he : e.qubit = q) :
    Own body (Function.update map (qubitName q) e) := by
  intro p hp
  rw [update_entry h hp hq]
  split_ifs with hpq
  · rw [he, hpq]
  · exact hown p hp

/-! ## The operands of a timestep -/

/-- What is in the list `current` and in the map after some of the operands. -/
structure Collected (body : List Call) (map : List Char → QArgInfo) (us : List (Qubit × ℕ × ℕ))
    (c : List (Qubit × ℕ) × (List Char → QArgInfo)) : Prop where
  own : Own body c.2
  nodup : (c.1.map Prod.fst).Nodup
  listed : ∀ u ∈ us, u.1 ∈ c.1.map Prod.fst
  used : ∀ d ∈ c.1, ∃ i, (d.1, d.2, i) ∈ us ∧
    (c.2 (qubitName d.1)).simd = d.2 ∧ (c.2 (qubitName d.1)).last_inst = some i
  unused : ∀ q ∈ qubits body, q ∉ c.1.map Prod.fst → c.2 (qubitName q) = map (qubitName q)
  frame : ∀ w, (c.2 w).loc = (map w).loc ∧ (c.2 w).nextTS = (map w).nextTS

/-- The entry of an operand. -/
def QArgInfo.using (e : QArgInfo) (u : Qubit × ℕ × ℕ) : QArgInfo :=
  ⟨u.1, u.2.1, e.loc, e.nextTS, some u.2.2⟩

/-- What the operands of a timestep are like: each is in one region, and its operation has the
timestep. -/
structure UsesOk (body : List Call) (s : State) (ts : ℕ) (us : List (Qubit × ℕ × ℕ)) : Prop where
  mem : ∀ u ∈ us, u.1 ∈ qubits body
  pos : ∀ u ∈ us, u.2.1 ≠ 0
  one : ∀ u ∈ us, ∀ v ∈ us, u.1 = v.1 → u.2.1 = v.2.1
  label : ∀ u ∈ us, opTS s u.2.2 = ts

/-- All operands are on the list, each with its region. -/
theorem Collected.mem {map : List Char → QArgInfo} {us : List (Qubit × ℕ × ℕ)}
    (hu : UsesOk body s ts us) {c : List (Qubit × ℕ) × (List Char → QArgInfo)}
    (hc : Collected body map us c) {u : Qubit × ℕ × ℕ} (hmem : u ∈ us) : (u.1, u.2.1) ∈ c.1 := by
  obtain ⟨d, hd, hdu⟩ := List.mem_map.mp (hc.listed u hmem)
  obtain ⟨i, hi, -⟩ := hc.used d hd
  have hregion : d.2 = u.2.1 := hu.one _ hi u hmem hdu
  rwa [← hdu, ← hregion]

/-! ## Changes of the tables -/

namespace Moving

theorem entry_modify (h : DistinctNames body) (hp : p ∈ qubits body) (hq : q ∈ qubits body)
    (f : QArgInfo → QArgInfo) :
    (m.modify (qubitName q) f).entry p = if p = q then f (m.entry q) else m.entry p :=
  update_entry h hp hq _ _

theorem entry_move (h : DistinctNames body) (hp : p ∈ qubits body) (hq : q ∈ qubits body)
    (t : ℕ) (isLocal : Bool) (src dest : ℕ) :
    (m.move t isLocal (qubitName q) src dest).entry p
      = if p = q then { m.entry q with loc := dest } else m.entry p :=
  entry_modify (m := m) h hp hq fun e ↦ { e with loc := dest }

theorem loc_move (h : DistinctNames body) (hp : p ∈ qubits body) (hq : q ∈ qubits body)
    (t : ℕ) (isLocal : Bool) (src dest : ℕ) :
    (m.move t isLocal (qubitName q) src dest).loc p = if p = q then dest else m.loc p := by
  rw [Tracking.loc_eq, entry_move h hp hq t isLocal src dest]
  split_ifs <;> rfl

end Moving

/-- The two tables have got the moves `T` and `B` at a timestep, and as they will be printed all
moves start where the qubits are. -/
structure Emitted (body : List Call) (ts : ℕ) (σ : Tracking) (m : Moving) (T B : List Move) :
    Prop where
  move_schedule : m.move_schedule = σ.move_schedule ++ T
  local_move_schedule : m.local_move_schedule = σ.local_move_schedule ++ B
  ts_eq : ∀ mov ∈ T ++ B, mov.ts = ts
  tracks : Tracks (· ∈ qubits body) (fun _ ↦ 0)
    ((σ.printed ts).map Move.toTransport ++ T.map Move.toTransport ++ B.map Move.toTransport) m.loc

/-- The moves depend on the two tables and on where the qubits are. -/
theorem exists_emitted_congr {σ : Tracking} (he : ∃ T B, Emitted body ts σ m T B)
    (hT : m'.move_schedule = m.move_schedule)
    (hB : m'.local_move_schedule = m.local_move_schedule)
    (hloc : ∀ p ∈ qubits body, m'.loc p = m.loc p) : ∃ T B, Emitted body ts σ m' T B := by
  obtain ⟨T, B, he⟩ := he
  exact ⟨T, B, hT.trans he.move_schedule, hB.trans he.local_move_schedule, he.ts_eq,
    he.tracks.congr hloc⟩

/-- The qubit has not been put into or taken out of a local memory at the timestep. -/
def Moving.Unstored (m : Moving) (ts : ℕ) (q : Qubit) : Prop :=
  ∀ mov ∈ m.local_move_schedule, mov.ts = ts → mov.token ≠ q

/-- One more move of a qubit. One that is printed before the moves from and to local memories is of
a qubit that has none of these. -/
theorem Emitted.move (h : DistinctNames body) {σ : Tracking} {T B : List Move}
    (he : Emitted body ts σ m T B) (hown : Own body m.qubitMap) (hq : q ∈ qubits body)
    {isLocal : Bool} (happart : isLocal = false → m.Unstored ts q) (dest : ℕ) :
    ∃ T' B', Emitted body ts σ (m.move ts isLocal (qubitName q) (m.loc q) dest) T' B' := by
  have hloc : ∀ p ∈ qubits body, _ = _ := fun p hp ↦
    Moving.loc_move (m := m) h hp hq ts isLocal (m.loc q) dest
  have htoken : (m.qubitMap (qubitName q)).qubit = q := hown q hq
  let newMove : Move := ⟨⟨q, m.loc q, dest⟩, ts⟩
  cases isLocal with
  | false =>
    refine ⟨T ++ [newMove], B, ?_, he.local_move_schedule, fun mov hmov ↦ ?_, ?_⟩
    · rw [← List.append_assoc, ← he.move_schedule, Moving.move, htoken]
      rfl
    · simp only [List.mem_append, List.mem_singleton] at hmov
      rcases hmov with (hmov | rfl) | hmov
      · exact he.ts_eq mov (List.mem_append_left _ hmov)
      · rfl
      · exact he.ts_eq mov (List.mem_append_right _ hmov)
    · have hother : ∀ t ∈ B.map Move.toTransport, t.token ≠ q := by
        intro t ht
        obtain ⟨mov, hmov, rfl⟩ := List.mem_map.mp ht
        refine happart rfl mov ?_ (he.ts_eq mov (List.mem_append_right _ hmov))
        rw [he.local_move_schedule]
        exact List.mem_append_right _ hmov
      rw [List.map_append, ← List.append_assoc]
      exact he.tracks.insert hq hother hloc
  | true =>
    refine ⟨T, B ++ [newMove], he.move_schedule, ?_, fun mov hmov ↦ ?_, ?_⟩
    · rw [← List.append_assoc, ← he.local_move_schedule, Moving.move, htoken]
      rfl
    · rw [← List.append_assoc, List.mem_append, List.mem_singleton] at hmov
      rcases hmov with hmov | rfl
      · exact he.ts_eq mov hmov
      · rfl
    · rw [List.map_append, ← List.append_assoc]
      exact he.tracks.snoc hq hloc

/-- What is kept while the moves of a timestep are found, after those of `σ`. -/
structure Consistent (body : List Call) (s : State) (ts : ℕ) (us : List (Qubit × ℕ × ℕ))
    (σ : Tracking) (m : Moving) : Prop where
  own : Own body m.qubitMap
  emitted : ∃ T B, Emitted body ts σ m T B
  nodup : (m.current.map Prod.fst).Nodup
  current : ∀ c ∈ m.current, ∃ i, (c.1, c.2, i) ∈ us
  simd : ∀ u ∈ us, (m.entry u.1).simd = u.2.1
  label : ∀ u ∈ us, ∃ i, (m.entry u.1).last_inst = some i ∧ opTS s i = ts
  settled : ∀ u ∈ us, (u.1, u.2.1) ∈ m.current ∨ m.loc u.1 = u.2.1

namespace Consistent

variable {us : List (Qubit × ℕ × ℕ)} {σ : Tracking}

theorem keep (hm : Consistent body s ts us σ m) (name : List Char) :
    Consistent body s ts us σ (m.keep name) :=
  ⟨hm.own, exists_emitted_congr hm.emitted rfl rfl fun _ _ ↦ rfl, hm.nodup, hm.current, hm.simd,
    hm.label, hm.settled⟩

theorem resize (hm : Consistent body s ts us σ m) (loc : ℕ) (d : ℤ) :
    Consistent body s ts us σ (m.resize loc d) :=
  ⟨hm.own, exists_emitted_congr hm.emitted rfl rfl fun _ _ ↦ rfl, hm.nodup, hm.current, hm.simd,
    hm.label, hm.settled⟩

theorem modify (h : DistinctNames body) (hu : UsesOk body s ts us)
    (hm : Consistent body s ts us σ m) (hq : q ∈ qubits body) {f : QArgInfo → QArgInfo}
    (hf : ∀ e, (f e).qubit = e.qubit ∧ (f e).loc = e.loc ∧ (f e).last_inst = e.last_inst)
    (hsimd : ∀ u ∈ us, u.1 = q → (f (m.entry q)).simd = u.2.1) :
    Consistent body s ts us σ (m.modify (qubitName q) f) := by
  have hentry : ∀ p ∈ qubits body, _ = _ := fun p hp ↦ Moving.entry_modify (m := m) h hp hq f
  have hloc : ∀ p ∈ qubits body, (m.modify (qubitName q) f).loc p = m.loc p := by
    intro p hp
    rw [Tracking.loc_eq, hentry p hp]
    split_ifs with hpq
    · rw [(hf _).2.1, hpq]
      rfl
    · rfl
  refine ⟨hm.own.update h hq ((hf _).1.trans (hm.own q hq)),
    exists_emitted_congr hm.emitted rfl rfl hloc, hm.nodup, hm.current, fun u hmem ↦ ?_,
    fun u hmem ↦ ?_, fun u hmem ↦ ?_⟩
  · rw [hentry u.1 (hu.mem u hmem)]
    split_ifs with hpq
    · exact hsimd u hmem hpq
    · exact hm.simd u hmem
  · rw [hentry u.1 (hu.mem u hmem)]
    split_ifs with hpq
    · rw [(hf _).2.2, ← hpq]
      exact hm.label u hmem
    · exact hm.label u hmem
  · rw [hloc u.1 (hu.mem u hmem)]
    exact hm.settled u hmem

theorem move (h : DistinctNames body) (hu : UsesOk body s ts us)
    (hm : Consistent body s ts us σ m) (hq : q ∈ qubits body) {isLocal : Bool} {dest : ℕ}
    (happart : isLocal = false → m.Unstored ts q)
    (hdest : ∀ u ∈ us, u.1 = q → (u.1, u.2.1) ∈ m.current ∨ dest = u.2.1) :
    Consistent body s ts us σ (m.move ts isLocal (qubitName q) (m.loc q) dest) := by
  have hentry : ∀ p ∈ qubits body, _ = _ := fun p hp ↦
    Moving.entry_move (m := m) h hp hq ts isLocal (m.loc q) dest
  have hloc : ∀ p ∈ qubits body, _ = _ := fun p hp ↦
    Moving.loc_move (m := m) h hp hq ts isLocal (m.loc q) dest
  obtain ⟨T, B, he⟩ := hm.emitted
  refine ⟨hm.own.update h hq (hm.own q hq), he.move h hm.own hq happart dest, hm.nodup, hm.current,
    fun u hmem ↦ ?_, fun u hmem ↦ ?_, fun u hmem ↦ ?_⟩
  · rw [hentry u.1 (hu.mem u hmem)]
    split_ifs with hpq
    · exact hpq ▸ hm.simd u hmem
    · exact hm.simd u hmem
  · rw [hentry u.1 (hu.mem u hmem)]
    split_ifs with hpq
    · exact hpq ▸ hm.label u hmem
    · exact hm.label u hmem
  · rw [hloc u.1 (hu.mem u hmem)]
    split_ifs with hpq
    · exact hdest u hmem hpq
    · exact hm.settled u hmem

/-- An operand that is in its region is taken off the list. -/
theorem erase (hm : Consistent body s ts us σ m) {c : Qubit × ℕ} (hc : m.loc c.1 = c.2) :
    Consistent body s ts us σ { m with current := m.current.erase c } := by
  refine ⟨hm.own, exists_emitted_congr hm.emitted rfl rfl fun _ _ ↦ rfl,
    hm.nodup.sublist ((List.erase_sublist).map _),
    fun d hd ↦ hm.current d (List.mem_of_mem_erase hd), hm.simd, hm.label, fun u hmem ↦ ?_⟩
  rcases hm.settled u hmem with hcur | hloc
  · by_cases heq : (u.1, u.2.1) = c
    · exact .inr (by rw [← heq] at hc; exact hc)
    · exact .inl ((List.mem_erase_of_ne heq).mpr hcur)
  · exact .inr hloc

end Consistent

end ScaffCC.Lpfs
