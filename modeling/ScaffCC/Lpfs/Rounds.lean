import ScaffCC.Lpfs.Tracked

/-!
# The rounds of the two loops

A round of the first loop brings a qubit that is used to its region, leaves it where it is, or lets
it leave a region that has other operations. A round of the second loop fetches a qubit to its
region. When all operands are in their regions the timestep is done, and its moves do not change
where the qubits were at earlier timesteps.
-/

namespace ScaffCC.Lpfs

open Scheduling

variable {body : List Call} {s : State} {O : MoveOptions} {ts : ℕ} {m m' : Moving} {p q : Qubit}

/-! ## A round of the first loop -/

namespace Moving

/-- The region of a qubit that is used is noted. -/
def note (m : Moving) (c : Qubit × ℕ) : Moving :=
  (m.modify (qubitName c.1) fun e ↦ { e with simd := c.2 }).keep (qubitName c.1)

/-- A qubit that is used is brought to its region. -/
def taken (m : Moving) (ts : ℕ) (c : Qubit × ℕ) : Moving :=
  let m' := if c.2 ≠ m.loc c.1
    then (m.note c).move ts false (qubitName c.1) (m.loc c.1) c.2 else m.note c
  { m' with current := m.current.erase c }

variable {us : List (Qubit × ℕ × ℕ)} {σ : Tracking}

theorem examine_of_hit {c : Qubit × ℕ} (hpos : c.2 ≠ 0)
    (hfind : (m.current.find? fun c ↦ qubitName q = qubitName c.1 ∧ m.loc q % 10 ≠ 0) = some c)
    (hq : c.1 = q) : m.examine body s O ts q = some (m.taken ts c) := by
  subst hq
  have hloc : (m.qubitMap (qubitName c.1)).loc = m.loc c.1 := rfl
  simp only [examine, hloc, hfind, Option.map_some, Option.getD_some, hpos, and_false, if_false,
    false_and, or_false, taken, ne_eq, not_false_eq_true, true_and]
  split_ifs <;> rfl

theorem examine_of_idle
    (hfind : (m.current.find? fun c ↦ qubitName q = qubitName c.1 ∧ m.loc q % 10 ≠ 0) = none)
    (hactive : simdActive O.k s ts (m.loc q) = false) :
    m.examine body s O ts q = some (m.keep (qubitName q)) := by
  have hloc : (m.qubitMap (qubitName q)).loc = m.loc q := rfl
  simp only [examine, hloc, hfind, hactive, Option.map_none, Option.getD_none, and_self, if_true]

theorem examine_of_active
    (hfind : (m.current.find? fun c ↦ qubitName q = qubitName c.1 ∧ m.loc q % 10 ≠ 0) = none)
    (hactive : simdActive O.k s ts (m.loc q) = true) :
    m.examine body s O ts q = if O.local_mem = false
      then some (m.move ts false (qubitName q) (m.loc q) 0)
      else m.leaveRegion body s O ts (qubitName q) (m.loc q) := by
  have hloc : (m.qubitMap (qubitName q)).loc = m.loc q := rfl
  simp only [examine, hloc, hfind, hactive, Option.map_none, Option.getD_none, ne_eq,
    not_true_eq_false, false_and, and_self, or_true, if_true, if_false, Bool.true_eq_false]

theorem examine_cases (h : DistinctNames body) (hu : UsesOk body s ts us)
    (hm : Consistent body s ts us σ m) (hq : q ∈ qubits body) :
    (∃ c ∈ m.current, c.1 = q ∧ m.loc q % 10 ≠ 0 ∧
      m.examine body s O ts q = some (m.taken ts c)) ∨
    (m.loc q % 10 = 0 ∨ q ∉ m.current.map Prod.fst) ∧
      (simdActive O.k s ts (m.loc q) = false ∧
          m.examine body s O ts q = some (m.keep (qubitName q)) ∨
        simdActive O.k s ts (m.loc q) = true ∧
          m.examine body s O ts q = if O.local_mem = false
            then some (m.move ts false (qubitName q) (m.loc q) 0)
            else m.leaveRegion body s O ts (qubitName q) (m.loc q)) := by
  cases hfind : m.current.find? fun c ↦ qubitName q = qubitName c.1 ∧ m.loc q % 10 ≠ 0 with
  | some c =>
    have hc := List.mem_of_find?_eq_some hfind
    have hfound := List.find?_some hfind
    obtain ⟨hname, hten⟩ := of_decide_eq_true hfound
    obtain ⟨i, hi⟩ := hm.current c hc
    have hcq : c.1 = q := (h hq (hu.mem _ hi) hname).symm
    exact .inl ⟨c, hc, hcq, hten, examine_of_hit (hu.pos _ hi) hfind hcq⟩
  | none =>
    refine .inr ⟨?_, ?_⟩
    · by_contra hne
      obtain ⟨hten, hmem⟩ := not_or.mp hne
      obtain ⟨c, hc, rfl⟩ := List.mem_map.mp (not_not.mp hmem)
      exact List.find?_eq_none.mp hfind c hc (decide_eq_true ⟨rfl, hten⟩)
    · cases hactive : simdActive O.k s ts (m.loc q) with
      | false => exact .inl ⟨rfl, examine_of_idle hfind hactive⟩
      | true => exact .inr ⟨rfl, examine_of_active hfind hactive⟩

theorem entry_note (h : DistinctNames body) {c : Qubit × ℕ} (hp : p ∈ qubits body)
    (hc : c.1 ∈ qubits body) :
    (m.note c).entry p = if p = c.1 then { m.entry p with simd := c.2 } else m.entry p := by
  refine (entry_modify (m := m) h hp hc fun e ↦ { e with simd := c.2 }).trans ?_
  split_ifs with hpc
  · rw [hpc]
  · rfl

theorem loc_note (h : DistinctNames body) {c : Qubit × ℕ} (hp : p ∈ qubits body)
    (hc : c.1 ∈ qubits body) : (m.note c).loc p = m.loc p := by
  rw [Tracking.loc_eq, entry_note h hp hc]
  split_ifs <;> rfl

theorem entry_taken (h : DistinctNames body) {c : Qubit × ℕ} (hp : p ∈ qubits body)
    (hc : c.1 ∈ qubits body) :
    (m.taken ts c).entry p = if p = c.1 then { m.entry p with simd := c.2, loc := c.2 }
      else m.entry p := by
  by_cases hne : c.2 ≠ m.loc c.1
  · have htaken : (m.taken ts c).entry p
        = ((m.note c).move ts false (qubitName c.1) (m.loc c.1) c.2).entry p := by
      rw [taken, if_pos hne]
    rw [htaken, entry_move h hp hc ts false]
    split_ifs with hpc
    · subst hpc
      rw [entry_note h hp hp, if_pos rfl]
    · rw [entry_note h hp hc, if_neg hpc]
  · have htaken : (m.taken ts c).entry p = (m.note c).entry p := by
      rw [taken, if_neg hne]
    rw [htaken, entry_note h hp hc]
    split_ifs with hpc
    · subst hpc
      rw [not_not.mp hne]
      rfl
    · rfl

theorem next_taken (hown : Own body m.qubitMap) {c : Qubit × ℕ} (hc : c.1 ∈ qubits body) :
    (m.taken ts c).next = m.next ++ [c.1] := by
  have hnext : (m.taken ts c).next = (m.note c).next := by
    rw [taken]
    split_ifs <;> rfl
  have hqubit : ((m.note c).qubitMap (qubitName c.1)).qubit = c.1 :=
    (congrArg QArgInfo.qubit (Function.update_self (qubitName c.1) _ m.qubitMap)).trans
      (hown c.1 hc)
  exact hnext.trans (congrArg (fun q ↦ m.next ++ [q]) hqubit)

end Moving

/-- The other operands on the list are other qubits. -/
theorem Consistent.ne_of_mem_erase {us : List (Qubit × ℕ × ℕ)} {σ : Tracking}
    (hm : Consistent body s ts us σ m) {c d : Qubit × ℕ} (hc : c ∈ m.current)
    (hd : d ∈ m.current.erase c) : d.1 ≠ c.1 := by
  intro heq
  obtain ⟨hne, hmem⟩ := hm.nodup.of_map.mem_erase_iff.mp hd
  exact hne (List.inj_on_of_nodup_map hm.nodup hmem hc heq)

theorem Consistent.taken (h : DistinctNames body) {us : List (Qubit × ℕ × ℕ)} {σ : Tracking}
    (hu : UsesOk body s ts us) (hm : Consistent body s ts us σ m) {c : Qubit × ℕ}
    (hc : c ∈ m.current) (happart : m.Unstored ts c.1) :
    Consistent body s ts us σ (m.taken ts c) := by
  obtain ⟨i, hi⟩ := hm.current c hc
  have hmem : c.1 ∈ qubits body := hu.mem _ hi
  have hone : ∀ u ∈ us, u.1 = c.1 → c.2 = u.2.1 := fun u hmem heq ↦
    hu.one _ hi u hmem heq.symm
  have hnote : Consistent body s ts us σ (m.note c) :=
    (hm.modify h hu hmem (f := fun e ↦ { e with simd := c.2 }) (fun _ ↦ ⟨rfl, rfl, rfl⟩)
      hone).keep _
  have hloc : (m.note c).loc c.1 = m.loc c.1 := Moving.loc_note h hmem hmem
  rw [Moving.taken]
  split_ifs with hne
  · have hmove := hnote.move h hu hmem (fun _ : false = false ↦ happart) fun u hu heq ↦
      .inr (hone u hu heq)
    rw [hloc] at hmove
    refine hmove.erase ?_
    exact (Moving.loc_move h hmem hmem ts false _ _).trans (if_pos rfl)
  · exact hnote.erase (hloc.trans (not_not.mp hne).symm)

/-! ## A round of the second loop -/

theorem Moving.entry_fetch (h : DistinctNames body) {us : List (Qubit × ℕ × ℕ)} {σ : Tracking}
    (hu : UsesOk body s ts us) (hm : Consistent body s ts us σ m) {c : Qubit × ℕ} {i : ℕ}
    (hc : (c.1, c.2, i) ∈ us) (hp : p ∈ qubits body) :
    (m.fetch O ts c).entry p = if p = c.1 then { m.entry c.1 with loc := c.2 } else m.entry p := by
  have hmem : c.1 ∈ qubits body := hu.mem _ hc
  have hsimd : (m.qubitMap (qubitName c.1)).simd = c.2 := hm.simd _ hc
  have hentry := Moving.entry_move (m := m.keep (qubitName c.1)) h hp hmem ts
  rw [Moving.fetch, hsimd]
  by_cases hglobal : (m.qubitMap (qubitName c.1)).loc = 0 ∨ O.local_mem = false
  · rw [if_pos hglobal]
    exact hentry false 0 c.2
  · rw [if_neg hglobal]
    exact hentry true (m.loc c.1) c.2

theorem Moving.loc_fetch (h : DistinctNames body) {us : List (Qubit × ℕ × ℕ)} {σ : Tracking}
    (hu : UsesOk body s ts us) (hm : Consistent body s ts us σ m) {c : Qubit × ℕ} {i : ℕ}
    (hc : (c.1, c.2, i) ∈ us) (hp : p ∈ qubits body) :
    (m.fetch O ts c).loc p = if p = c.1 then c.2 else m.loc p := by
  rw [Tracking.loc_eq, Moving.entry_fetch h hu hm hc hp]
  split_ifs <;> rfl

theorem Consistent.fetch (h : DistinctNames body) {us : List (Qubit × ℕ × ℕ)} {σ : Tracking}
    (hu : UsesOk body s ts us) (hm : Consistent body s ts us σ m) {c : Qubit × ℕ} {i : ℕ}
    (hc : (c.1, c.2, i) ∈ us) (happart : m.Unstored ts c.1)
    (hzero : O.local_mem = false → m.loc c.1 = 0) :
    Consistent body s ts us σ (m.fetch O ts c) := by
  have hmem := hu.mem _ hc
  have hsimd : (m.qubitMap (qubitName c.1)).simd = c.2 := hm.simd _ hc
  have hmove : ∀ isLocal, Consistent body s ts us σ
      ((m.keep (qubitName c.1)).move ts isLocal (qubitName c.1) (m.loc c.1) c.2) := fun isLocal ↦
    (hm.keep _).move h hu hmem (fun _ ↦ happart) fun u hmem heq ↦
      .inr (hu.one _ hc u hmem heq.symm)
  rw [Moving.fetch, hsimd]
  split_ifs with hglobal
  · have hloc : m.loc c.1 = 0 := hglobal.elim id hzero
    rw [← hloc]
    exact hmove false
  · exact (hmove true).resize _ _

theorem Moving.next_fetch (hown : Own body m.qubitMap) {c : Qubit × ℕ} (hc : c.1 ∈ qubits body) :
    (m.fetch O ts c).next = m.next ++ [c.1] := by
  have hnext : (m.fetch O ts c).next = (m.keep (qubitName c.1)).next := by
    rw [fetch]
    split_ifs <;> rfl
  exact hnext.trans (congrArg (fun q ↦ m.next ++ [q]) (hown c.1 hc))

theorem Moving.unstored_fetch (hown : Own body m.qubitMap) {c : Qubit × ℕ}
    (hc : c.1 ∈ qubits body) {cs : List (Qubit × ℕ)} (hnot : c.1 ∉ cs.map Prod.fst)
    (h : ∀ d ∈ cs, m.Unstored ts d.1) : ∀ d ∈ cs, (m.fetch O ts c).Unstored ts d.1 := by
  intro d hd mov hmov hts
  rw [Moving.fetch] at hmov
  split_ifs at hmov
  · exact h d hd mov hmov hts
  · rcases List.mem_append.mp hmov with hmov | hmov
    · exact h d hd mov hmov hts
    · rw [List.mem_singleton.mp hmov]
      exact fun heq ↦ hnot (List.mem_map.mpr ⟨d, hd, heq.symm.trans (hown c.1 hc)⟩)

theorem Consistent.foldl_fetch (h : DistinctNames body) {us : List (Qubit × ℕ × ℕ)}
    {σ : Tracking} (hu : UsesOk body s ts us) {cs : List (Qubit × ℕ)}
    (hm : Consistent body s ts us σ m) (hcs : ∀ c ∈ cs, ∃ i, (c.1, c.2, i) ∈ us)
    (hnodup : (cs.map Prod.fst).Nodup) (happart : ∀ c ∈ cs, m.Unstored ts c.1)
    (hzero : O.local_mem = false → ∀ c ∈ cs, m.loc c.1 = 0) :
    Consistent body s ts us σ (cs.foldl (Moving.fetch O ts) m) ∧
      (cs.foldl (Moving.fetch O ts) m).next = m.next ++ cs.map Prod.fst ∧
      (∀ c ∈ cs, (cs.foldl (Moving.fetch O ts) m).loc c.1 = c.2) ∧
      ∀ p ∈ qubits body, p ∉ cs.map Prod.fst →
        (cs.foldl (Moving.fetch O ts) m).loc p = m.loc p := by
  induction cs generalizing m with
  | nil => exact ⟨hm, (List.append_nil _).symm, List.forall_mem_nil _, fun _ _ _ ↦ rfl⟩
  | cons c cs ih =>
    obtain ⟨⟨i, hi⟩, hcs⟩ := List.forall_mem_cons.mp hcs
    obtain ⟨hc, hnodup⟩ := List.nodup_cons.mp hnodup
    obtain ⟨hfirst, happart⟩ := List.forall_mem_cons.mp happart
    have hloc : ∀ p ∈ qubits body, _ = _ := fun p hp ↦
      Moving.loc_fetch (O := O) (p := p) h hu hm hi hp
    have hzero' : O.local_mem = false → ∀ d ∈ cs, (m.fetch O ts c).loc d.1 = 0 := by
      intro hglobal d hd
      obtain ⟨j, hj⟩ := hcs d hd
      have hdc : d.1 ≠ c.1 := fun heq ↦ hc (heq ▸ List.mem_map_of_mem hd)
      rw [hloc d.1 (hu.mem _ hj), if_neg hdc]
      exact hzero hglobal d (List.mem_cons_of_mem c hd)
    obtain ⟨hsound, hnext, hplaced, hother⟩ := ih
      (hm.fetch h hu hi hfirst fun hglobal ↦ hzero hglobal c List.mem_cons_self) hcs hnodup
      (Moving.unstored_fetch hm.own (hu.mem _ hi) hc happart) hzero'
    refine ⟨hsound, ?_, fun d hd ↦ ?_, fun p hp hpc ↦ ?_⟩
    · rw [List.foldl_cons, hnext, Moving.next_fetch hm.own (hu.mem _ hi), List.append_assoc]
      rfl
    · rcases List.mem_cons.mp hd with rfl | hd
      · exact (hother d.1 (hu.mem _ hi) hc).trans ((hloc d.1 (hu.mem _ hi)).trans (if_pos rfl))
      · exact hplaced d hd
    · rw [List.map_cons, List.mem_cons, not_or] at hpc
      exact (hother p hp hpc.2).trans ((hloc p hp).trans (if_neg hpc.1))

/-- After the second loop all operands are in their regions. -/
theorem Consistent.placed (h : DistinctNames body) {us : List (Qubit × ℕ × ℕ)} {σ : Tracking}
    (hu : UsesOk body s ts us) (hm : Consistent body s ts us σ m)
    (happart : ∀ c ∈ m.current, m.Unstored ts c.1)
    (hzero : O.local_mem = false → ∀ c ∈ m.current, m.loc c.1 = 0) {u : Qubit × ℕ × ℕ}
    (hmem : u ∈ us) : (m.current.foldl (Moving.fetch O ts) m).loc u.1 = u.2.1 := by
  obtain ⟨-, -, hplaced, hother⟩ := hm.foldl_fetch h hu hm.current hm.nodup happart hzero
  by_cases hcur : u.1 ∈ m.current.map Prod.fst
  · obtain ⟨c, hc, hcu⟩ := List.mem_map.mp hcur
    obtain ⟨i, hi⟩ := hm.current c hc
    rw [← hcu, hplaced c hc]
    exact hu.one _ hi u hmem hcu
  · rw [hother u.1 (hu.mem u hmem) hcur]
    exact (hm.settled u hmem).resolve_left fun hc ↦ hcur (List.mem_map_of_mem hc)

/-! ## From timestep to timestep -/

/-- What is kept from timestep to timestep. -/
structure Kept (body : List Call) (s : State) (n : ℕ) (σ : Tracking) : Prop where
  own : Own body σ.qubitMap
  tracks : Tracks (· ∈ qubits body) (fun _ ↦ 0) ((σ.printed n).map Move.toTransport) σ.loc
  past : ∀ mov ∈ σ.move_schedule ++ σ.local_move_schedule, mov.ts < n
  placed : ∀ x i, (x, i) ∈ s.schedule → x.ts < n → ∀ q ∈ (callAt body i).args,
    replay (fun _ ↦ 0) ((σ.printed (x.ts + 1)).map Move.toTransport) q = x.simd

variable {σ : Tracking} {n : ℕ}

theorem Tracking.printed_succ (σ : Tracking) (n : ℕ) : σ.printed (n + 1) =
    σ.printed n ++ (σ.move_schedule.filter (·.ts = n) ++
      σ.local_move_schedule.filter (·.ts = n)) := by
  rw [printed, List.range_succ, List.flatMap_append, List.flatMap_singleton, ← printed]

theorem Emitted.printed_eq {T B : List Move} (he : Emitted body n σ m T B) {k : ℕ} (hk : k ≤ n) :
    m.printed k = σ.printed k := by
  rw [Tracking.printed, Tracking.printed]
  refine List.flatMap_congr fun ts hts ↦ ?_
  have hlt := List.mem_range.mp hts
  have hnone : ∀ l : List Move, l ⊆ T ++ B → l.filter (·.ts = ts) = [] := by
    intro l hl
    rw [List.filter_eq_nil_iff]
    intro mov hmov
    rw [he.ts_eq mov (hl hmov)]
    simpa using (show n ≠ ts by omega)
  rw [he.move_schedule, he.local_move_schedule, List.filter_append, List.filter_append,
    hnone T (List.subset_append_left T B), hnone B (List.subset_append_right T B),
    List.append_nil, List.append_nil]

/-- The moves of the timestep are printed after those of the timesteps before it. -/
theorem Emitted.printed_succ {T B : List Move} (hσ : Kept body s n σ)
    (he : Emitted body n σ m T B) : m.printed (n + 1) = σ.printed n ++ (T ++ B) := by
  have hold : ∀ l : List Move, l ⊆ σ.move_schedule ++ σ.local_move_schedule →
      l.filter (·.ts = n) = [] := by
    intro l hl
    rw [List.filter_eq_nil_iff]
    intro mov hmov
    have hlt := hσ.past mov (hl hmov)
    simpa using hlt.ne
  have hnew : ∀ l : List Move, l ⊆ T ++ B → l.filter (·.ts = n) = l := by
    intro l hl
    rw [List.filter_eq_self]
    exact fun mov hmov ↦ decide_eq_true (he.ts_eq mov (hl hmov))
  rw [Tracking.printed_succ, he.printed_eq le_rfl, he.move_schedule, he.local_move_schedule,
    List.filter_append, List.filter_append, hold _ (List.subset_append_left _ _),
    hold _ (List.subset_append_right _ _), hnew T (List.subset_append_left T B),
    hnew B (List.subset_append_right T B), List.nil_append, List.nil_append]

/-- When all operands are in their regions, the timestep is done. -/
theorem Kept.next (h : Trackable body s O) (hσ : Kept body s n σ)
    (hm : Consistent body s n (usesAt body O.k s n) σ m)
    (hplaced : ∀ u ∈ usesAt body O.k s n, m.loc u.1 = u.2.1) (active : List Qubit) :
    Kept body s (n + 1) { m.toTracking with active_qubits := active } := by
  obtain ⟨T, B, he⟩ := hm.emitted
  have hprinted : ∀ k, ({ m.toTracking with active_qubits := active } : Tracking).printed k =
      m.printed k := fun _ ↦ rfl
  have htracks : Tracks (· ∈ qubits body) (fun _ ↦ 0)
      ((m.printed (n + 1)).map Move.toTransport) m.loc := by
    rw [he.printed_succ hσ, List.map_append, List.map_append, ← List.append_assoc]
    exact he.tracks
  refine ⟨hm.own, htracks, fun mov hmov ↦ ?_, fun x i hmem hx q hq ↦ ?_⟩
  · have hmov' : mov ∈ (σ.move_schedule ++ T) ++ (σ.local_move_schedule ++ B) := by
      rw [← he.move_schedule, ← he.local_move_schedule]
      exact hmov
    simp only [List.mem_append] at hmov'
    rcases hmov' with (hmov | hmov) | hmov | hmov
    · exact (hσ.past mov (List.mem_append_left _ hmov)).trans (Nat.lt_succ_self n)
    · exact (he.ts_eq mov (List.mem_append_left _ hmov)).trans_lt (Nat.lt_succ_self n)
    · exact (hσ.past mov (List.mem_append_right _ hmov)).trans (Nat.lt_succ_self n)
    · exact (he.ts_eq mov (List.mem_append_right _ hmov)).trans_lt (Nat.lt_succ_self n)
  · rw [hprinted]
    rcases Nat.lt_succ_iff_lt_or_eq.mp hx with hlt | rfl
    · rw [he.printed_eq hlt]
      exact hσ.placed x i hmem hlt q hq
    · have huse : (q, x.simd, i) ∈ usesAt body O.k s x.ts :=
        mem_usesAt.mpr ⟨h.region x i hmem, hmem, hq⟩
      rw [htracks.agree q (mem_qubits_of_mem_args hq)]
      exact hplaced _ huse

end ScaffCC.Lpfs
