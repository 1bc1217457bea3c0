import ScaffCC.Lpfs.Rounds

/-!
# Moves without local memories

Without local memories the list `active_qubits` has exactly the qubits that are not in the memory,
each of them once. A qubit that is used while its region is idle is recognised by its place not
being divisible by ten, and one that was not recognised is taken to come from the memory.
-/

namespace ScaffCC.Lpfs

open Scheduling

variable {body : List Call} {s : State} {O : MoveOptions} {ts : ℕ} {m : Moving} {q : Qubit}
  {us : List (Qubit × ℕ × ℕ)} {σ : Tracking}

/-- The lists while the first loop goes on, with the qubits `pending` still to be looked at. -/
structure Away (body : List Call) (s : State) (k ts : ℕ) (us : List (Qubit × ℕ × ℕ))
    (pending : List Qubit) (m : Moving) : Prop where
  listed : ∀ q ∈ pending ++ m.next, q ∈ qubits body
  nodup : (pending ++ m.next).Nodup
  away : ∀ q ∈ qubits body, m.loc q ≠ 0 ↔ q ∈ pending ++ m.next
  waiting : ∀ c ∈ m.current, c.1 ∈ pending ∨ m.loc c.1 = 0
  unseen : ∀ u ∈ us, u.1 ∈ pending → (u.1, u.2.1) ∈ m.current ∧
    (m.loc u.1 % 10 = 0 → simdActive k s ts (m.loc u.1))
  unstored : ∀ q, m.Unstored ts q

namespace Away

variable {pending : List Qubit}

theorem mem_keep {next : List Qubit} (p : Qubit) :
    p ∈ q :: pending ++ next ↔ p ∈ pending ++ (next ++ [q]) := by
  simp only [List.cons_append, List.mem_cons, List.mem_append, List.not_mem_nil, or_false]
  tauto

theorem nodup_keep {next : List Qubit} (h : (q :: pending ++ next).Nodup) :
    (pending ++ (next ++ [q])).Nodup := by
  rw [← List.append_assoc]
  exact (List.perm_append_singleton q _).nodup_iff.mpr h

theorem taken (h : DistinctNames body) (hu : UsesOk body s ts us)
    (hm : Consistent body s ts us σ m) (ha : Away body s O.k ts us (q :: pending) m)
    {c : Qubit × ℕ} (hc : c ∈ m.current) (hq : c.1 = q) :
    Away body s O.k ts us pending (m.taken ts c) := by
  subst hq
  obtain ⟨i, hi⟩ := hm.current c hc
  have hmem : c.1 ∈ qubits body := hu.mem _ hi
  have hnext : (m.taken ts c).next = m.next ++ [c.1] := Moving.next_taken hm.own hmem
  have hcurrent : (m.taken ts c).current = m.current.erase c := rfl
  have hloc : ∀ p ∈ qubits body, (m.taken ts c).loc p = if p = c.1 then c.2 else m.loc p := by
    intro p hp
    rw [Tracking.loc_eq, Moving.entry_taken h hp hmem]
    split_ifs <;> rfl
  have hfirst : c.1 ∉ pending := (List.nodup_cons.mp (List.nodup_append.mp ha.nodup).1).1
  have hne : ∀ d ∈ m.current.erase c, d.1 ≠ c.1 := fun d ↦ hm.ne_of_mem_erase hc
  have hlocal : (m.taken ts c).local_move_schedule = m.local_move_schedule := by
    rw [Moving.taken]
    split_ifs <;> rfl
  refine ⟨?_, ?_, fun p hp ↦ ?_, fun d hd ↦ ?_, fun u hmem' hpend ↦ ?_, fun p mov hmov ↦
    ha.unstored p mov (hlocal ▸ hmov)⟩
  · rw [hnext]
    exact fun p hp ↦ ha.listed p ((mem_keep p).mpr hp)
  · rw [hnext]
    exact nodup_keep ha.nodup
  · rw [hnext, hloc p hp, ← mem_keep, ← ha.away p hp]
    split_ifs with hpc
    · subst hpc
      exact iff_of_true (hu.pos _ hi) ((ha.away _ hmem).mpr List.mem_cons_self)
    · rfl
  · rw [hcurrent] at hd
    have hdm := List.mem_of_mem_erase hd
    obtain ⟨j, hj⟩ := hm.current d hdm
    rw [hloc d.1 (hu.mem _ hj), if_neg (hne d hd)]
    exact (ha.waiting d hdm).imp_left fun hpend ↦
      (List.mem_cons.mp hpend).resolve_left (hne d hd)
  · have huc : u.1 ≠ c.1 := fun heq ↦ hfirst (heq ▸ hpend)
    obtain ⟨hcur, hten⟩ := ha.unseen u hmem' (List.mem_cons_of_mem _ hpend)
    rw [hloc u.1 (hu.mem u hmem'), if_neg huc]
    exact ⟨(List.mem_erase_of_ne fun heq ↦ huc (congrArg Prod.fst heq)).mpr hcur, hten⟩

theorem keep (hm : Consistent body s ts us σ m) (ha : Away body s O.k ts us (q :: pending) m)
    (hfree : m.loc q % 10 = 0 ∨ q ∉ m.current.map Prod.fst)
    (hidle : simdActive O.k s ts (m.loc q) = false) :
    Away body s O.k ts us pending (m.keep (qubitName q)) := by
  have hmem : q ∈ qubits body := ha.listed q List.mem_cons_self
  have hnext : (m.keep (qubitName q)).next = m.next ++ [q] :=
    congrArg (fun q ↦ m.next ++ [q]) (hm.own q hmem)
  have hunused : q ∉ m.current.map Prod.fst := by
    intro hcur
    obtain ⟨c, hc, rfl⟩ := List.mem_map.mp hcur
    obtain ⟨i, hi⟩ := hm.current c hc
    have hten := (ha.unseen _ hi List.mem_cons_self).2 (hfree.resolve_right fun h ↦ h hcur)
    exact Bool.false_ne_true (hidle.symm.trans hten)
  refine ⟨?_, ?_, fun p hp ↦ ?_, fun d hd ↦ ?_, fun u hmem' hpend ↦ ?_, ha.unstored⟩
  · rw [hnext]
    exact fun p hp ↦ ha.listed p ((mem_keep p).mpr hp)
  · rw [hnext]
    exact nodup_keep ha.nodup
  · rw [hnext, ← mem_keep]
    exact ha.away p hp
  · have hdq : d.1 ≠ q := fun heq ↦ hunused (heq ▸ List.mem_map_of_mem hd)
    exact (ha.waiting d hd).imp_left fun hpend ↦ (List.mem_cons.mp hpend).resolve_left hdq
  · exact ha.unseen u hmem' (List.mem_cons_of_mem _ hpend)

/-- A qubit leaves a region that has other operations. -/
theorem move (h : DistinctNames body) (hu : UsesOk body s ts us)
    (hm : Consistent body s ts us σ m) (ha : Away body s O.k ts us (q :: pending) m) :
    Away body s O.k ts us pending (m.move ts false (qubitName q) (m.loc q) 0) := by
  have hmem : q ∈ qubits body := ha.listed q List.mem_cons_self
  have hloc : ∀ p ∈ qubits body, _ = _ := fun p hp ↦
    Moving.loc_move (m := m) h hp hmem ts false (m.loc q) 0
  obtain ⟨hfirst, hnodup⟩ := List.nodup_cons.mp ha.nodup
  refine ⟨fun p hp ↦ ha.listed p (List.mem_cons_of_mem _ hp), hnodup, fun p hp ↦ ?_,
    fun d hd ↦ ?_, fun u hmem' hpend ↦ ?_, ha.unstored⟩
  · rw [hloc p hp]
    split_ifs with hpq
    · subst hpq
      exact iff_of_false (fun h ↦ h rfl) hfirst
    · rw [ha.away p hp, List.cons_append, List.mem_cons, or_iff_right hpq]
      rfl
  · obtain ⟨j, hj⟩ := hm.current d hd
    rw [hloc d.1 (hu.mem _ hj)]
    split_ifs with hdq
    · exact .inr rfl
    · exact (ha.waiting d hd).imp_left fun hpend ↦ (List.mem_cons.mp hpend).resolve_left hdq
  · have huq : u.1 ≠ q := fun heq ↦ hfirst (List.mem_append_left _ (heq ▸ hpend))
    rw [hloc u.1 (hu.mem u hmem'), if_neg huq]
    exact ha.unseen u hmem' (List.mem_cons_of_mem _ hpend)

theorem examine (h : DistinctNames body) (hu : UsesOk body s ts us) (hlocal : O.local_mem = false)
    (hm : Consistent body s ts us σ m) (ha : Away body s O.k ts us (q :: pending) m) :
    ∃ m', m.examine body s O ts q = some m' ∧ Consistent body s ts us σ m' ∧
      Away body s O.k ts us pending m' := by
  have hmem : q ∈ qubits body := ha.listed q List.mem_cons_self
  rcases Moving.examine_cases (O := O) h hu hm hmem with
    ⟨c, hc, hq, -, heq⟩ | ⟨hfree, ⟨hidle, heq⟩ | ⟨hactive, heq⟩⟩
  · exact ⟨_, heq, hm.taken h hu hc (ha.unstored _), ha.taken h hu hm hc hq⟩
  · exact ⟨_, heq, hm.keep _, ha.keep hm hfree hidle⟩
  · rw [if_pos hlocal] at heq
    refine ⟨_, heq, hm.move h hu hmem (fun _ ↦ ha.unstored q) fun u hmem' huq ↦ .inl ?_,
      ha.move h hu hm⟩
    exact (ha.unseen u hmem' (huq ▸ List.mem_cons_self)).1

end Away

end ScaffCC.Lpfs
