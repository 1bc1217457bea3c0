import Mathlib.Data.List.AList
import ScaffCC.Sched.Op
import ScaffCC.Text.Numeral

/-!
# Moves

Before a timestep is executed the qubits are moved to the regions that use them. `update_moves`
works on one timestep after the other and keeps, from one to the next, where the qubits are: a qubit
that is not in `active_qubits` is in the memory, which has the number `0`.

A qubit that is used is moved to its region if it is somewhere else. A qubit that is not used stays
in its region if no operation is executed there, and goes back to the memory otherwise. The moves of
a timestep concern different qubits and are sorted by their texts at the end, so the order in which
Perl goes through the hashes does not matter.
-/

namespace ScaffCC.Sched

open Text

/-! ## One timestep -/

/-- The operations in each region. -/
abbrev Timestep := ℕ → List Op

/-- A hash from the names of qubits to numbers of regions. -/
abbrev Regions := AList fun _ : Ident ↦ ℕ

structure Mov where
  src : ℕ
  dst : ℕ
  name : Ident
  deriving DecidableEq, Repr

def Mov.text (mov : Mov) : List Char :=
  ['M', 'O', 'V', ' '] ++ showInt mov.dst ++ ' ' :: showInt mov.src ++ ' ' :: mov.name

/-- Each operand with its region, region by region. -/
def uses (k : ℕ) (t : Timestep) : List (Ident × ℕ) :=
  (List.range' 1 k).flatMap fun simd ↦ (t simd).flatMap fun op ↦ op.args.map fun q ↦ (q, simd)

def curr (k : ℕ) (t : Timestep) : Regions :=
  (uses k t).foldl (fun curr u ↦ curr.insert u.1 u.2) ∅

def simd_active (k : ℕ) (t : Timestep) (simd : ℕ) : Bool :=
  1 ≤ simd ∧ simd ≤ k ∧ t simd ≠ []

/-- The field `active_qubits` of a schedule and the fields `loc` of the qubits. -/
structure Locations where
  active_qubits : Regions
  loc : Ident → ℕ

/-- All qubits in the memory. -/
def Locations.init : Locations := ⟨∅, fun _ ↦ 0⟩

/-- The hashes and the list that are changed while the moves are found. -/
structure Moving where
  curr : Regions
  next : Regions
  moves : List Mov
  loc : Ident → ℕ

namespace Moving

def move (m : Moving) (name : Ident) (src dst : ℕ) : Moving :=
  { m with moves := m.moves ++ [⟨src, dst, name⟩], loc := Function.update m.loc name dst }

/-- The loop over `$active`, for a qubit in the region `src`. -/
def leave (k : ℕ) (t : Timestep) (m : Moving) (name : Ident) (src : ℕ) : Moving :=
  let dst := (m.curr.lookup name).getD 0
  let m := if dst ≠ 0
    then { m with next := m.next.insert name dst, curr := m.curr.erase name } else m
  let m := if dst = 0 ∧ ¬ simd_active k t src then { m with next := m.next.insert name src } else m
  if (dst ≠ 0 ∧ dst ≠ src) ∨ (dst = 0 ∧ simd_active k t src) then m.move name src dst else m

/-- The loop over the rest of `$curr`, for a qubit that is to be in the region `dst`. -/
def fetch (m : Moving) (name : Ident) (dst : ℕ) : Moving :=
  { m with next := m.next.insert name dst }.move name 0 dst

end Moving

/-- The two loops. -/
def movesOf (k : ℕ) (t : Timestep) (s : Locations) : Moving :=
  let m : Moving := s.active_qubits.entries.foldl (fun m e ↦ Moving.leave k t m e.1 e.2)
    ⟨curr k t, ∅, [], s.loc⟩
  m.curr.entries.foldl (fun m e ↦ Moving.fetch m e.1 e.2) m

/-- `update_moves`: the moves in front of a timestep, and where the qubits are afterwards. -/
def update_moves (k : ℕ) (t : Timestep) (s : Locations) : List Mov × Locations :=
  let m := movesOf k t s
  (m.moves.mergeSort fun a b ↦ ¬ b.text < a.text, ⟨m.next, m.loc⟩)

/-! ## Replaying the moves -/

/-- A schedule with the moves emitted in front of each timestep. -/
def emitted (k : ℕ) (s : Locations) : List Timestep → List (Timestep × List Mov)
  | [] => []
  | t :: ts => (t, (update_moves k t s).1) :: emitted k (update_moves k t s).2 ts

/-- Where the qubits are after some moves. -/
def replay (ℓ : Ident → ℕ) (moves : List Mov) : Ident → ℕ :=
  moves.foldl (fun ℓ mov ↦ Function.update ℓ mov.name mov.dst) ℓ

/-- Every move starts where the qubit is. -/
def SourcesRight : (Ident → ℕ) → List Mov → Prop
  | _, [] => True
  | ℓ, mov :: moves =>
    ℓ mov.name = mov.src ∧ SourcesRight (Function.update ℓ mov.name mov.dst) moves

/-- Every operand is in the region of its operation. -/
def InPlace (k : ℕ) (t : Timestep) (ℓ : Ident → ℕ) : Prop :=
  ∀ simd, 1 ≤ simd → simd ≤ k → ∀ op ∈ t simd, ∀ q ∈ op.args, ℓ q = simd

/-- No idle qubit is in a region where operations are executed. -/
def Cleared (k : ℕ) (t : Timestep) (ℓ : Ident → ℕ) : Prop :=
  ∀ q, (∀ simd, 1 ≤ simd → simd ≤ k → ∀ op ∈ t simd, q ∉ op.args) →
    ∀ simd, 1 ≤ simd → simd ≤ k → t simd ≠ [] → ℓ q ≠ simd

/-- The moves bring the qubits where they are needed, at every timestep. -/
def MovesRight (k : ℕ) : (Ident → ℕ) → List (Timestep × List Mov) → Prop
  | _, [] => True
  | ℓ, (t, moves) :: rest => SourcesRight ℓ moves ∧ InPlace k t (replay ℓ moves) ∧
    Cleared k t (replay ℓ moves) ∧ MovesRight k (replay ℓ moves) rest

/-- Every qubit is used in at most one region. -/
def OneRegion (k : ℕ) (t : Timestep) : Prop :=
  ∀ q r r', (q, r) ∈ uses k t → (q, r') ∈ uses k t → r = r'

instance (k : ℕ) (t : Timestep) : Decidable (OneRegion k t) :=
  decidable_of_iff (∀ u ∈ uses k t, ∀ v ∈ uses k t, u.1 = v.1 → u.2 = v.2)
    ⟨fun h q r r' hr hr' ↦ h (q, r) hr (q, r') hr' rfl,
      fun h u hu v hv heq ↦ h u.1 u.2 v.2 hu (by rw [heq]; exact hv)⟩

/-! ## The hash of uses -/

variable {k : ℕ} {t : Timestep} {q : Ident} {r : ℕ}

theorem mem_uses : (q, r) ∈ uses k t ↔ (1 ≤ r ∧ r ≤ k) ∧ ∃ op ∈ t r, q ∈ op.args := by
  simp only [uses, List.mem_flatMap, List.mem_range'_1, List.mem_map, Prod.mk.injEq]
  constructor
  · rintro ⟨simd, hsimd, op, hop, _, hq, rfl, rfl⟩
    exact ⟨by omega, op, hop, hq⟩
  · rintro ⟨hr, op, hop, hq⟩
    exact ⟨r, by omega, op, hop, q, hq, rfl, rfl⟩

theorem lookup_foldl_insert (us : List (Ident × ℕ)) :
    (∀ r, (us.foldl (fun c u ↦ c.insert u.1 u.2) (∅ : Regions)).lookup q = some r → (q, r) ∈ us) ∧
      ((us.foldl (fun c u ↦ c.insert u.1 u.2) (∅ : Regions)).lookup q = none →
        ∀ r, (q, r) ∉ us) := by
  induction us using List.reverseRecOn with
  | nil => exact ⟨fun r h ↦ by simp at h, fun _ r ↦ List.not_mem_nil⟩
  | append_singleton us u ih =>
    obtain ⟨p, n⟩ := u
    rw [List.foldl_append, List.foldl_cons, List.foldl_nil]
    by_cases hq : q = p
    · subst hq
      rw [AList.lookup_insert]
      refine ⟨fun r hr ↦ ?_, fun h ↦ absurd h (Option.some_ne_none n)⟩
      obtain rfl : n = r := Option.some_injective _ hr
      exact List.mem_append_right us List.mem_cons_self
    · rw [AList.lookup_insert_ne hq]
      refine ⟨fun r hr ↦ List.mem_append_left _ (ih.1 r hr), fun h r hr ↦ ?_⟩
      rcases List.mem_append.mp hr with hr | hr
      · exact ih.2 h r hr
      · exact hq (Prod.ext_iff.mp (List.mem_singleton.mp hr)).1

theorem mem_uses_of_lookup (h : (curr k t).lookup q = some r) : (q, r) ∈ uses k t :=
  (lookup_foldl_insert (uses k t)).1 r h

theorem lookup_curr (hone : OneRegion k t) (h : (q, r) ∈ uses k t) :
    (curr k t).lookup q = some r := by
  cases hl : (curr k t).lookup q with
  | none => exact absurd h ((lookup_foldl_insert (uses k t)).2 hl r)
  | some r' => rw [hone q r' r (mem_uses_of_lookup hl) h]

theorem pos_of_lookup (h : (curr k t).lookup q = some r) : r ≠ 0 :=
  Nat.pos_iff_ne_zero.mp (mem_uses.mp (mem_uses_of_lookup h)).1.1

theorem getD_lookup_insert (next : Regions) (p q : Ident) (n : ℕ) :
    ((next.insert p n).lookup q).getD 0 = if q = p then n else (next.lookup q).getD 0 := by
  by_cases hq : q = p
  · subst hq
    rw [if_pos rfl, AList.lookup_insert, Option.getD_some]
  · rw [if_neg hq, AList.lookup_insert_ne hq]

/-! ## What the two loops do -/

/-- Where a qubit is at the timestep, if it was in the region `src` before. -/
def target (k : ℕ) (t : Timestep) (q : Ident) (src : ℕ) : ℕ :=
  match (curr k t).lookup q with
  | some dst => dst
  | none => if simd_active k t src then 0 else src

theorem target_of_lookup {dst : ℕ} (h : (curr k t).lookup q = some dst) (src : ℕ) :
    target k t q src = dst := by
  rw [target, h]

theorem target_of_none (h : (curr k t).lookup q = none) (src : ℕ) :
    target k t q src = if simd_active k t src then 0 else src := by
  rw [target, h]

/-- The qubits in the list `done` have been gone through: the moves found so far bring them where
they are to be, and `next` says so. -/
structure Moved (k : ℕ) (t : Timestep) (ℓ : Ident → ℕ) (done : List Ident) (m : Moving) : Prop where
  next : ∀ q, (m.next.lookup q).getD 0 = if q ∈ done then target k t q (ℓ q) else 0
  moves : ∀ mov ∈ m.moves, mov.name ∈ done ∧ mov.src = ℓ mov.name ∧
    mov.dst = target k t mov.name (ℓ mov.name)
  nodup : (m.moves.map (·.name)).Nodup
  moved : ∀ q ∈ done, q ∈ m.moves.map (·.name) ∨ ℓ q = target k t q (ℓ q)

namespace Moving

variable {m : Moving} {name : Ident} {src dst : ℕ}

theorem leave_of_none_active (hl : m.curr.lookup name = none) (h : simd_active k t src) :
    m.leave k t name src = m.move name src 0 := by
  simp [leave, hl, h]

theorem leave_of_none_idle (hl : m.curr.lookup name = none) (h : ¬ simd_active k t src) :
    m.leave k t name src = { m with next := m.next.insert name src } := by
  simp [leave, hl, h]

theorem leave_of_some (hl : m.curr.lookup name = some dst) (h : dst ≠ 0) :
    m.leave k t name src =
      if dst ≠ src
      then { m with next := m.next.insert name dst, curr := m.curr.erase name }.move name src dst
      else { m with next := m.next.insert name dst, curr := m.curr.erase name } := by
  simp [leave, hl, h]

theorem lookup_curr_leave (h : ∀ dst, m.curr.lookup name = some dst → dst ≠ 0) :
    (m.leave k t name src).curr.lookup q = if q = name then none else m.curr.lookup q := by
  cases hl : m.curr.lookup name with
  | none =>
    have hcurr : (m.leave k t name src).curr = m.curr := by
      by_cases hactive : simd_active k t src
      · rw [leave_of_none_active hl hactive, move]
      · rw [leave_of_none_idle hl hactive]
    rw [hcurr]
    split_ifs with hq
    · rw [hq, hl]
    · rfl
  | some dst =>
    have hcurr : (m.leave k t name src).curr = m.curr.erase name := by
      rw [leave_of_some hl (h dst hl)]
      split_ifs <;> rfl
    rw [hcurr]
    split_ifs with hq
    · rw [hq, AList.lookup_erase]
    · rw [AList.lookup_erase_ne hq]

end Moving

namespace Moved

variable {ℓ : Ident → ℕ} {done : List Ident} {m : Moving} {name : Ident} {src dst : ℕ}

theorem snoc (h : Moved k t ℓ done m) (hname : name ∉ done) {m' : Moving}
    (hnext : ∀ q, (m'.next.lookup q).getD 0 =
      if q = name then target k t name (ℓ name) else (m.next.lookup q).getD 0)
    (hmoves : m'.moves = m.moves ++ [⟨ℓ name, target k t name (ℓ name), name⟩] ∨
      m'.moves = m.moves ∧ ℓ name = target k t name (ℓ name)) :
    Moved k t ℓ (done ++ [name]) m' := by
  -- the qubits seen are those before and this one
  have hmem : ∀ q, q ∈ done ++ [name] ↔ q ∈ done ∨ q = name := by simp
  have hold : ∀ mov ∈ m.moves, mov.name ∈ done ++ [name] ∧ mov.src = ℓ mov.name ∧
      mov.dst = target k t mov.name (ℓ mov.name) := fun mov hmov ↦
    ⟨List.mem_append_left _ (h.moves mov hmov).1, (h.moves mov hmov).2⟩
  refine ⟨fun q ↦ ?_, fun mov hmov ↦ ?_, ?_, fun q hq ↦ ?_⟩
  · rw [hnext]
    by_cases hq : q = name
    · subst hq
      rw [if_pos rfl, if_pos ((hmem q).mpr (.inr rfl))]
    · rw [if_neg hq, h.next]
      exact if_congr (by rw [hmem, or_iff_left hq]) rfl rfl
  · rcases hmoves with hmoves | ⟨hmoves, -⟩
    · rw [hmoves, List.mem_append, List.mem_singleton] at hmov
      rcases hmov with hmov | rfl
      · exact hold mov hmov
      · exact ⟨(hmem name).mpr (.inr rfl), rfl, rfl⟩
    · exact hold mov (hmoves ▸ hmov)
  · rcases hmoves with hmoves | ⟨hmoves, -⟩
    · rw [hmoves, List.map_append, List.map_singleton]
      refine h.nodup.append (List.nodup_singleton name) fun q hq hqn ↦ hname ?_
      obtain ⟨mov, hmov, rfl⟩ := List.mem_map.mp hq
      have heq : mov.name = name := List.mem_singleton.mp hqn
      exact heq ▸ (h.moves mov hmov).1
    · rw [hmoves]
      exact h.nodup
  · have hsub : m.moves.map (·.name) ⊆ m'.moves.map (·.name) := by
      rcases hmoves with hmoves | ⟨hmoves, -⟩
      · rw [hmoves, List.map_append]
        exact List.subset_append_left _ _
      · rw [hmoves]
        exact List.Subset.refl _
    rcases (hmem q).mp hq with hq | rfl
    · exact (h.moved q hq).imp_left fun hmov ↦ hsub hmov
    · rcases hmoves with hmoves | ⟨-, heq⟩
      · left
        rw [hmoves, List.map_append]
        exact List.mem_append_right _ (List.mem_singleton_self _)
      · exact .inr heq

theorem leave (h : Moved k t ℓ done m) (hname : name ∉ done)
    (hcurr : m.curr.lookup name = (curr k t).lookup name) :
    Moved k t ℓ (done ++ [name]) (Moving.leave k t m name (ℓ name)) := by
  cases hl : (curr k t).lookup name with
  | none =>
    have htarget := target_of_none hl (ℓ name)
    by_cases hactive : simd_active k t (ℓ name)
    · rw [if_pos hactive] at htarget
      rw [Moving.leave_of_none_active (hcurr.trans hl) hactive]
      refine h.snoc hname (fun q ↦ ?_) (.inl (by rw [htarget]; rfl))
      by_cases hq : q = name
      · subst hq
        rw [if_pos rfl, htarget, Moving.move, h.next, if_neg hname]
      · rw [if_neg hq, Moving.move]
    · rw [if_neg hactive] at htarget
      rw [Moving.leave_of_none_idle (hcurr.trans hl) hactive]
      refine h.snoc hname (fun q ↦ ?_) (.inr ⟨rfl, htarget.symm⟩)
      rw [htarget, getD_lookup_insert]
  | some dst =>
    have htarget := target_of_lookup hl (ℓ name)
    rw [Moving.leave_of_some (hcurr.trans hl) (pos_of_lookup hl)]
    have hnext : ∀ q, ((m.next.insert name dst).lookup q).getD 0
        = if q = name then target k t name (ℓ name) else (m.next.lookup q).getD 0 := by
      intro q
      rw [htarget, getD_lookup_insert]
    by_cases heq : dst = ℓ name
    · rw [if_neg (not_not.mpr heq)]
      exact h.snoc hname hnext (.inr ⟨rfl, by rw [htarget, heq]⟩)
    · rw [if_pos heq]
      exact h.snoc hname hnext (.inl (by rw [htarget]; rfl))

theorem foldl_leave {es : List (Sigma fun _ : Ident ↦ ℕ)} (h : Moved k t ℓ done m)
    (hsrc : ∀ e ∈ es, ℓ e.1 = e.2) (hnodup : (done ++ es.map Sigma.fst).Nodup)
    (hcurr : ∀ q, m.curr.lookup q = if q ∈ done then none else (curr k t).lookup q) :
    let m' := es.foldl (fun m e ↦ Moving.leave k t m e.1 e.2) m
    Moved k t ℓ (done ++ es.map Sigma.fst) m' ∧ ∀ q, m'.curr.lookup q =
      if q ∈ done ++ es.map Sigma.fst then none else (curr k t).lookup q := by
  induction es generalizing done m with
  | nil =>
    rw [List.map_nil, List.append_nil]
    exact ⟨h, hcurr⟩
  | cons e es ih =>
    obtain ⟨name, src⟩ := e
    obtain ⟨hsrc₀, hrest⟩ := List.forall_mem_cons.mp hsrc
    obtain rfl : ℓ name = src := hsrc₀
    have hsplit : done ++ (⟨name, ℓ name⟩ :: es).map Sigma.fst
        = done ++ [name] ++ es.map Sigma.fst := by
      rw [List.map_cons, List.append_assoc, List.singleton_append]
    rw [hsplit] at hnodup ⊢
    have hname : name ∉ done := fun hmem ↦
      (List.nodup_append.mp (List.nodup_append.mp hnodup).1).2.2 name hmem name
        (List.mem_singleton_self name) rfl
    have hlookup : m.curr.lookup name = (curr k t).lookup name := by
      rw [hcurr, if_neg hname]
    refine ih (h.leave hname hlookup) hrest hnodup fun q ↦ ?_
    rw [Moving.lookup_curr_leave fun dst hdst ↦ pos_of_lookup (hlookup ▸ hdst)]
    by_cases hq : q = name
    · rw [if_pos hq, if_pos (List.mem_append_right _ (List.mem_singleton.mpr hq))]
    · rw [if_neg hq, hcurr]
      exact if_congr (by rw [List.mem_append, List.mem_singleton, or_iff_left hq]) rfl rfl

theorem fetch (h : Moved k t ℓ done m) (hname : name ∉ done) (hmem : ℓ name = 0)
    (hcurr : (curr k t).lookup name = some dst) :
    Moved k t ℓ (done ++ [name]) (m.fetch name dst) := by
  have htarget := target_of_lookup hcurr (ℓ name)
  refine h.snoc hname (fun q ↦ ?_) (.inl ?_)
  · rw [htarget]
    exact getD_lookup_insert m.next name q dst
  · rw [htarget, hmem]
    rfl

theorem foldl_fetch {es : List (Sigma fun _ : Ident ↦ ℕ)} (h : Moved k t ℓ done m)
    (hmem : ∀ e ∈ es, ℓ e.1 = 0) (hnodup : (done ++ es.map Sigma.fst).Nodup)
    (hcurr : ∀ e ∈ es, (curr k t).lookup e.1 = some e.2) :
    Moved k t ℓ (done ++ es.map Sigma.fst) (es.foldl (fun m e ↦ Moving.fetch m e.1 e.2) m) := by
  induction es generalizing done m with
  | nil =>
    rw [List.map_nil, List.append_nil]
    exact h
  | cons e es ih =>
    obtain ⟨hmem₀, hmems⟩ := List.forall_mem_cons.mp hmem
    obtain ⟨hcurr₀, hcurrs⟩ := List.forall_mem_cons.mp hcurr
    have hsplit : done ++ (e :: es).map Sigma.fst = done ++ [e.1] ++ es.map Sigma.fst := by
      rw [List.map_cons, List.append_assoc, List.singleton_append]
    rw [hsplit] at hnodup ⊢
    have hname : e.1 ∉ done := fun hdone ↦
      (List.nodup_append.mp (List.nodup_append.mp hnodup).1).2.2 e.1 hdone e.1
        (List.mem_singleton_self e.1) rfl
    exact ih (h.fetch hname hmem₀ hcurr₀) hmems hnodup hcurrs

end Moved

/-- The table of a schedule says where the qubits are. -/
def Located (s : Locations) (ℓ : Ident → ℕ) : Prop :=
  ∀ q, ℓ q = (s.active_qubits.lookup q).getD 0

variable {s : Locations} {ℓ : Ident → ℕ}

/-- The two loops go through all qubits that are not in the memory before or after. -/
theorem moved_movesOf (h : Located s ℓ) :
    ∃ done, Moved k t ℓ done (movesOf k t s) ∧ ∀ q ∉ done, target k t q (ℓ q) = 0 ∧ ℓ q = 0 := by
  have hstart : Moved k t ℓ [] ⟨curr k t, ∅, [], s.loc⟩ :=
    ⟨fun q ↦ rfl, fun _ hmov ↦ absurd hmov List.not_mem_nil, List.nodup_nil,
      fun _ hq ↦ absurd hq List.not_mem_nil⟩
  obtain ⟨hfirst, hcurr⟩ := hstart.foldl_leave
    (fun e he ↦ by rw [h e.1, AList.mem_lookup_iff.mpr he, Option.getD_some])
    (by rw [List.nil_append]; exact s.active_qubits.keys_nodup) fun q ↦ rfl
  rw [List.nil_append] at hfirst hcurr
  set m := s.active_qubits.entries.foldl (fun m e ↦ Moving.leave k t m e.1 e.2)
    ⟨curr k t, ∅, [], s.loc⟩ with hm
  -- what is left of `curr` are the qubits that were in the memory
  have hleft : ∀ e ∈ m.curr.entries, e.1 ∉ s.active_qubits.keys ∧
      (curr k t).lookup e.1 = some e.2 := by
    intro e he
    have hl : m.curr.lookup e.1 = some e.2 := AList.mem_lookup_iff.mpr he
    rw [hcurr] at hl
    split_ifs at hl with hkey
    exact ⟨hkey, hl⟩
  have hmemory : ∀ q ∉ s.active_qubits.keys, ℓ q = 0 := by
    intro q hq
    rw [h q, AList.lookup_eq_none.mpr (by rwa [AList.mem_keys]), Option.getD_none]
  have hdisjoint : (s.active_qubits.keys ++ m.curr.entries.map Sigma.fst).Nodup := by
    refine s.active_qubits.keys_nodup.append m.curr.keys_nodup fun q hq hq' ↦ ?_
    obtain ⟨e, he, rfl⟩ := List.mem_map.mp hq'
    exact (hleft e he).1 hq
  refine ⟨_, hfirst.foldl_fetch (fun e he ↦ hmemory e.1 (hleft e he).1) hdisjoint
    fun e he ↦ (hleft e he).2, fun q hq ↦ ?_⟩
  rw [List.mem_append, not_or] at hq
  have hnone : (curr k t).lookup q = none := by
    have hl := hcurr q
    rw [if_neg hq.1] at hl
    rw [← hl, AList.lookup_eq_none, AList.mem_keys]
    exact hq.2
  have hzero := hmemory q hq.1
  rw [target_of_none hnone, hzero]
  exact ⟨ite_self 0, rfl⟩

/-! ## The moves of a timestep -/

theorem replay_of_notMem {moves : List Mov} (hq : q ∉ moves.map (·.name)) :
    replay ℓ moves q = ℓ q := by
  induction moves generalizing ℓ with
  | nil => rfl
  | cons mov moves ih =>
    rw [List.map_cons, List.mem_cons, not_or] at hq
    rw [replay, List.foldl_cons, ← replay, ih hq.2, Function.update_of_ne hq.1]

theorem replay_of_mem {moves : List Mov} (hnodup : (moves.map (·.name)).Nodup) {mov : Mov}
    (hmov : mov ∈ moves) : replay ℓ moves mov.name = mov.dst := by
  induction moves generalizing ℓ with
  | nil => exact absurd hmov List.not_mem_nil
  | cons mov' moves ih =>
    rw [List.map_cons, List.nodup_cons] at hnodup
    rw [replay, List.foldl_cons, ← replay]
    rcases List.mem_cons.mp hmov with rfl | hmov
    · rw [replay_of_notMem hnodup.1, Function.update_self]
    · exact ih hnodup.2 hmov

theorem sourcesRight {moves : List Mov} (hnodup : (moves.map (·.name)).Nodup)
    (h : ∀ mov ∈ moves, mov.src = ℓ mov.name) : SourcesRight ℓ moves := by
  induction moves generalizing ℓ with
  | nil => exact trivial
  | cons mov moves ih =>
    rw [List.map_cons, List.nodup_cons] at hnodup
    refine ⟨(h mov List.mem_cons_self).symm, ih hnodup.2 fun mov' hmov' ↦ ?_⟩
    rw [Function.update_of_ne, h mov' (List.mem_cons_of_mem mov hmov')]
    exact fun heq ↦ hnodup.1 (heq ▸ List.mem_map_of_mem hmov')

/-- **One timestep.** The moves start where the qubits are and bring them to their targets, and the
table says so. -/
theorem update_moves_spec (h : Located s ℓ) :
    SourcesRight ℓ (update_moves k t s).1 ∧
      (∀ q, replay ℓ (update_moves k t s).1 q = target k t q (ℓ q)) ∧
      Located (update_moves k t s).2 (replay ℓ (update_moves k t s).1) := by
  obtain ⟨done, hmoved, hrest⟩ := moved_movesOf (k := k) (t := t) h
  have hperm : (update_moves k t s).1.Perm (movesOf k t s).moves := List.mergeSort_perm ..
  have hnodup : ((update_moves k t s).1.map (·.name)).Nodup :=
    (hperm.map _).nodup_iff.mpr hmoved.nodup
  have hmoves : ∀ mov ∈ (update_moves k t s).1, mov.name ∈ done ∧ mov.src = ℓ mov.name ∧
      mov.dst = target k t mov.name (ℓ mov.name) := fun mov hmov ↦
    hmoved.moves mov (hperm.mem_iff.mp hmov)
  have htarget : ∀ q, replay ℓ (update_moves k t s).1 q = target k t q (ℓ q) := by
    intro q
    by_cases hq : q ∈ (update_moves k t s).1.map (·.name)
    · obtain ⟨mov, hmov, rfl⟩ := List.mem_map.mp hq
      rw [replay_of_mem hnodup hmov, (hmoves mov hmov).2.2]
    · rw [replay_of_notMem hq]
      by_cases hdone : q ∈ done
      · exact (hmoved.moved q hdone).resolve_left fun hmov ↦ hq ((hperm.map _).mem_iff.mpr hmov)
      · rw [(hrest q hdone).1, (hrest q hdone).2]
  refine ⟨sourcesRight hnodup fun mov hmov ↦ (hmoves mov hmov).2.1, htarget, fun q ↦ ?_⟩
  rw [htarget]
  refine Eq.symm ((hmoved.next q).trans ?_)
  split_ifs with hdone
  · rfl
  · exact (hrest q hdone).1.symm

/-! ## The whole schedule -/

theorem inPlace_of_target (hone : OneRegion k t) {ℓ' : Ident → ℕ}
    (h : ∀ q, ℓ' q = target k t q (ℓ q)) : InPlace k t ℓ' := by
  intro simd hpos hle op hop q hq
  rw [h, target_of_lookup (lookup_curr hone (mem_uses.mpr ⟨⟨hpos, hle⟩, op, hop, hq⟩))]

theorem cleared_of_target {ℓ' : Ident → ℕ} (h : ∀ q, ℓ' q = target k t q (ℓ q)) :
    Cleared k t ℓ' := by
  intro q hidle simd hpos hle hne
  have hnone : (curr k t).lookup q = none := by
    rw [Option.eq_none_iff_forall_ne_some]
    intro r hr
    obtain ⟨hr, op, hop, hq⟩ := mem_uses.mp (mem_uses_of_lookup hr)
    exact hidle r hr.1 hr.2 op hop hq
  rw [h, target_of_none hnone]
  split_ifs with hactive
  · omega
  · rintro rfl
    exact hactive (decide_eq_true ⟨hpos, hle, hne⟩)

theorem movesRight_of_located (h : Located s ℓ) {ts : List Timestep}
    (hone : ∀ t ∈ ts, OneRegion k t) : MovesRight k ℓ (emitted k s ts) := by
  induction ts generalizing s ℓ with
  | nil => exact trivial
  | cons t ts ih =>
    obtain ⟨hone₀, hones⟩ := List.forall_mem_cons.mp hone
    obtain ⟨hsources, htarget, hlocated⟩ := update_moves_spec (k := k) (t := t) h
    exact ⟨hsources, inPlace_of_target hone₀ htarget, cleared_of_target htarget, ih hlocated hones⟩

/-- **The emitted moves are right** for every schedule that uses each qubit in at most one region of
a timestep. -/
theorem movesRight_emitted (k : ℕ) (ts : List Timestep) (hone : ∀ t ∈ ts, OneRegion k t) :
    MovesRight k (fun _ ↦ 0) (emitted k .init ts) := by
  have hinit : Located .init fun _ ↦ 0 := fun _ ↦ rfl
  exact movesRight_of_located hinit hone

/-- A CNOT next to a single gate, and then a CNOT that takes one operand out of each region. -/
private def threeQubits : List Timestep :=
  [fun simd ↦ if simd = 1 then [opOn .CNOT ['a', 'b']] else [opOn .H ['c']],
    fun simd ↦ if simd = 2 then [opOn .CNOT ['a', 'c']] else []]

theorem movesRight_threeQubits : MovesRight 2 (fun _ ↦ 0) (emitted 2 .init threeQubits) :=
  movesRight_emitted 2 threeQubits (by decide)

end ScaffCC.Sched
