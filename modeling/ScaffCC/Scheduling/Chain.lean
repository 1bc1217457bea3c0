import Mathlib.Data.List.Chain
import Mathlib.Order.Bounds.Basic
import Mathlib.Order.MinMax
import ScaffCC.Scheduling.LastUse

/-!
# Longest chains

In a chain of operations each one uses something that the one before it uses. When each operation is
given the first time after the last uses of what it uses, its time is the length of a longest chain
that ends with it, and the latest time of all is the length of a longest chain.

Each time in the record of last uses is the length of such a chain, and each chain is covered up to
its length. Both are kept by one operation.
-/

namespace Scheduling

variable {ν ι α : Type*}

/-! ## Where times come from -/

/-- Every time of the array is zero or one at which it was used: `P a t` says that the access `a`
was made at the time `t`. -/
structure ArrayClock.From (c : ArrayClock ι) (P : Option ι → ℕ → Prop) : Prop where
  whole : c.whole = 0 ∨ P none c.whole
  top : c.top = 0 ∨ ∃ a, P a c.top
  elem : ∀ i w, c.elem i = some w → w = 0 ∨ P none w ∨ P (some i) w

namespace ArrayClock

variable {c : ArrayClock ι} {P Q : Option ι → ℕ → Prop} {a b : Option ι} {t : ℕ}

theorem from_zero : (zero : ArrayClock ι).From P :=
  ⟨.inl rfl, .inl rfl, fun _ _ h ↦ absurd h.symm (Option.some_ne_none _)⟩

theorem From.mono (h : c.From P) (hPQ : ∀ a t, P a t → Q a t) : c.From Q :=
  ⟨h.whole.imp_right (hPQ _ _), h.top.imp_right fun ⟨a, ha⟩ ↦ ⟨a, hPQ _ _ ha⟩, fun i w hw ↦
    (h.elem i w hw).imp_right fun h ↦ h.imp (hPQ _ _) (hPQ _ _)⟩

theorem From.lastUse (h : c.From P) (a : Option ι) : c.lastUse a = 0 ∨
    ∃ b, P b (c.lastUse a) ∧ (b = none ∨ a = none ∨ b = a) := by
  cases a with
  | none => exact h.top.imp_right fun ⟨b, hb⟩ ↦ ⟨b, hb, .inr (.inl rfl)⟩
  | some i =>
    rw [ArrayClock.lastUse]
    cases hi : c.elem i with
    | none => exact h.whole.imp_right fun hw ↦ ⟨none, hw, .inl rfl⟩
    | some w =>
      rcases h.elem i w hi with hw | hw | hw
      · exact .inl hw
      · exact .inr ⟨none, hw, .inl rfl⟩
      · exact .inr ⟨some i, hw, .inr (.inr rfl)⟩

theorem from_reset (h : t = 0 ∨ P none t) : (c.reset t).From P := by
  refine ⟨h, h.imp_right fun h ↦ ⟨none, h⟩, fun i w hw ↦ ?_⟩
  rw [elem_reset, Option.map_eq_some_iff] at hw
  obtain ⟨-, -, rfl⟩ := hw
  exact h.imp_right .inl

theorem From.touch [DecidableEq ι] (h : c.From P) : (c.touch a).From P := by
  cases a with
  | none => exact h
  | some i =>
    refine ⟨h.whole, h.top, fun j w hw ↦ ?_⟩
    by_cases hj : j = i
    · subst hj
      rw [elem_touch, Function.update_self, Option.some.injEq, ArrayClock.lastUse] at hw
      cases hc : c.elem j with
      | none =>
        rw [hc] at hw
        exact hw ▸ h.whole.imp_right .inl
      | some v =>
        rw [hc] at hw
        exact hw ▸ h.elem j v hc
    · rw [elem_touch, Function.update_of_ne hj] at hw
      exact h.elem j w hw

theorem From.record [DecidableEq ι] (h : c.From P) (ha : P a t) : (c.record t a).From P := by
  cases a with
  | none =>
    refine ⟨.inr ha, .inr ⟨none, ha⟩, fun i w hw ↦ ?_⟩
    rw [ArrayClock.record, elem_reset, Option.map_eq_some_iff] at hw
    obtain ⟨-, -, rfl⟩ := hw
    exact .inr (.inl ha)
  | some i =>
    refine ⟨h.whole, ?_, fun j w hw ↦ ?_⟩
    · rcases max_choice c.top t with hmax | hmax
      · rw [ArrayClock.record, hmax]
        exact h.top
      · rw [ArrayClock.record, hmax]
        exact .inr ⟨some i, ha⟩
    · by_cases hj : j = i
      · subst hj
        rw [elem_record, Function.update_self, Option.some.injEq] at hw
        exact .inr (.inr (hw ▸ ha))
      · rw [elem_record, Function.update_of_ne hj] at hw
        exact h.elem j w hw

end ArrayClock

namespace Clocks

/-- Every time is zero or one at which something was used: `P a t` says that the access `a` was made
at the time `t`. -/
def From (T : Clocks ν ι) (P : Access ν ι → ℕ → Prop) : Prop :=
  ∀ n, (T.clock n).From fun a t ↦ P (n, a) t

variable {T : Clocks ν ι} {P Q : Access ν ι → ℕ → Prop} {a b : Access ν ι}
  {as : List (Access ν ι)} {t : ℕ}

theorem From.mono (h : T.From P) (hPQ : ∀ a t, P a t → Q a t) : T.From Q :=
  fun n ↦ (h n).mono fun a t ↦ hPQ (n, a) t

theorem From.lastUse (h : T.From P) (a : Access ν ι) :
    T.lastUse a = 0 ∨ ∃ b, P b (T.lastUse a) ∧ Overlap b a :=
  ((h a.1).lastUse a.2).imp_right fun ⟨b, hb, hab⟩ ↦ ⟨(a.1, b), hb, rfl, hab⟩

theorem From.latest (h : T.From P) : T.latest = 0 ∨ ∃ a, P a T.latest := by
  have hfold : ∀ (l : List ν) m, (m = 0 ∨ ∃ a, P a m) →
      l.foldl (fun m n ↦ max m (T.clock n).top) m = 0 ∨
        ∃ a, P a (l.foldl (fun m n ↦ max m (T.clock n).top) m) := by
    intro l
    induction l with
    | nil => exact fun m hm ↦ hm
    | cons n l ih =>
      refine fun m hm ↦ ih (max m (T.clock n).top) ?_
      rcases max_choice m (T.clock n).top with hmax | hmax
      · rwa [hmax]
      · rw [hmax]
        exact (h n).top.imp_right fun ⟨a, ha⟩ ↦ ⟨(n, a), ha⟩
  exact hfold T.names 0 (.inl rfl)

variable [DecidableEq ν] [DecidableEq ι]

theorem From.touch (h : T.From P) : (T.touch a).From P := by
  intro n
  by_cases hn : n = a.1
  · subst hn
    rw [clock_touch_self]
    exact (h a.1).touch
  · rw [clock_touch_of_ne hn]
    exact h n

theorem From.record (h : T.From P) (ha : P a t) : (T.record t a).From P := by
  intro n
  by_cases hn : n = a.1
  · subst hn
    rw [clock_record_self]
    exact (h a.1).record ha
  · rw [clock_record_of_ne hn]
    exact h n

theorem From.use (h : T.From P) (has : ∀ a ∈ as, P a t) : (T.use t as).From P := by
  have htouch : ∀ (as : List (Access ν ι)) (T : Clocks ν ι), T.From P →
      (as.foldl Clocks.touch T).From P := by
    intro as
    induction as with
    | nil => exact fun _ hT ↦ hT
    | cons a as ih => exact fun T hT ↦ ih _ hT.touch
  have hrecord : ∀ (as : List (Access ν ι)), (∀ a ∈ as, P a t) → ∀ T : Clocks ν ι, T.From P →
      (as.foldl (Clocks.record t) T).From P := by
    intro as
    induction as with
    | nil => exact fun _ _ hT ↦ hT
    | cons a as ih =>
      intro has T hT
      obtain ⟨ha, has⟩ := List.forall_mem_cons.mp has
      exact ih has _ (hT.record ha)
  exact hrecord as has _ (htouch as T h)

/-- The latest of the last uses of some accesses. -/
def lastUses (T : Clocks ν ι) (as : List (Access ν ι)) : ℕ :=
  as.foldl (fun m a ↦ max m (T.lastUse a)) 0

omit [DecidableEq ν] [DecidableEq ι] in
theorem lastUses_spec (T : Clocks ν ι) (as : List (Access ν ι)) :
    (∀ a ∈ as, T.lastUse a ≤ T.lastUses as) ∧
      (T.lastUses as = 0 ∨ ∃ a ∈ as, T.lastUse a = T.lastUses as) := by
  rw [lastUses]
  induction as using List.reverseRecOn with
  | nil => exact ⟨List.forall_mem_nil _, .inl rfl⟩
  | append_singleton as a ih =>
    obtain ⟨hle, hach⟩ := ih
    rw [List.foldl_append, List.foldl_cons, List.foldl_nil]
    refine ⟨List.forall_mem_append.mpr ⟨fun b hb ↦ (hle b hb).trans (le_max_left ..),
      List.forall_mem_singleton.mpr (le_max_right ..)⟩, ?_⟩
    rcases max_choice (as.foldl (fun m a ↦ max m (T.lastUse a)) 0) (T.lastUse a) with hmax | hmax
    · rw [hmax]
      exact hach.imp_right fun ⟨b, hb, heq⟩ ↦ ⟨b, List.mem_append_left _ hb, heq⟩
    · rw [hmax]
      exact .inr ⟨a, List.mem_append_right _ (List.mem_singleton_self a), rfl⟩

end Clocks

/-! ## Chains -/

/-- Some operations of a list, in their order, of which each is related to the next one. -/
structure ChainOf (r : α → α → Prop) (l c : List α) : Prop where
  sublist : c.Sublist l
  chain : c.IsChain r

/-- The length of a longest chain. -/
def IsLongest (r : α → α → Prop) (l : List α) (n : ℕ) : Prop :=
  IsGreatest {k | ∃ c, ChainOf r l c ∧ k = c.length} n

section Chain

variable {r : α → α → Prop} {l c : List α} {x y : α}

theorem chainOf_nil : ChainOf r l [] := ⟨List.nil_sublist l, .nil⟩

theorem ChainOf.mono {l' : List α} (h : ChainOf r l c) (hl : l.Sublist l') : ChainOf r l' c :=
  ⟨h.sublist.trans hl, h.chain⟩

theorem ChainOf.init (h : ChainOf r l (c ++ [x])) : ChainOf r l c :=
  ⟨(List.sublist_append_left c [x]).trans h.sublist, h.chain.left_of_append⟩

/-- A chain of a list with one operation more is one of the list or ends with the operation. -/
theorem chainOf_concat : ChainOf r (l ++ [x]) c ↔
    ChainOf r l c ∨ ∃ d, c = d ++ [x] ∧ ChainOf r l d ∧ (d ++ [x]).IsChain r := by
  constructor
  · rintro ⟨hsub, hchain⟩
    obtain ⟨d, e, rfl, hd, he⟩ := List.sublist_append_iff.mp hsub
    rcases List.sublist_singleton.mp he with rfl | rfl
    · rw [List.append_nil] at hchain ⊢
      exact .inl ⟨hd, hchain⟩
    · exact .inr ⟨d, rfl, ⟨hd, hchain.left_of_append⟩, hchain⟩
  · rintro (h | ⟨d, rfl, hd, hchain⟩)
    · exact h.mono (List.sublist_append_left l [x])
    · exact ⟨hd.sublist.append (List.Sublist.refl [x]), hchain⟩

theorem isChain_concat_concat {d : List α} :
    ((d ++ [y]) ++ [x]).IsChain r ↔ (d ++ [y]).IsChain r ∧ r y x := by
  rw [List.isChain_append]
  simp

end Chain

/-! ## Times as soon as possible -/

section Asap

variable [DecidableEq ν] [DecidableEq ι] (acc : α → List (Access ν ι))

/-- The operations use something in common. -/
def Meets (x y : α) : Prop := ∃ a ∈ acc x, ∃ b ∈ acc y, Overlap a b

/-- An operation is made at the first time after the last uses. -/
def asap (T : Clocks ν ι) (x : α) : Clocks ν ι := T.use (T.lastUses (acc x) + 1) (acc x)

/-- The record knows the chains of the operations so far: it covers each up to its length, and each
of its times is the length of one. -/
structure TracksChains (T : Clocks ν ι) (l : List α) : Prop where
  capped : T.Capped
  covers : ∀ c x, ChainOf (Meets acc) l (c ++ [x]) → ∀ b ∈ acc x, T.Covers (c.length + 1) b
  source : T.From fun b t ↦
    ∃ c x, ChainOf (Meets acc) l (c ++ [x]) ∧ c.length + 1 = t ∧ b ∈ acc x

variable {acc} {T : Clocks ν ι} {l c : List α} {x : α}

omit [DecidableEq ν] [DecidableEq ι] in
theorem tracksChains_zero (names : List ν) :
    TracksChains acc (⟨names, fun _ ↦ .zero⟩ : Clocks ν ι) [] := by
  refine ⟨fun _ ↦ ArrayClock.capped_zero, fun c x h ↦ ?_, fun _ ↦ ArrayClock.from_zero⟩
  exact absurd (List.sublist_nil.mp h.sublist) (by simp)

omit [DecidableEq ν] [DecidableEq ι] in
/-- **The last uses are the length of a longest chain that can be continued.** -/
theorem TracksChains.lastUses (h : TracksChains acc T l) (x : α) :
    IsGreatest {k | ∃ c, ChainOf (Meets acc) l c ∧ (c ++ [x]).IsChain (Meets acc) ∧ k = c.length}
      (T.lastUses (acc x)) := by
  obtain ⟨hle, hach⟩ := T.lastUses_spec (acc x)
  constructor
  · rcases hach with hzero | ⟨a, ha, heq⟩
    · exact ⟨[], chainOf_nil, List.isChain_singleton x, hzero⟩
    · rcases h.source.lastUse a with hzero | ⟨b, ⟨c, y, hc, hlen, hb⟩, hba⟩
      · exact ⟨[], chainOf_nil, List.isChain_singleton x, by rw [← heq, hzero]; rfl⟩
      · refine ⟨c ++ [y], hc, isChain_concat_concat.mpr ⟨hc.chain, b, hb, a, ha, hba⟩, ?_⟩
        rw [List.length_append, List.length_singleton, hlen, heq]
  · rintro k ⟨c, hc, hchain, rfl⟩
    rcases c.eq_nil_or_concat with rfl | ⟨d, y, rfl⟩
    · exact Nat.zero_le _
    · rw [List.concat_eq_append] at hc hchain ⊢
      obtain ⟨-, b, hb, a, ha, hba⟩ := isChain_concat_concat.mp hchain
      rw [List.length_append, List.length_singleton]
      exact ((h.covers d y hc b hb).le_lastUse h.capped hba).trans (hle a ha)

theorem TracksChains.asap (h : TracksChains acc T l) (x : α) :
    TracksChains acc (asap acc T x) (l ++ [x]) := by
  obtain ⟨hmem, hleast⟩ := h.lastUses x
  have hbefore : ∀ a ∈ acc x, T.lastUse a ≤ T.lastUses (acc x) + 1 := fun a ha ↦
    ((T.lastUses_spec (acc x)).1 a ha).trans (Nat.le_succ _)
  refine ⟨h.capped.use, fun c y hc b hb ↦ ?_, ?_⟩
  · rcases chainOf_concat.mp hc with hc | ⟨d, heq, hd, hchain⟩
    · exact (h.covers c y hc b hb).use h.capped hbefore
    · obtain ⟨rfl, hxy⟩ := List.append_inj' heq rfl
      obtain rfl := List.singleton_injective hxy
      exact (Clocks.covers_use_self h.capped hbefore hb).mono
        (Nat.succ_le_succ (hleast ⟨c, hd, hchain, rfl⟩))
  · refine (h.source.mono fun b t ⟨c, y, hc, ht⟩ ↦
      ⟨c, y, hc.mono (List.sublist_append_left l [x]), ht⟩).use fun a ha ↦ ?_
    obtain ⟨c, hc, hchain, hlen⟩ := hmem
    exact ⟨c, x, chainOf_concat.mpr (.inr ⟨c, rfl, hc, hchain⟩), by rw [← hlen], ha⟩

theorem TracksChains.foldl_asap (h : TracksChains acc T l) (l' : List α) :
    TracksChains acc (l'.foldl (Scheduling.asap acc) T) (l ++ l') := by
  induction l' generalizing T l with
  | nil => rwa [List.append_nil]
  | cons x l' ih =>
    have hnext := ih (h.asap x)
    rwa [List.append_assoc] at hnext

omit [DecidableEq ν] [DecidableEq ι] in
/-- **The latest time is the length of a longest chain**, if every operation uses something, and it
is recorded. -/
theorem TracksChains.latest (h : TracksChains acc T l)
    (hacc : ∀ x ∈ l, ∃ a ∈ acc x, a.1 ∈ T.names) : IsLongest (Meets acc) l T.latest := by
  constructor
  · rcases h.source.latest with hzero | ⟨a, c, x, hc, hlen, -⟩
    · exact ⟨[], chainOf_nil, hzero⟩
    · exact ⟨c ++ [x], hc, by rw [List.length_append, List.length_singleton, hlen]⟩
  · rintro k ⟨c, hc, rfl⟩
    rcases c.eq_nil_or_concat with rfl | ⟨d, x, rfl⟩
    · exact Nat.zero_le _
    · rw [List.concat_eq_append] at hc ⊢
      obtain ⟨a, ha, hname⟩ := hacc x
        (hc.sublist.subset (List.mem_append_right _ (List.mem_singleton_self x)))
      have hcover := h.covers d x hc a ha
      rw [List.length_append, List.length_singleton]
      calc d.length + 1 ≤ T.lastUse a := hcover.le_lastUse h.capped ⟨rfl, .inr (.inr rfl)⟩
        _ ≤ (T.clock a.1).top := (h.capped a.1).lastUse_le
        _ ≤ T.latest := Clocks.top_le_latest hname

/-! ### The time of one operation -/

variable (acc) in
/-- The time of an operation after others. -/
def asapTime (T : Clocks ν ι) (l : List α) (x : α) : ℕ :=
  (l.foldl (Scheduling.asap acc) T).lastUses (acc x) + 1

@[simp] theorem names_foldl_asap : (l.foldl (Scheduling.asap acc) T).names = T.names := by
  induction l using List.reverseRecOn with
  | nil => rfl
  | append_singleton l x ih =>
    rw [List.foldl_append, List.foldl_cons, List.foldl_nil, Scheduling.asap, Clocks.names_use, ih]

theorem append_eq_concat {l pre post : List α} {x y : α} :
    l ++ [x] = pre ++ y :: post ↔
      (∃ post', post = post' ++ [x] ∧ l = pre ++ y :: post') ∨ post = [] ∧ l = pre ∧ x = y := by
  constructor
  · intro h
    rcases post.eq_nil_or_concat with rfl | ⟨post', z, rfl⟩
    · obtain ⟨rfl, hxy⟩ := List.append_inj' h rfl
      exact .inr ⟨rfl, rfl, List.singleton_injective hxy⟩
    · rw [List.concat_eq_append] at h ⊢
      have h' : l ++ [x] = (pre ++ y :: post') ++ [z] := by rw [h]; simp
      obtain ⟨rfl, hxz⟩ := List.append_inj' h' rfl
      exact .inl ⟨post', by rw [List.singleton_injective hxz], rfl⟩
  · rintro (⟨post', rfl, rfl⟩ | ⟨rfl, rfl, rfl⟩)
    · simp
    · rfl

end Asap

end Scheduling
