import Mathlib.Data.List.Basic
import Mathlib.Order.Lattice

/-!
# Last-use times

A scheduler that looks at each operation once keeps, for each resource, the time from which on the
resource is free. Resources come in arrays, and an operation uses an element or a whole array. The
record of an array has a time for the whole array, the latest of its times, and times for those
elements that were used so far. An element without a time of its own is free when the whole array
is.

An access is covered up to a time when every access that overlaps with it is told to wait at least
until then. Recording an access at a time that is not before its own last use covers it, and keeps
covered what was.
-/

namespace Scheduling

variable {ν ι : Type*}

/-- The times of an array: of the whole array, the latest one, and of elements. -/
structure ArrayClock (ι : Type*) where
  whole : ℕ
  top : ℕ
  elem : ι → Option ℕ

namespace ArrayClock

/-- Nothing was used. -/
def zero : ArrayClock ι := ⟨0, 0, fun _ ↦ none⟩

/-- The last use of an element, or of any element. -/
def lastUse (c : ArrayClock ι) : Option ι → ℕ
  | none => c.top
  | some i => (c.elem i).getD c.whole

/-- An element gets a time of its own. -/
def touch [DecidableEq ι] (c : ArrayClock ι) : Option ι → ArrayClock ι
  | none => c
  | some i => ⟨c.whole, c.top, Function.update c.elem i (some (c.lastUse (some i)))⟩

/-- All times are the same. -/
def reset (c : ArrayClock ι) (t : ℕ) : ArrayClock ι := ⟨t, t, fun i ↦ (c.elem i).map fun _ ↦ t⟩

/-- An element, or the whole array, is free from `t` on. -/
def record [DecidableEq ι] (c : ArrayClock ι) (t : ℕ) : Option ι → ArrayClock ι
  | none => c.reset t
  | some i => ⟨c.whole, max c.top t, Function.update c.elem i (some t)⟩

/-- No time is beyond the latest one. -/
structure Capped (c : ArrayClock ι) : Prop where
  whole : c.whole ≤ c.top
  elem : ∀ i w, c.elem i = some w → w ≤ c.top

/-- Whatever overlaps with the access has to wait until `t`. -/
def Covers (c : ArrayClock ι) (t : ℕ) : Option ι → Prop
  | none => t ≤ c.whole ∧ ∀ i w, c.elem i = some w → t ≤ w
  | some i => ∃ w, c.elem i = some w ∧ t ≤ w

variable {c : ArrayClock ι} {a b : Option ι} {t u : ℕ}

theorem elem_reset {i : ι} : (c.reset t).elem i = (c.elem i).map fun _ ↦ t := rfl

theorem capped_zero : (zero : ArrayClock ι).Capped :=
  ⟨le_rfl, fun _ _ h ↦ absurd h.symm (Option.some_ne_none _)⟩

theorem capped_reset : (c.reset t).Capped := by
  refine ⟨le_rfl, fun i w hw ↦ ?_⟩
  rw [elem_reset, Option.map_eq_some_iff] at hw
  obtain ⟨-, -, rfl⟩ := hw
  exact le_rfl

theorem Capped.lastUse_le (h : c.Capped) : c.lastUse a ≤ c.top := by
  cases a with
  | none => exact le_rfl
  | some i =>
    rw [lastUse]
    cases hi : c.elem i with
    | none => exact h.whole
    | some w => exact h.elem i w hi

theorem Covers.le_lastUse (h : c.Covers t a) (hc : c.Capped)
    (hab : a = none ∨ b = none ∨ a = b) : t ≤ c.lastUse b := by
  cases a with
  | none =>
    cases b with
    | none => exact h.1.trans hc.whole
    | some j =>
      rw [lastUse]
      cases hj : c.elem j with
      | none => exact h.1
      | some w => exact h.2 j w hj
  | some i =>
    obtain ⟨w, hw, htw⟩ := h
    rcases hab with hab | rfl | rfl
    · exact absurd hab (Option.some_ne_none i)
    · exact htw.trans (hc.elem i w hw)
    · rw [lastUse, hw]
      exact htw

theorem Covers.mono (h : c.Covers t a) (hut : u ≤ t) : c.Covers u a := by
  cases a with
  | none => exact ⟨hut.trans h.1, fun i w hw ↦ hut.trans (h.2 i w hw)⟩
  | some i => exact h.imp fun _ hw ↦ ⟨hw.1, hut.trans hw.2⟩

theorem Covers.reset (h : c.Covers u a) (hut : u ≤ t) : (c.reset t).Covers u a := by
  cases a with
  | none =>
    refine ⟨hut, fun i w hw ↦ ?_⟩
    rw [elem_reset, Option.map_eq_some_iff] at hw
    obtain ⟨-, -, rfl⟩ := hw
    exact hut
  | some i =>
    obtain ⟨w, hw, -⟩ := h
    exact ⟨t, by rw [elem_reset, hw, Option.map_some], hut⟩

theorem lastUse_reset_le : (c.reset t).lastUse a ≤ t := by
  cases a with
  | none => exact le_rfl
  | some i =>
    rw [lastUse, elem_reset]
    cases hi : c.elem i <;> simp [reset]

variable [DecidableEq ι]

theorem elem_touch {i : ι} :
    (c.touch (some i)).elem = Function.update c.elem i (some (c.lastUse (some i))) :=
  rfl

theorem elem_record {i : ι} : (c.record t (some i)).elem = Function.update c.elem i (some t) := rfl

@[simp] theorem top_touch : (c.touch a).top = c.top := by
  cases a <;> rfl

@[simp] theorem lastUse_touch : (c.touch a).lastUse b = c.lastUse b := by
  cases a with
  | none => rfl
  | some i =>
    cases b with
    | none => rfl
    | some j =>
      by_cases hj : j = i
      · subst hj
        simp [touch, lastUse]
      · simp [touch, lastUse, hj]

theorem Capped.touch (h : c.Capped) : (c.touch a).Capped := by
  cases a with
  | none => exact h
  | some i =>
    refine ⟨h.whole, fun j w hw ↦ ?_⟩
    have hle : (c.touch (some i)).lastUse (some j) ≤ c.top := by
      rw [lastUse_touch]
      exact h.lastUse_le
    rwa [lastUse, hw] at hle

theorem Covers.touch (h : c.Covers t b) : (c.touch a).Covers t b := by
  cases a with
  | none => exact h
  | some i =>
    cases b with
    | none =>
      refine ⟨h.1, fun j w hw ↦ ?_⟩
      by_cases hj : j = i
      · subst hj
        rw [elem_touch, Function.update_self, Option.some.injEq, lastUse] at hw
        cases hc : c.elem j with
        | none => rw [← hw, hc]; exact h.1
        | some v => rw [← hw, hc]; exact h.2 j v hc
      · rw [elem_touch, Function.update_of_ne hj] at hw
        exact h.2 j w hw
    | some j =>
      obtain ⟨w, hw, htw⟩ := h
      by_cases hj : j = i
      · subst hj
        refine ⟨w, ?_, htw⟩
        rw [elem_touch, Function.update_self, lastUse, hw, Option.getD_some]
      · exact ⟨w, by rw [elem_touch, Function.update_of_ne hj, hw], htw⟩

theorem top_record_le (h : c.top ≤ u) (htu : t ≤ u) : (c.record t a).top ≤ u := by
  cases a with
  | none => exact htu
  | some i => exact max_le h htu

theorem Capped.record (h : c.Capped) : (c.record t a).Capped := by
  cases a with
  | none => exact capped_reset
  | some i =>
    refine ⟨h.whole.trans (le_max_left ..), fun j w hw ↦ ?_⟩
    by_cases hj : j = i
    · subst hj
      rw [elem_record, Function.update_self, Option.some.injEq] at hw
      exact hw ▸ le_max_right ..
    · rw [elem_record, Function.update_of_ne hj] at hw
      exact (h.elem j w hw).trans (le_max_left ..)

theorem covers_record_self : (c.record t a).Covers t a := by
  cases a with
  | none =>
    refine ⟨le_rfl, fun i w hw ↦ ?_⟩
    rw [record, elem_reset, Option.map_eq_some_iff] at hw
    obtain ⟨-, -, rfl⟩ := hw
    exact le_rfl
  | some i => exact ⟨t, Function.update_self .., le_rfl⟩

theorem Covers.record (h : c.Covers u b) (hc : c.Capped) (ha : c.lastUse a ≤ t) :
    (c.record t a).Covers u b := by
  cases a with
  | none =>
    refine Covers.reset h (le_trans ?_ ha)
    exact h.le_lastUse hc (.inr (.inl rfl))
  | some i =>
    cases b with
    | none =>
      refine ⟨h.1, fun j w hw ↦ ?_⟩
      by_cases hj : j = i
      · subst hj
        rw [elem_record, Function.update_self, Option.some.injEq] at hw
        exact hw ▸ (h.le_lastUse hc (.inl rfl)).trans ha
      · rw [elem_record, Function.update_of_ne hj] at hw
        exact h.2 j w hw
    | some j =>
      obtain ⟨w, hw, huw⟩ := h
      by_cases hj : j = i
      · subst hj
        refine ⟨t, Function.update_self .., huw.trans ?_⟩
        rwa [lastUse, hw] at ha
      · exact ⟨w, by rw [elem_record, Function.update_of_ne hj, hw], huw⟩

theorem lastUse_record_le (hb : c.lastUse b ≤ t) : (c.record t a).lastUse b ≤ t := by
  cases a with
  | none => exact lastUse_reset_le
  | some i =>
    cases b with
    | none => exact max_le hb le_rfl
    | some j =>
      by_cases hj : j = i
      · subst hj
        simp [record, lastUse]
      · simpa [record, lastUse, hj] using hb

end ArrayClock

/-! ## Several arrays -/

/-- The times of some named arrays. -/
structure Clocks (ν ι : Type*) where
  names : List ν
  clock : ν → ArrayClock ι

/-- An access names an array, and an element of it unless it is of the whole array. -/
abbrev Access (ν ι : Type*) := ν × Option ι

/-- Two accesses that use an element in common. -/
def Overlap (a b : Access ν ι) : Prop := a.1 = b.1 ∧ (a.2 = none ∨ b.2 = none ∨ a.2 = b.2)

instance [DecidableEq ν] [DecidableEq ι] (a b : Access ν ι) : Decidable (Overlap a b) :=
  inferInstanceAs (Decidable (_ ∧ _))

theorem overlap_symm {a b : Access ν ι} (h : Overlap a b) : Overlap b a := by
  obtain ⟨hn, hi⟩ := h
  refine ⟨hn.symm, ?_⟩
  rcases hi with hi | hi | hi
  · exact .inr (.inl hi)
  · exact .inl hi
  · exact .inr (.inr hi.symm)

namespace Clocks

def lastUse (T : Clocks ν ι) (a : Access ν ι) : ℕ := (T.clock a.1).lastUse a.2

def latest (T : Clocks ν ι) : ℕ := T.names.foldl (fun m n ↦ max m (T.clock n).top) 0

/-- All times are the same. -/
def reset (T : Clocks ν ι) (t : ℕ) : Clocks ν ι := ⟨T.names, fun n ↦ (T.clock n).reset t⟩

variable [DecidableEq ν] [DecidableEq ι]

/-- What an access uses gets a time of its own. -/
def touch (T : Clocks ν ι) (a : Access ν ι) : Clocks ν ι :=
  ⟨T.names, Function.update T.clock a.1 ((T.clock a.1).touch a.2)⟩

/-- What an access uses is free from `t` on. -/
def record (t : ℕ) (T : Clocks ν ι) (a : Access ν ι) : Clocks ν ι :=
  ⟨T.names, Function.update T.clock a.1 ((T.clock a.1).record t a.2)⟩

omit [DecidableEq ν] [DecidableEq ι] in
/-- No time of an array is beyond the latest one. -/
def Capped (T : Clocks ν ι) : Prop := ∀ n, (T.clock n).Capped

/-- Whatever overlaps with the access has to wait until `t`. -/
def Covers (T : Clocks ν ι) (t : ℕ) (a : Access ν ι) : Prop := (T.clock a.1).Covers t a.2

/-- No time is beyond `t`. -/
def Within (T : Clocks ν ι) (t : ℕ) : Prop := ∀ n, (T.clock n).top ≤ t

/-- What some accesses use gets times of its own, and is then free from `t` on. -/
def use (T : Clocks ν ι) (t : ℕ) (as : List (Access ν ι)) : Clocks ν ι :=
  as.foldl (record t) (as.foldl touch T)

variable {T : Clocks ν ι} {a b : Access ν ι} {as : List (Access ν ι)} {t u : ℕ} {n : ν}

omit [DecidableEq ν] [DecidableEq ι] in
theorem Covers.le_lastUse (h : T.Covers t a) (hT : T.Capped) (hab : Overlap a b) :
    t ≤ T.lastUse b := by
  have hc := ArrayClock.Covers.le_lastUse h (hT a.1) hab.2
  rwa [hab.1] at hc

omit [DecidableEq ν] [DecidableEq ι] in
theorem Capped.lastUse_le (hT : T.Capped) (hw : T.Within t) : T.lastUse a ≤ t :=
  (hT a.1).lastUse_le.trans (hw a.1)

omit [DecidableEq ν] [DecidableEq ι] in
theorem top_le_latest (h : n ∈ T.names) : (T.clock n).top ≤ T.latest := by
  have hfold : ∀ (l : List ν) m, m ≤ l.foldl (fun m n ↦ max m (T.clock n).top) m ∧
      ∀ n ∈ l, (T.clock n).top ≤ l.foldl (fun m n ↦ max m (T.clock n).top) m := by
    intro l
    induction l with
    | nil => exact fun m ↦ ⟨le_rfl, fun n hn ↦ absurd hn (List.not_mem_nil)⟩
    | cons k l ih =>
      intro m
      refine ⟨(le_max_left ..).trans (ih _).1, fun n hn ↦ ?_⟩
      rcases List.mem_cons.mp hn with rfl | hn
      · exact (le_max_right ..).trans (ih _).1
      · exact (ih _).2 n hn
  exact (hfold T.names 0).2 n h

omit [DecidableEq ν] [DecidableEq ι] in
theorem latest_le (h : T.Within u) : T.latest ≤ u := by
  have hfold : ∀ (l : List ν) m, m ≤ u → l.foldl (fun m n ↦ max m (T.clock n).top) m ≤ u := by
    intro l
    induction l with
    | nil => exact fun m hm ↦ hm
    | cons n l ih => exact fun m hm ↦ ih _ (max_le hm (h n))
  exact hfold T.names 0 (Nat.zero_le u)

/-! ### Resets -/

omit [DecidableEq ν] [DecidableEq ι] in
theorem capped_reset : (T.reset t).Capped := fun _ ↦ ArrayClock.capped_reset

omit [DecidableEq ν] [DecidableEq ι] in
theorem within_reset : (T.reset t).Within t := fun _ ↦ le_rfl

omit [DecidableEq ν] [DecidableEq ι] in
theorem Covers.reset (h : T.Covers u a) (hut : u ≤ t) : (T.reset t).Covers u a :=
  ArrayClock.Covers.reset h hut

omit [DecidableEq ν] [DecidableEq ι] in
theorem Covers.mono (h : T.Covers t a) (hut : u ≤ t) : T.Covers u a := ArrayClock.Covers.mono h hut

/-! ### One access -/

theorem clock_touch_self : (T.touch a).clock a.1 = (T.clock a.1).touch a.2 :=
  Function.update_self ..

theorem clock_touch_of_ne (h : n ≠ a.1) : (T.touch a).clock n = T.clock n :=
  Function.update_of_ne h ..

theorem clock_record_self : (T.record t a).clock a.1 = (T.clock a.1).record t a.2 :=
  Function.update_self ..

theorem clock_record_of_ne (h : n ≠ a.1) : (T.record t a).clock n = T.clock n :=
  Function.update_of_ne h ..

@[simp] theorem lastUse_touch : (T.touch a).lastUse b = T.lastUse b := by
  by_cases h : b.1 = a.1
  · rw [lastUse, h, clock_touch_self, ArrayClock.lastUse_touch, lastUse, h]
  · rw [lastUse, clock_touch_of_ne h, lastUse]

theorem Capped.touch (hT : T.Capped) : (T.touch a).Capped := by
  intro n
  by_cases h : n = a.1
  · subst h
    rw [clock_touch_self]
    exact (hT a.1).touch
  · rw [clock_touch_of_ne h]
    exact hT n

theorem Within.touch (hT : T.Within t) : (T.touch a).Within t := by
  intro n
  by_cases h : n = a.1
  · subst h
    rw [clock_touch_self, ArrayClock.top_touch]
    exact hT a.1
  · rw [clock_touch_of_ne h]
    exact hT n

theorem Covers.touch (hT : T.Covers u b) : (T.touch a).Covers u b := by
  by_cases h : b.1 = a.1
  · rw [Covers, h, clock_touch_self]
    rw [Covers, h] at hT
    exact ArrayClock.Covers.touch hT
  · rwa [Covers, clock_touch_of_ne h]

theorem Capped.record (hT : T.Capped) : (T.record t a).Capped := by
  intro n
  by_cases h : n = a.1
  · subst h
    rw [clock_record_self]
    exact (hT a.1).record
  · rw [clock_record_of_ne h]
    exact hT n

theorem Within.record (hT : T.Within u) (htu : t ≤ u) : (T.record t a).Within u := by
  intro n
  by_cases h : n = a.1
  · subst h
    rw [clock_record_self]
    exact ArrayClock.top_record_le (hT a.1) htu
  · rw [clock_record_of_ne h]
    exact hT n

theorem covers_record_self : (T.record t a).Covers t a := by
  rw [Covers, clock_record_self]
  exact ArrayClock.covers_record_self

theorem Covers.record (hb : T.Covers u b) (hT : T.Capped) (ha : T.lastUse a ≤ t) :
    (T.record t a).Covers u b := by
  by_cases h : b.1 = a.1
  · rw [Covers, h, clock_record_self]
    rw [Covers, h] at hb
    exact ArrayClock.Covers.record hb (hT a.1) ha
  · rwa [Covers, clock_record_of_ne h]

theorem lastUse_record_le (hb : T.lastUse b ≤ t) : (T.record t a).lastUse b ≤ t := by
  by_cases h : b.1 = a.1
  · rw [lastUse, h, clock_record_self]
    rw [lastUse, h] at hb
    exact ArrayClock.lastUse_record_le hb
  · rwa [lastUse, clock_record_of_ne h]

/-! ### All accesses of an operation -/

@[simp] theorem names_foldl_touch : (as.foldl touch T).names = T.names := by
  induction as generalizing T with
  | nil => rfl
  | cons a as ih => exact ih

@[simp] theorem names_foldl_record : (as.foldl (record t) T).names = T.names := by
  induction as generalizing T with
  | nil => rfl
  | cons a as ih => exact ih

@[simp] theorem names_use : (T.use t as).names = T.names := by
  rw [use, names_foldl_record, names_foldl_touch]

theorem lastUse_foldl_touch : (as.foldl touch T).lastUse b = T.lastUse b := by
  induction as generalizing T with
  | nil => rfl
  | cons a as ih => rw [List.foldl_cons, ih, lastUse_touch]

theorem Capped.foldl_touch (hT : T.Capped) : (as.foldl Clocks.touch T).Capped := by
  induction as generalizing T with
  | nil => exact hT
  | cons a as ih => exact ih hT.touch

theorem Within.foldl_touch (hT : T.Within u) : (as.foldl Clocks.touch T).Within u := by
  induction as generalizing T with
  | nil => exact hT
  | cons a as ih => exact ih hT.touch

theorem Covers.foldl_touch (hb : T.Covers u b) : (as.foldl Clocks.touch T).Covers u b := by
  induction as generalizing T with
  | nil => exact hb
  | cons a as ih => exact ih hb.touch

theorem Capped.foldl_record (hT : T.Capped) : (as.foldl (Clocks.record t) T).Capped := by
  induction as generalizing T with
  | nil => exact hT
  | cons a as ih => exact ih hT.record

theorem Within.foldl_record (hT : T.Within u) (htu : t ≤ u) :
    (as.foldl (Clocks.record t) T).Within u := by
  induction as generalizing T with
  | nil => exact hT
  | cons a as ih => exact ih (hT.record htu)

theorem Covers.foldl_record (hb : T.Covers u b) (hT : T.Capped) (has : ∀ a ∈ as, T.lastUse a ≤ t) :
    (as.foldl (Clocks.record t) T).Covers u b := by
  induction as generalizing T with
  | nil => exact hb
  | cons a as ih =>
    obtain ⟨ha, has⟩ := List.forall_mem_cons.mp has
    exact ih (hb.record hT ha) hT.record fun a' ha' ↦ lastUse_record_le (has a' ha')

theorem Capped.use (hT : T.Capped) : (T.use t as).Capped := hT.foldl_touch.foldl_record

theorem Within.use (hT : T.Within u) (htu : t ≤ u) : (T.use t as).Within u :=
  hT.foldl_touch.foldl_record htu

theorem Covers.use (hb : T.Covers u b) (hT : T.Capped) (has : ∀ a ∈ as, T.lastUse a ≤ t) :
    (T.use t as).Covers u b :=
  hb.foldl_touch.foldl_record hT.foldl_touch fun a ha ↦ lastUse_foldl_touch.trans_le (has a ha)

theorem covers_use_self (hT : T.Capped) (has : ∀ a ∈ as, T.lastUse a ≤ t) (hb : b ∈ as) :
    (T.use t as).Covers t b := by
  have hrec : ∀ (l : List (Access ν ι)) (T : Clocks ν ι), T.Capped → (∀ a ∈ l, T.lastUse a ≤ t) →
      b ∈ l → (l.foldl (Clocks.record t) T).Covers t b := by
    intro l
    induction l with
    | nil => exact fun _ _ _ h ↦ absurd h List.not_mem_nil
    | cons a l ih =>
      intro T hT hl hbl
      obtain ⟨-, hl'⟩ := List.forall_mem_cons.mp hl
      have hle : ∀ a' ∈ l, (T.record t a).lastUse a' ≤ t :=
        fun a' ha' ↦ lastUse_record_le (hl' a' ha')
      rcases List.mem_cons.mp hbl with rfl | hbl
      · exact covers_record_self.foldl_record hT.record hle
      · exact ih _ hT.record hle hbl
  exact hrec as _ hT.foldl_touch (fun a ha ↦ lastUse_foldl_touch.trans_le (has a ha)) hb

end Clocks

end Scheduling
