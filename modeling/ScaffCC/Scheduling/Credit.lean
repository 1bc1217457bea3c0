import Mathlib.Data.Int.Order.Basic
import Mathlib.Data.List.Chain
import Mathlib.Order.Bounds.Basic
import Mathlib.Order.MinMax

/-!
# Paths with a credit

A path goes through operations that are admitted, each of them related to the next one. Operations
are numbered, and related ones are in order. The credit of a path is its length if each operation
counts one, but the first one may count more or less.

The greatest credit of a path to an operation is found from those of the operations before it, and
the path from where the credit comes from.
-/

namespace Scheduling

variable {r : ℕ → ℕ → Prop} {ok : ℕ → Prop} {start : ℕ → ℤ} {c d : List ℕ} {k x y : ℕ} {v w : ℤ}

/-! ## Paths -/

/-- A path through operations that are admitted. -/
structure PathOf (r : ℕ → ℕ → Prop) (ok : ℕ → Prop) (c : List ℕ) : Prop where
  ok : ∀ x ∈ c, ok x
  chain : c.IsChain r

theorem pathOf_singleton : PathOf r ok [x] ↔ ok x :=
  ⟨fun h ↦ h.ok x (List.mem_singleton_self x),
    fun h ↦ ⟨List.forall_mem_singleton.mpr h, List.isChain_singleton x⟩⟩

theorem pathOf_concat :
    PathOf r ok ((d ++ [y]) ++ [x]) ↔ PathOf r ok (d ++ [y]) ∧ r y x ∧ ok x := by
  constructor
  · rintro ⟨hok, hchain⟩
    obtain ⟨hd, hx⟩ := List.forall_mem_append.mp hok
    rw [List.isChain_append] at hchain
    exact ⟨⟨hd, hchain.1⟩, hchain.2.2 y (by simp) x (by simp), List.forall_mem_singleton.mp hx⟩
  · rintro ⟨⟨hok, hchain⟩, hr, hx⟩
    refine ⟨List.forall_mem_append.mpr ⟨hok, List.forall_mem_singleton.mpr hx⟩, ?_⟩
    rw [List.isChain_append]
    refine ⟨hchain, List.isChain_singleton x, ?_⟩
    simpa using hr

theorem PathOf.lt (hlt : ∀ a b, r a b → a < b) (h : PathOf r ok (c ++ [x])) : ∀ y ∈ c, y < x := by
  have hpair : (c ++ [x]).Pairwise (· < ·) := (h.chain.imp hlt).pairwise
  exact fun y hy ↦ (List.pairwise_append.mp hpair).2.2 y hy x (List.mem_singleton_self x)

/-! ## Credit -/

/-- The credit of a path: the first operation has one of its own, and the others count one. -/
def credit (start : ℕ → ℤ) : List ℕ → ℤ
  | [] => 0
  | x :: c => start x + c.length

theorem credit_concat (hc : c ≠ []) : credit start (c ++ [x]) = credit start c + 1 := by
  cases c with
  | nil => exact absurd rfl hc
  | cons y c =>
    rw [List.cons_append, credit, credit, List.length_append, List.length_singleton]
    push_cast
    omega

theorem credit_concat_concat : credit start ((d ++ [y]) ++ [x]) = credit start (d ++ [y]) + 1 :=
  credit_concat (by simp)

/-- The greatest credit of a path to an operation, whose other operations come before `k`. -/
def Best (r : ℕ → ℕ → Prop) (ok : ℕ → Prop) (start : ℕ → ℤ) (k x : ℕ) (w : ℤ) : Prop :=
  IsGreatest {w | ∃ c, PathOf r ok (c ++ [x]) ∧ (∀ y ∈ c, y < k) ∧ w = credit start (c ++ [x])} w

theorem best_zero (hx : ok x) : Best r ok start 0 x (start x) := by
  constructor
  · exact ⟨[], pathOf_singleton.mpr hx, List.forall_mem_nil _, by simp [credit]⟩
  · rintro w ⟨c, -, hc, rfl⟩
    cases c with
    | nil => simp [credit]
    | cons y c => exact absurd (hc y List.mem_cons_self) (Nat.not_lt_zero y)

/-- An operation that no path can have before `x` changes nothing. -/
theorem Best.skip (hlt : ∀ a b, r a b → a < b) (h : Best r ok start k x w)
    (hk : ¬ (ok k ∧ r k x)) : Best r ok start (k + 1) x w := by
  obtain ⟨⟨c, hpath, hc, hw⟩, hle⟩ := h
  refine ⟨⟨c, hpath, fun y hy ↦ (hc y hy).trans (Nat.lt_succ_self k), hw⟩, ?_⟩
  rintro w ⟨c, hpath, hc, rfl⟩
  refine hle ⟨c, hpath, fun y hy ↦ ?_, rfl⟩
  refine lt_of_le_of_ne (Nat.le_of_lt_succ (hc y hy)) ?_
  rintro rfl
  -- `y` would be the last one before `x`
  rcases c.eq_nil_or_concat with rfl | ⟨d, z, rfl⟩
  · exact absurd hy List.not_mem_nil
  · rw [List.concat_eq_append] at hpath hc hy
    obtain ⟨hd, hr, -⟩ := pathOf_concat.mp hpath
    have hz : z ≤ y := Nat.le_of_lt_succ (hc z (by simp))
    rcases List.mem_append.mp hy with hy | hy
    · exact absurd (hd.lt hlt y hy) (Nat.not_lt.mpr hz)
    · obtain rfl := List.mem_singleton.mp hy
      exact hk ⟨hd.ok y (by simp), hr⟩

theorem Best.relax (hlt : ∀ a b, r a b → a < b) (hk : Best r ok start k k v)
    (hx : Best r ok start k x w) (hr : r k x) : Best r ok start (k + 1) x (max w (v + 1)) := by
  obtain ⟨⟨d, hd, hdk, rfl⟩, hkle⟩ := hk
  obtain ⟨⟨c, hc, hck, rfl⟩, hxle⟩ := hx
  constructor
  · rcases max_choice (credit start (c ++ [x])) (credit start (d ++ [k]) + 1) with hmax | hmax
    · exact ⟨c, hc, fun y hy ↦ (hck y hy).trans (Nat.lt_succ_self k), hmax⟩
    · refine ⟨d ++ [k], pathOf_concat.mpr ⟨hd, hr, hc.ok x (by simp)⟩, ?_, ?_⟩
      · refine List.forall_mem_append.mpr ⟨fun y hy ↦ (hdk y hy).trans (Nat.lt_succ_self k), ?_⟩
        exact List.forall_mem_singleton.mpr (Nat.lt_succ_self k)
      · rw [hmax, credit_concat_concat]
  · rintro w ⟨e, he, hek, rfl⟩
    by_cases hmem : k ∈ e
    · rcases e.eq_nil_or_concat with rfl | ⟨f, z, rfl⟩
      · exact absurd hmem List.not_mem_nil
      · rw [List.concat_eq_append] at he hek hmem ⊢
        obtain ⟨hf, -, -⟩ := pathOf_concat.mp he
        have hz : z ≤ k := Nat.le_of_lt_succ (hek z (by simp))
        have hzk : z = k := by
          rcases List.mem_append.mp hmem with hk | hk
          · exact absurd (hf.lt hlt k hk) (Nat.not_lt.mpr hz)
          · exact (List.mem_singleton.mp hk).symm
        subst hzk
        rw [credit_concat_concat]
        have := hkle ⟨f, hf, hf.lt hlt, rfl⟩
        omega
    · refine (hxle ⟨e, he, fun y hy ↦ ?_, rfl⟩).trans (le_max_left ..)
      exact lt_of_le_of_ne (Nat.le_of_lt_succ (hek y hy)) fun h ↦ hmem (h ▸ hy)

theorem Best.mono (hlt : ∀ a b, r a b → a < b) (h : Best r ok start k x w) (hxk : x ≤ k) :
    Best r ok start x x w := by
  obtain ⟨⟨c, hpath, -, hw⟩, hle⟩ := h
  refine ⟨⟨c, hpath, hpath.lt hlt, hw⟩, ?_⟩
  rintro w ⟨c, hpath, hc, rfl⟩
  exact hle ⟨c, hpath, fun y hy ↦ (hc y hy).trans_le hxk, rfl⟩

theorem Best.credit_le (hlt : ∀ a b, r a b → a < b) (h : Best r ok start x x w)
    (hpath : PathOf r ok (c ++ [x])) : credit start (c ++ [x]) ≤ w :=
  h.2 ⟨c, hpath, hpath.lt hlt, rfl⟩

/-- The greatest credit is that of the operation alone, or comes from one before it. -/
theorem Best.source (hlt : ∀ a b, r a b → a < b) (h : Best r ok start x x w) :
    w = start x ∨ ∃ y, r y x ∧ ok y ∧ Best r ok start y y (w - 1) := by
  obtain ⟨⟨c, hpath, -, rfl⟩, hle⟩ := h
  rcases c.eq_nil_or_concat with rfl | ⟨d, y, rfl⟩
  · exact .inl (by simp [credit])
  · rw [List.concat_eq_append] at hpath hle ⊢
    obtain ⟨hd, hr, hx⟩ := pathOf_concat.mp hpath
    refine .inr ⟨y, hr, hd.ok y (by simp), ?_⟩
    rw [credit_concat_concat, Int.add_sub_cancel]
    refine ⟨⟨d, hd, hd.lt hlt, rfl⟩, ?_⟩
    rintro w ⟨e, he, -, rfl⟩
    have hex := pathOf_concat.mpr ⟨he, hr, hx⟩
    have := hle ⟨e ++ [y], hex, hex.lt hlt, rfl⟩
    rw [credit_concat_concat, credit_concat_concat] at this
    omega

end Scheduling
