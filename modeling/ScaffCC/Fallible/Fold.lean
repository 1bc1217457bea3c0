import Mathlib.Data.List.Basic

/-!
# Computations that can fail

A computation that fails stops the ones after it. Whether a loop gets through can be told from its
steps: it does exactly if each step does, when an invariant says of each step on its own whether it
does. If a loop fails there is a first step that fails, and the steps before it get through.
-/

namespace Fallible

universe u

variable {ε σ τ : Type u} {α : Type*} {r : Except ε σ} {p q : Prop} {I : σ → Prop} {J : τ → Prop}
  {e : ε}

theorem bind_eq_ok {f : σ → Except ε τ} {t : τ} :
    (r >>= f) = .ok t ↔ ∃ s, r = .ok s ∧ f s = .ok t := by
  cases r with
  | error e => simp [bind, Except.bind]
  | ok s => simp [bind, Except.bind]

theorem bind_eq_error {f : σ → Except ε τ} :
    (r >>= f) = .error e ↔ r = .error e ∨ ∃ s, r = .ok s ∧ f s = .error e := by
  cases r with
  | error e' => simp [bind, Except.bind]
  | ok s => simp [bind, Except.bind]

/-! ## When a computation gets through -/

/-- The computation gets through exactly if `p`, and its result then satisfies `I`. Otherwise it
fails with `e`. -/
structure Yields (r : Except ε σ) (p : Prop) (I : σ → Prop) (e : ε) : Prop where
  ok : p → ∃ s, r = .ok s ∧ I s
  error : ¬ p → r = .error e

theorem yields_ok {s : σ} (hp : p) (hs : I s) : Yields (.ok s : Except ε σ) p I e :=
  ⟨fun _ ↦ ⟨s, rfl, hs⟩, fun h ↦ absurd hp h⟩

theorem yields_error (hp : ¬ p) : Yields (.error e : Except ε σ) p I e :=
  ⟨fun h ↦ absurd h hp, fun _ ↦ rfl⟩

theorem Yields.congr (h : Yields r p I e) (hpq : p ↔ q) : Yields r q I e :=
  ⟨fun hq ↦ h.ok (hpq.mpr hq), fun hq ↦ h.error (mt hpq.mp hq)⟩

theorem Yields.mono {I' : σ → Prop} (h : Yields r p I e) (hI : ∀ s, I s → I' s) :
    Yields r p I' e :=
  ⟨fun hp ↦ (h.ok hp).imp fun s hs ↦ ⟨hs.1, hI s hs.2⟩, h.error⟩

theorem Yields.isOk_iff (h : Yields r p I e) : (∃ s, r = .ok s) ↔ p := by
  constructor
  · rintro ⟨s, rfl⟩
    by_contra hp
    cases h.error hp
  · intro hp
    obtain ⟨s, hs, -⟩ := h.ok hp
    exact ⟨s, hs⟩

theorem Yields.eq_of_error {e' : ε} (h : Yields r p I e) (he : r = .error e') : e' = e ∧ ¬ p := by
  have hp : ¬ p := by
    intro hp
    obtain ⟨s, hs, -⟩ := h.ok hp
    rw [he] at hs
    cases hs
  rw [h.error hp, Except.error.injEq] at he
  exact ⟨he.symm, hp⟩

theorem Yields.bind {f : σ → Except ε τ} (h : Yields r p I e)
    (hf : ∀ s, I s → Yields (f s) q J e) : Yields (r >>= f) (p ∧ q) J e := by
  constructor
  · rintro ⟨hp, hq⟩
    obtain ⟨s, rfl, hs⟩ := h.ok hp
    exact (hf s hs).ok hq
  · intro hpq
    by_cases hp : p
    · obtain ⟨s, rfl, hs⟩ := h.ok hp
      exact (hf s hs).error fun hq ↦ hpq ⟨hp, hq⟩
    · rw [h.error hp]
      rfl

/-- A computation that gets through comes after it. -/
theorem Yields.bind_ok {f : σ → Except ε τ} (h : Yields r p I e)
    (hf : ∀ s, I s → ∃ t, f s = .ok t ∧ J t) : Yields (r >>= f) p J e := by
  refine (h.bind (q := True) fun s hs ↦ ?_).congr ⟨fun h ↦ h.1, fun h ↦ ⟨h, trivial⟩⟩
  obtain ⟨t, ht, hJ⟩ := hf s hs
  rw [ht]
  exact yields_ok trivial hJ

theorem yields_foldlM {f : σ → α → Except ε σ} {p : α → Prop} {l : List α}
    (hf : ∀ s, ∀ x ∈ l, I s → Yields (f s x) (p x) I e) {s : σ} (hs : I s) :
    Yields (l.foldlM f s) (∀ x ∈ l, p x) I e := by
  induction l generalizing s with
  | nil => exact yields_ok (List.forall_mem_nil p) hs
  | cons x l ih =>
    rw [List.foldlM_cons]
    refine ((hf s x List.mem_cons_self hs).bind fun s' hs' ↦
      ih (fun s y hy ↦ hf s y (List.mem_cons_of_mem x hy)) hs').congr ?_
    rw [List.forall_mem_cons]

/-- A list of results is there exactly if each result is. -/
theorem yields_mapM {f : α → Except ε σ} {p : α → Prop} {l : List α}
    (hf : ∀ x ∈ l, Yields (f x) (p x) (fun _ ↦ True) e) :
    Yields (l.mapM f) (∀ x ∈ l, p x) (fun _ ↦ True) e := by
  induction l with
  | nil => exact yields_ok (List.forall_mem_nil p) trivial
  | cons x l ih =>
    obtain ⟨hx, hl⟩ := List.forall_mem_cons.mp hf
    rw [List.mapM_cons]
    refine (hx.bind fun y _ ↦ (ih hl).bind_ok (J := fun _ ↦ True) fun ys _ ↦
      ⟨y :: ys, rfl, trivial⟩).congr ?_
    rw [List.forall_mem_cons]

/-- A loop whose steps get through or fail with `e` does so too. -/
theorem foldlM_ok_or_error {f : σ → α → Except ε σ} {l : List α}
    (hf : ∀ s, ∀ x ∈ l, I s → (∃ s', f s x = .ok s' ∧ I s') ∨ f s x = .error e) {s : σ}
    (hs : I s) : (∃ s', l.foldlM f s = .ok s' ∧ I s') ∨ l.foldlM f s = .error e := by
  induction l generalizing s with
  | nil => exact .inl ⟨s, rfl, hs⟩
  | cons x l ih =>
    rw [List.foldlM_cons]
    rcases hf s x List.mem_cons_self hs with ⟨s', hs', hI⟩ | he
    · rw [hs']
      exact ih (fun s y hy ↦ hf s y (List.mem_cons_of_mem x hy)) hI
    · rw [he]
      exact .inr rfl

/-! ## The first step that fails -/

theorem foldlM_append_eq_ok {f : σ → α → Except ε σ} {l l' : List α} {s s' : σ} :
    (l ++ l').foldlM f s = .ok s' ↔ ∃ t, l.foldlM f s = .ok t ∧ l'.foldlM f t = .ok s' := by
  rw [List.foldlM_append, bind_eq_ok]

theorem foldlM_eq_error {f : σ → α → Except ε σ} {l : List α} {s : σ} :
    l.foldlM f s = .error e ↔
      ∃ pre x post t, l = pre ++ x :: post ∧ pre.foldlM f s = .ok t ∧ f t x = .error e := by
  induction l generalizing s with
  | nil =>
    constructor
    · intro h
      cases h
    · rintro ⟨pre, x, post, -, h, -⟩
      exact absurd h.symm (by simp)
  | cons y l ih =>
    rw [List.foldlM_cons, bind_eq_error]
    constructor
    · rintro (h | ⟨t, ht, h⟩)
      · exact ⟨[], y, l, s, rfl, rfl, h⟩
      · obtain ⟨pre, x, post, t', rfl, hpre, hx⟩ := ih.mp h
        refine ⟨y :: pre, x, post, t', rfl, ?_, hx⟩
        rw [List.foldlM_cons, bind_eq_ok]
        exact ⟨t, ht, hpre⟩
    · rintro ⟨pre, x, post, t', hl, hpre, hx⟩
      cases pre with
      | nil =>
        obtain ⟨rfl, rfl⟩ := List.cons.inj hl
        cases hpre
        exact .inl hx
      | cons z pre =>
        obtain ⟨rfl, rfl⟩ := List.cons.inj hl
        rw [List.foldlM_cons, bind_eq_ok] at hpre
        obtain ⟨t, ht, hpre⟩ := hpre
        exact .inr ⟨t, ht, ih.mpr ⟨pre, x, post, t', rfl, hpre, hx⟩⟩

/-! ## The steps of a loop -/

/-- A step of a loop: what comes before it gets through, and so does the step. -/
def IsStep (f : σ → α → Except ε σ) (s : σ) (l : List α) (t : σ) (x : α) (t' : σ) : Prop :=
  ∃ pre post, l = pre ++ x :: post ∧ pre.foldlM f s = .ok t ∧ f t x = .ok t'

theorem isStep_cons {f : σ → α → Except ε σ} {l : List α} {s s' t t' : σ} {x y : α}
    (hs : f s x = .ok s') :
    IsStep f s (x :: l) t y t' ↔ (t = s ∧ y = x ∧ t' = s') ∨ IsStep f s' l t y t' := by
  constructor
  · rintro ⟨pre, post, hl, hpre, hy⟩
    cases pre with
    | nil =>
      obtain ⟨rfl, rfl⟩ := List.cons.inj hl
      cases hpre
      exact .inl ⟨rfl, rfl, Except.ok.inj (hy.symm.trans hs)⟩
    | cons z pre =>
      obtain ⟨rfl, rfl⟩ := List.cons.inj hl
      rw [List.foldlM_cons, hs] at hpre
      exact .inr ⟨pre, post, rfl, hpre, hy⟩
  · rintro (⟨rfl, rfl, rfl⟩ | ⟨pre, post, rfl, hpre, hy⟩)
    · exact ⟨[], l, rfl, rfl, hs⟩
    · refine ⟨x :: pre, post, rfl, ?_, hy⟩
      rw [List.foldlM_cons, hs]
      exact hpre

/-- What a good step keeps and a bad one ends for good holds after the loop exactly if all its steps
are good. The invariant may speak about what is left. -/
theorem foldlM_iff_steps {f : σ → α → Except ε σ} {l : List α} {s s' : σ}
    {I : σ → List α → Prop} {P : σ → Prop} {G : σ → α → σ → Prop}
    (hI : ∀ s x l s', I s (x :: l) → f s x = .ok s' → I s' l)
    (hP : ∀ s x l s', I s (x :: l) → f s x = .ok s' → (P s' ↔ P s ∧ G s x s'))
    (hs : I s l) (h : l.foldlM f s = .ok s') :
    P s' ↔ P s ∧ ∀ t x t', IsStep f s l t x t' → G t x t' := by
  induction l generalizing s with
  | nil =>
    cases h
    refine (and_iff_left fun t x t' hstep ↦ ?_).symm
    obtain ⟨pre, post, hl, -, -⟩ := hstep
    exact absurd hl (by simp)
  | cons x l ih =>
    rw [List.foldlM_cons, bind_eq_ok] at h
    obtain ⟨s₁, hs₁, h⟩ := h
    rw [ih (hI s x l s₁ hs hs₁) h, hP s x l s₁ hs hs₁, and_assoc, and_congr_right_iff]
    intro _
    constructor
    · rintro ⟨hgood, hrest⟩ t y t' hstep
      rcases (isStep_cons hs₁).mp hstep with ⟨rfl, rfl, rfl⟩ | hstep
      · exact hgood
      · exact hrest t y t' hstep
    · exact fun hall ↦ ⟨hall s x s₁ ((isStep_cons hs₁).mpr (.inl ⟨rfl, rfl, rfl⟩)),
        fun t y t' hstep ↦ hall t y t' ((isStep_cons hs₁).mpr (.inr hstep))⟩

theorem foldlM_of_steps {f : σ → α → Except ε σ} {l : List α} {s s' : σ} {P : σ → Prop}
    {G : σ → α → Prop}
    (hP : ∀ s, ∀ x ∈ l, ∀ s', P s → f s x = .ok s' → G s x → P s') (hs : P s)
    (h : l.foldlM f s = .ok s') (hgood : ∀ t x t', IsStep f s l t x t' → G t x) : P s' := by
  induction l generalizing s with
  | nil =>
    cases h
    exact hs
  | cons x l ih =>
    rw [List.foldlM_cons, bind_eq_ok] at h
    obtain ⟨s₁, hs₁, h⟩ := h
    have hx := hgood s x s₁ ((isStep_cons hs₁).mpr (.inl ⟨rfl, rfl, rfl⟩))
    exact ih (fun s y hy ↦ hP s y (List.mem_cons_of_mem x hy))
      (hP s x List.mem_cons_self s₁ hs hs₁ hx) h
      fun t y t' hstep ↦ hgood t y t' ((isStep_cons hs₁).mpr (.inr hstep))

/-! ## A tally on the side -/

/-- A step with a tally that is kept on the side. -/
def tally (f : σ → α → Except ε σ) (note : σ → α → σ → τ → τ) (c : σ × τ) (x : α) :
    Except ε (σ × τ) :=
  (f c.1 x).map fun s' ↦ (s', note c.1 x s' c.2)

variable {f : σ → α → Except ε σ} {note : σ → α → σ → τ → τ} {l : List α} {s s' : σ} {c c' : σ × τ}

theorem tally_eq_ok {x : α} :
    tally f note c x = .ok c' ↔ f c.1 x = .ok c'.1 ∧ c'.2 = note c.1 x c'.1 c.2 := by
  obtain ⟨s', n'⟩ := c'
  rw [tally]
  cases f c.1 x with
  | error e => simp [Except.map]
  | ok t =>
    simp only [Except.map, Except.ok.injEq, Prod.mk.injEq]
    constructor
    · rintro ⟨rfl, rfl⟩
      exact ⟨rfl, rfl⟩
    · rintro ⟨rfl, rfl⟩
      exact ⟨rfl, rfl⟩

theorem foldlM_of_tally (h : l.foldlM (tally f note) c = .ok c') : l.foldlM f c.1 = .ok c'.1 := by
  induction l generalizing c with
  | nil =>
    cases h
    rfl
  | cons x l ih =>
    rw [List.foldlM_cons, bind_eq_ok] at h ⊢
    obtain ⟨c₁, hc₁, h⟩ := h
    exact ⟨c₁.1, (tally_eq_ok.mp hc₁).1, ih h⟩

theorem exists_foldlM_tally (note : σ → α → σ → τ → τ) (n : τ) (h : l.foldlM f s = .ok s') :
    ∃ n', l.foldlM (tally f note) (s, n) = .ok (s', n') := by
  induction l generalizing s n with
  | nil =>
    cases h
    exact ⟨n, rfl⟩
  | cons x l ih =>
    rw [List.foldlM_cons, bind_eq_ok] at h
    obtain ⟨s₁, hs₁, h⟩ := h
    obtain ⟨n', hn'⟩ := ih (note s x s₁ n) h
    refine ⟨n', ?_⟩
    rw [List.foldlM_cons, bind_eq_ok]
    exact ⟨(s₁, note s x s₁ n), tally_eq_ok.mpr ⟨hs₁, rfl⟩, hn'⟩

theorem tally_iff_steps {I : σ × τ → List α → Prop} {P : σ × τ → Prop} {G : σ → α → σ → Prop}
    (hI : ∀ c x l c', I c (x :: l) → tally f note c x = .ok c' → I c' l)
    (hP : ∀ c x l c', I c (x :: l) → tally f note c x = .ok c' → (P c' ↔ P c ∧ G c.1 x c'.1))
    (hc : I c l) (h : l.foldlM (tally f note) c = .ok c') :
    P c' ↔ P c ∧ ∀ t x t', IsStep f c.1 l t x t' → G t x t' := by
  rw [foldlM_iff_steps (G := fun c x c' ↦ G c.1 x c'.1) hI hP hc h, and_congr_right_iff]
  intro _
  constructor
  · rintro hall t x t' ⟨pre, post, rfl, hpre, hx⟩
    obtain ⟨m, hm⟩ := exists_foldlM_tally note c.2 hpre
    exact hall (t, m) x (t', note t x t' m) ⟨pre, post, rfl, hm, tally_eq_ok.mpr ⟨hx, rfl⟩⟩
  · rintro hall t x t' ⟨pre, post, rfl, hpre, hx⟩
    exact hall t.1 x t'.1 ⟨pre, post, rfl, foldlM_of_tally hpre, (tally_eq_ok.mp hx).1⟩

/-! ## Two computations in lockstep -/

/-- Two computations fail in the same way, or both get through with related results. -/
def Alike {ε σ τ : Type*} (R : σ → τ → Prop) (r : Except ε σ) (r' : Except ε τ) : Prop :=
  (∃ e, r = .error e ∧ r' = .error e) ∨ ∃ s t, r = .ok s ∧ r' = .ok t ∧ R s t

section Lockstep

variable {ε σ σ' τ τ' : Type u} {α : Type*} {R : σ → σ' → Prop} {Q : τ → τ' → Prop}

theorem alike_error (e : ε) : Alike R (.error e) (.error e) := .inl ⟨e, rfl, rfl⟩

theorem alike_ok {s : σ} {t : σ'} (h : R s t) : Alike R (.ok s : Except ε σ) (.ok t) :=
  .inr ⟨s, t, rfl, rfl, h⟩

/-- A computation that does not depend on the states. -/
theorem alike_self (r : Except ε σ) : Alike (· = ·) r r := by
  cases r with
  | error e => exact alike_error e
  | ok s => exact alike_ok rfl

theorem Alike.bind {r : Except ε σ} {r' : Except ε σ'} {f : σ → Except ε τ} {g : σ' → Except ε τ'}
    (h : Alike R r r') (hfg : ∀ s t, R s t → Alike Q (f s) (g t)) :
    Alike Q (r >>= f) (r' >>= g) := by
  rcases h with ⟨e, rfl, rfl⟩ | ⟨s, t, rfl, rfl, hst⟩
  · exact alike_error e
  · exact hfg s t hst

theorem Alike.foldlM {f : σ → α → Except ε σ} {g : σ' → α → Except ε σ'} {l : List α} {s : σ}
    {t : σ'} (hfg : ∀ s t, R s t → ∀ x ∈ l, Alike R (f s x) (g t x)) (h : R s t) :
    Alike R (l.foldlM f s) (l.foldlM g t) := by
  induction l generalizing s t with
  | nil => exact alike_ok h
  | cons x l ih =>
    rw [List.foldlM_cons, List.foldlM_cons]
    exact (hfg s t h x List.mem_cons_self).bind fun s' t' hst ↦
      ih (fun s t h y hy ↦ hfg s t h y (List.mem_cons_of_mem x hy)) hst

end Lockstep

end Fallible
