import ScaffCC.InsertReverse.Script

/-!
# The calls and headers that are found

A call or a header is found where it begins a line, unless an earlier one reaches over it. What is
in the way can only be the arguments of an earlier call or the parameters of an earlier header, up
to the first closing parenthesis.
-/

namespace ScaffCC.InsertReverse

open Lexer (isSpace isWord)
open Regex

variable {text f g args args' : List Char} {i i' j j' : ℕ}

/-! ## What begins a line -/

/-- The text from `i` to `j` is a line with a call in reverse: nothing but blanks is in front of it,
and the parenthesis is directly behind the name. The arguments are up to the next closing one. -/
def CallAt (text : List Char) (i j : ℕ) (f args : List Char) : Prop :=
  ∃ pre blanks post,
    text = pre ++ (blanks ++ (_reverse_ ++ (f ++ ('(' :: (args ++ (')' :: post)))))) ∧
    i = pre.length ∧ j + post.length = text.length ∧ atLineStart pre.reverse ∧
    (∀ c ∈ blanks, isSpace c) ∧ f ≠ [] ∧ (∀ c ∈ f, isWord c) ∧ ')' ∉ args

/-- The text from `i` to `j` is a line with a header: nothing but an indentation is in front of it.
The parameters are up to the next closing parenthesis. -/
def HeaderAt (text : List Char) (i j : ℕ) (f args : List Char) : Prop :=
  ∃ pre indent gap gap' post,
    text = pre ++ (indent ++ (scaff_module ++ (gap ++ (f ++ (gap' ++
      ('(' :: (args ++ (')' :: post)))))))) ∧
    i = pre.length ∧ j + post.length = text.length ∧ atLineStart pre.reverse ∧
    (∀ c ∈ indent, isIndent c) ∧ gap ≠ [] ∧ (∀ c ∈ gap, isSpace c) ∧ f ≠ [] ∧
    (∀ c ∈ f, isWord c) ∧ (∀ c ∈ gap', isSpace c) ∧ ')' ∉ args

/-- A call begins a line, and no earlier one has it in its arguments. -/
def StandsCall (text : List Char) (i : ℕ) (f args : List Char) : Prop :=
  (∃ j, CallAt text i j f args) ∧
    ∀ i' j' g args', i' < i → CallAt text i' j' g args' → j' ≤ i

/-- A header begins a line, and no earlier one has it in its parameters. -/
def StandsHeader (text : List Char) (i : ℕ) (f args : List Char) : Prop :=
  (∃ j, HeaderAt text i j f args) ∧
    ∀ i' j' g args', i' < i → HeaderAt text i' j' g args' → j' ≤ i

/-- Between the parameters of a header and the next header is more than blanks. -/
def Apart (text : List Char) : Prop :=
  ∀ pre blanks post i f args, text = pre ++ (blanks ++ (scaff_module ++ post)) →
    HeaderAt text i pre.length f args → ∃ c ∈ blanks, ¬ isSpace c

theorem not_isSpace_of_isWord {c : Char} (h : isWord c) : ¬ isSpace c := by
  intro hspace
  simp only [isSpace, Bool.or_eq_true, beq_iff_eq] at hspace
  rcases hspace with ((((rfl | rfl) | rfl) | rfl) | rfl) | rfl <;> exact absurd h (by decide)

theorem isSpace_of_isIndent {c : Char} (h : isIndent c) : isSpace c := by
  simp only [isIndent, Bool.or_eq_true, beq_iff_eq] at h
  rcases h with ((rfl | rfl) | rfl) | rfl <;> rfl

theorem forall_mem_head?_append {p : Char → Prop} {s t : List Char} (hne : s ≠ [])
    (hs : ∀ c ∈ s, p c) : ∀ c ∈ (s ++ t).head?, p c := by
  intro c hc
  rw [List.head?_append_of_ne_nil _ hne] at hc
  exact hs c (List.mem_of_mem_head? hc)

/-! ## Calls -/

theorem reads_reverse_re {before s behind : List Char} {groups : List (List Char)} :
    Reads reverse_re before s behind groups ↔ ∃ blanks f args,
      s = blanks ++ (_reverse_ ++ (f ++ ('(' :: (args ++ [')'])))) ∧ groups = [f, args] ∧
        atLineStart before ∧ (∀ c ∈ blanks, isSpace c) ∧ f ≠ [] ∧ (∀ c ∈ f, isWord c) ∧
        ')' ∉ args := by
  have hplus : ∀ {before s behind groups}, Reads (plus isWord) before s behind groups →
      groups = [] := fun h ↦ (reads_plus.mp h).2.2
  have hstar : ∀ {before s behind groups}, Reads (.star (· != ')')) before s behind groups →
      groups = [] := And.right
  simp only [reverse_re, concat, List.foldr_cons, List.foldr_nil, reads_lineStart_seq,
    reads_notAhead_seq, reads_star_seq]
  constructor
  · rintro ⟨hline, -, blanks, s₁, rfl, hblanks, hreads₁⟩
    obtain ⟨s₂, rfl, hreads₂⟩ := reads_word_seq.mp hreads₁
    obtain ⟨f, s₃, groups₃, rfl, rfl, hf, hreads₃⟩ := (reads_group_seq hplus).mp hreads₂
    obtain ⟨s₄, rfl, hreads₄⟩ := reads_word_seq.mp hreads₃
    obtain ⟨args, s₅, groups₅, rfl, rfl, ⟨hargs, -⟩, hreads₅⟩ := (reads_group_seq hstar).mp hreads₄
    obtain ⟨s₆, rfl, rfl, rfl⟩ := reads_word_seq.mp hreads₅
    obtain ⟨hne, hword, -⟩ := reads_plus.mp hf
    exact ⟨blanks, f, args, rfl, rfl, hline, hblanks, hne, hword, fun hmem ↦
      absurd (hargs _ hmem) (by decide)⟩
  · rintro ⟨blanks, f, args, rfl, rfl, hline, hblanks, hne, hword, hargs⟩
    refine ⟨hline, ?_, blanks, _, rfl, hblanks, reads_word_seq.mpr ⟨_, rfl, ?_⟩⟩
    · rintro ⟨t, ht⟩
      cases blanks with
      | nil => exact absurd (List.cons.inj ht).1 (by decide)
      | cons c blanks =>
        obtain ⟨rfl, -⟩ := List.cons.inj ht
        exact absurd (hblanks _ List.mem_cons_self) (by decide)
    · refine (reads_group_seq hplus).mpr
        ⟨f, _, _, rfl, rfl, reads_plus.mpr ⟨hne, hword, rfl⟩, reads_word_seq.mpr ⟨_, rfl, ?_⟩⟩
      refine (reads_group_seq hstar).mpr ⟨args, _, _, rfl, rfl, ⟨fun c hc ↦ ?_, rfl⟩,
        reads_word_seq.mpr ⟨[], rfl, rfl, rfl⟩⟩
      rw [bne_iff_ne]
      rintro rfl
      exact hargs hc

theorem close_unique {s t u v : List Char} (hs : ')' ∉ s) (ht : ')' ∉ t)
    (h : s ++ ')' :: u = t ++ ')' :: v) : s = t ∧ u = v := by
  have hrun : ∀ {s : List Char}, ')' ∉ s → ∀ c ∈ s, (c != ')') = true := by
    intro s hs c hc
    rw [bne_iff_ne]
    rintro rfl
    exact hs hc
  have hhead : ∀ w : List Char, ∀ c ∈ (')' :: w).head?, ¬ (c != ')') = true := by
    rintro w c ⟨⟩
    decide
  obtain ⟨rfl, hrest⟩ := run_unique (p := (· != ')')) (hrun hs) (hrun ht) (hhead u) (hhead v) h
  exact ⟨rfl, (List.cons.inj hrest).2⟩

theorem CallAt.unique (h : CallAt text i j f args) (h' : CallAt text i j' g args') :
    f = g ∧ args = args' ∧ j = j' := by
  obtain ⟨pre, blanks, post, rfl, rfl, hj, -, hblanks, -, hf, hargs⟩ := h
  obtain ⟨pre', blanks', post', htext, hi, hj', -, hblanks', -, hg, hargs'⟩ := h'
  obtain ⟨rfl, hrest₁⟩ := List.append_inj htext hi
  have hhead : ∀ w : List Char, ∀ c ∈ (_reverse_ ++ w).head?, ¬ isSpace c := by
    rintro w c ⟨⟩
    decide
  obtain ⟨rfl, hrest₂⟩ := run_unique hblanks hblanks' (hhead _) (hhead _) hrest₁
  have hopen : ∀ w : List Char, ∀ c ∈ ('(' :: w).head?, ¬ isWord c := by
    rintro w c ⟨⟩
    decide
  obtain ⟨rfl, hrest₃⟩ := run_unique hf hg (hopen _) (hopen _) (List.append_cancel_left hrest₂)
  obtain ⟨rfl, rfl⟩ := close_unique hargs hargs' (List.cons.inj hrest₃).2
  exact ⟨rfl, rfl, by omega⟩

/-- The text from `i` to `j` has one closing parenthesis, at its end. -/
def Closes (text : List Char) (i j : ℕ) : Prop :=
  ∃ pre s post, text = pre ++ (s ++ ')' :: post) ∧ i = pre.length ∧
    j + post.length = text.length ∧ ')' ∉ s

theorem CallAt.closes (h : CallAt text i j f args) : Closes text i j := by
  obtain ⟨pre, blanks, post, rfl, rfl, hj, -, hblanks, -, hf, hargs⟩ := h
  refine ⟨pre, blanks ++ (_reverse_ ++ (f ++ ('(' :: args))), post, ?_, rfl, hj, ?_⟩
  · simp only [List.append_assoc, List.cons_append]
  · simp only [List.mem_append, List.mem_cons, not_or]
    exact ⟨fun h ↦ absurd (hblanks _ h) (by decide), by decide,
      fun h ↦ absurd (hf _ h) (by decide), by decide, hargs⟩

theorem Closes.le_length (h : Closes text i j) : i ≤ text.length := by
  obtain ⟨pre, s, post, rfl, rfl, -⟩ := h
  rw [List.length_append]
  exact Nat.le_add_right _ _

theorem end_unique {pre s post pre' s' post' : List Char} (h : text = pre ++ (s ++ ')' :: post))
    (h' : text = pre' ++ (s' ++ ')' :: post')) (hs : ')' ∉ s) (hs' : ')' ∉ s')
    (hle : pre.length ≤ pre'.length) (hlt : pre'.length + post.length < text.length) :
    post = post' := by
  obtain ⟨mid, rfl⟩ := List.prefix_of_prefix_length_le ⟨_, h.symm⟩ ⟨_, h'.symm⟩ hle
  rw [h, List.append_assoc, List.append_cancel_left_eq] at h'
  have hmid : mid.length ≤ s.length := by
    rw [h] at hlt
    simp only [List.length_append, List.length_cons] at hlt
    omega
  obtain ⟨s₂, rfl⟩ := List.prefix_of_prefix_length_le ⟨_, h'.symm⟩ ⟨_, rfl⟩ hmid
  rw [List.append_assoc, List.append_cancel_left_eq] at h'
  exact (close_unique (fun hmem ↦ hs (List.mem_append_right _ hmem)) hs' h').2

/-- **Two texts** with one closing parenthesis each end together if one begins inside the other. -/
theorem Closes.end_eq (h : Closes text i j) (h' : Closes text i' j') (hlt : i < i') (hin : i' < j) :
    j' = j := by
  obtain ⟨pre, s, post, htext, rfl, hj, hs⟩ := h
  obtain ⟨pre', s', post', htext', rfl, hj', hs'⟩ := h'
  have hpost := end_unique htext htext' hs hs' hlt.le (by omega)
  rw [hpost] at hj
  omega

theorem first_reverse_re_iff {groups : List (List Char)} (hi : i ≤ text.length) :
    first reverse_re text i = some (j, groups) ↔ ∃ f args, groups = [f, args] ∧
      CallAt text i j f args := by
  have hfound : ∀ {j groups}, first reverse_re text i = some (j, groups) →
      ∃ f args, groups = [f, args] ∧ CallAt text i j f args := by
    intro j groups h
    obtain ⟨pre, s, behind, rfl, rfl, hj, hreads⟩ := exists_of_first hi h
    obtain ⟨blanks, f, args, rfl, rfl, hline, hblanks, hne, hf, hargs⟩ := reads_reverse_re.mp hreads
    refine ⟨f, args, rfl, pre, blanks, behind, ?_, rfl, hj, hline, hblanks, hne, hf, hargs⟩
    simp only [List.append_assoc, List.cons_append, List.nil_append]
  refine ⟨hfound, ?_⟩
  rintro ⟨f, args, rfl, hcall⟩
  obtain ⟨pre, blanks, post, rfl, rfl, -, hline, hblanks, hne, hf, hargs⟩ := id hcall
  have hreads : Reads reverse_re pre.reverse _ post [f, args] :=
    reads_reverse_re.mpr ⟨blanks, f, args, rfl, rfl, hline, hblanks, hne, hf, hargs⟩
  have hsome := first_isSome hreads
  simp only [List.append_assoc, List.cons_append, List.nil_append] at hsome
  obtain ⟨⟨j', groups'⟩, hfirst⟩ := Option.isSome_iff_exists.mp hsome
  obtain ⟨f', args', rfl, hcall'⟩ := hfound hfirst
  obtain ⟨rfl, rfl, rfl⟩ := hcall.unique hcall'
  exact hfirst

theorem nested_reverse_re (text : List Char) : Nested (first reverse_re text) := by
  intro i j groups i' j' groups' k h h' _ hlt hin hk
  have hj := le_of_first h
  obtain ⟨f, args, -, hcall⟩ := (first_reverse_re_iff (by omega)).mp h
  obtain ⟨g, args', -, hcall'⟩ := (first_reverse_re_iff (by omega)).mp h'
  rwa [hcall.closes.end_eq hcall'.closes hlt hin] at hk

/-- **The calls that are found** are those that stand. -/
theorem mem_finditer_reverse_re {groups : List (List Char)} :
    (i, groups) ∈ finditer reverse_re text ↔
      ∃ f args, groups = [f, args] ∧ StandsCall text i f args := by
  rw [mem_finditer_iff (nested_reverse_re text)]
  constructor
  · rintro ⟨hi, ⟨j, hj⟩, hbefore⟩
    obtain ⟨f, args, rfl, hcall⟩ := (first_reverse_re_iff hi).mp hj
    exact ⟨f, args, rfl, ⟨j, hcall⟩, fun i' j' g args' hlt hcall' ↦
      hbefore i' j' _ (Nat.zero_le _) hlt
        ((first_reverse_re_iff (hlt.le.trans hi)).mpr ⟨g, args', rfl, hcall'⟩)⟩
  · rintro ⟨f, args, rfl, ⟨j, hcall⟩, hbefore⟩
    have hi := hcall.closes.le_length
    refine ⟨hi, ⟨j, (first_reverse_re_iff hi).mpr ⟨f, args, rfl, hcall⟩⟩,
      fun i' j' groups' _ hlt hfirst ↦ ?_⟩
    obtain ⟨g, args', -, hcall'⟩ := (first_reverse_re_iff (hlt.le.trans hi)).mp hfirst
    exact hbefore i' j' g args' hlt hcall'

/-! ## Headers -/

theorem reads_parentheses {before s behind : List Char} {groups : List (List Char)} :
    Reads (concat [.word ['('], .star (· != ')'), .word [')']]) before s behind groups ↔
      (∃ args, s = '(' :: (args ++ [')']) ∧ ')' ∉ args) ∧ groups = [] := by
  simp only [concat, List.foldr_cons, List.foldr_nil]
  constructor
  · intro h
    obtain ⟨s₁, rfl, hreads₁⟩ := reads_word_seq.mp h
    obtain ⟨args, s₂, rfl, hargs, hreads₂⟩ := reads_star_seq.mp hreads₁
    obtain ⟨s₃, rfl, rfl, rfl⟩ := reads_word_seq.mp hreads₂
    exact ⟨⟨args, rfl, fun hmem ↦ absurd (hargs _ hmem) (by decide)⟩, rfl⟩
  · rintro ⟨⟨args, rfl, hargs⟩, rfl⟩
    refine reads_word_seq.mpr ⟨_, rfl, reads_star_seq.mpr ⟨args, _, rfl, fun c hc ↦ ?_,
      reads_word_seq.mpr ⟨[], rfl, rfl, rfl⟩⟩⟩
    rw [bne_iff_ne]
    rintro rfl
    exact hargs hc

theorem reads_decls_re {before s behind : List Char} {groups : List (List Char)} :
    Reads decls_re before s behind groups ↔ ∃ indent gap f gap' args blanks tail more,
      s = indent ++ (scaff_module ++ (gap ++ (f ++ (gap' ++ ('(' :: (args ++ (')' ::
        (blanks ++ tail)))))))) ∧ groups = f :: ('(' :: (args ++ [')'])) :: more ∧
      atLineStart before ∧ (∀ c ∈ indent, isIndent c) ∧ gap ≠ [] ∧ (∀ c ∈ gap, isSpace c) ∧
      f ≠ [] ∧ (∀ c ∈ f, isWord c) ∧ (∀ c ∈ gap', isSpace c) ∧ ')' ∉ args ∧
      (∀ c ∈ blanks, isSpace c) ∧
      (tail = [] ∧ more = [] ∨ ∃ c, (c == '{' || c == ';') ∧ tail = [c] ∧ more = [tail]) := by
  -- the two inner patterns hold no group, so the groups are the outer ones
  have hplus : ∀ {before s behind groups}, Reads (plus isWord) before s behind groups →
      groups = [] := fun h ↦ (reads_plus.mp h).2.2
  have hparens : ∀ {before s behind groups},
      Reads (concat [.word ['('], .star (· != ')'), .word [')']]) before s behind groups →
        groups = [] := fun h ↦ (reads_parentheses.mp h).2
  have htail : ∀ {before s behind groups},
      Reads (.seq (.optional (.group (.char fun c ↦ c == '{' || c == ';'))) (.word [])) before s
        behind groups ↔
      (s = [] ∧ groups = [] ∨ ∃ c, (c == '{' || c == ';') ∧ s = [c] ∧ groups = [s]) := by
    intro before s behind groups
    constructor
    · rintro ⟨s₁, s₂, groups₁, groups₂, rfl, rfl, ⟨inner, ⟨c, hc, rfl, rfl⟩, rfl⟩ | ⟨rfl, rfl⟩,
        rfl, rfl⟩
      · exact .inr ⟨c, hc, rfl, rfl⟩
      · exact .inl ⟨rfl, rfl⟩
    · rintro (⟨rfl, rfl⟩ | ⟨c, hc, rfl, rfl⟩)
      · exact ⟨[], [], [], [], rfl, rfl, .inr ⟨rfl, rfl⟩, rfl, rfl⟩
      · exact ⟨[c], [], [[c]], [], rfl, rfl, .inl ⟨[], ⟨c, hc, rfl, rfl⟩, rfl⟩, rfl, rfl⟩
  constructor
  · intro h
    obtain ⟨hline, h⟩ := reads_lineStart_seq.mp h
    obtain ⟨indent, s₁, rfl, hindent, hreads₁⟩ := reads_star_seq.mp h
    obtain ⟨s₂, rfl, hreads₂⟩ := reads_word_seq.mp hreads₁
    obtain ⟨gap, s₃, rfl, hne, hgap, hreads₃⟩ := reads_plus_seq.mp hreads₂
    obtain ⟨f, s₄, groups₄, rfl, rfl, hword, hreads₄⟩ := (reads_group_seq hplus).mp hreads₃
    obtain ⟨gap', s₅, rfl, hgap', hreads₅⟩ := reads_star_seq.mp hreads₄
    obtain ⟨t, s₆, groups₆, rfl, rfl, hparen, hreads₆⟩ := (reads_group_seq hparens).mp hreads₅
    obtain ⟨blanks, tail, rfl, hblanks, hreads₇⟩ := reads_star_seq.mp hreads₆
    obtain ⟨⟨args, rfl, hargs⟩, -⟩ := reads_parentheses.mp hparen
    obtain ⟨hf, hword, -⟩ := reads_plus.mp hword
    refine ⟨indent, gap, f, gap', args, blanks, tail, groups₆, ?_, rfl, hline, hindent, hne, hgap,
      hf, hword, hgap', hargs, hblanks, htail.mp hreads₇⟩
    simp only [List.append_assoc, List.cons_append, List.nil_append]
  · rintro ⟨indent, gap, f, gap', args, blanks, tail, more, rfl, rfl, hline, hindent, hne, hgap, hf,
      hword, hgap', hargs, hblanks, hmore⟩
    refine reads_lineStart_seq.mpr ⟨hline, reads_star_seq.mpr ⟨indent, _, rfl, hindent,
      reads_word_seq.mpr ⟨_, rfl, reads_plus_seq.mpr ⟨gap, _, rfl, hne, hgap,
      (reads_group_seq hplus).mpr ⟨f, _, _, rfl, rfl, reads_plus.mpr ⟨hf, hword, rfl⟩,
      reads_star_seq.mpr ⟨gap', _, rfl, hgap', (reads_group_seq hparens).mpr
        ⟨'(' :: (args ++ [')']), blanks ++ tail, more, ?_, rfl,
          reads_parentheses.mpr ⟨⟨args, rfl, hargs⟩, rfl⟩,
          reads_star_seq.mpr ⟨blanks, tail, rfl, hblanks, htail.mpr hmore⟩⟩⟩⟩⟩⟩⟩⟩
    simp only [List.append_assoc, List.cons_append, List.nil_append]

theorem HeaderAt.unique (h : HeaderAt text i j f args) (h' : HeaderAt text i j' g args') :
    f = g ∧ args = args' ∧ j = j' := by
  obtain ⟨pre, indent, gap, gap₁, post, rfl, rfl, hj, -, hindent, -, hgap, hne, hf, hgap₁,
    hargs⟩ := h
  obtain ⟨pre', indent', gap', gap₁', post', htext, hi, hj', -, hindent', -, hgap', hne', hg,
    hgap₁', hargs'⟩ := h'
  obtain ⟨rfl, hrest₁⟩ := List.append_inj htext hi
  have hhead : ∀ w : List Char, ∀ c ∈ (scaff_module ++ w).head?, ¬ isIndent c := by
    rintro w c ⟨⟩
    decide
  obtain ⟨rfl, hrest₂⟩ := run_unique hindent hindent' (hhead _) (hhead _) hrest₁
  have hname : ∀ {f : List Char}, f ≠ [] → (∀ c ∈ f, isWord c) → ∀ w : List Char,
      ∀ c ∈ (f ++ w).head?, ¬ isSpace c := fun hne hf w ↦
    forall_mem_head?_append hne fun c hc ↦ not_isSpace_of_isWord (hf c hc)
  obtain ⟨rfl, hrest₃⟩ := run_unique hgap hgap' (hname hne hf _) (hname hne' hg _)
    (List.append_cancel_left hrest₂)
  have hopen : ∀ w : List Char, ∀ c ∈ ('(' :: w).head?, ¬ isSpace c := by
    rintro w c ⟨⟩
    decide
  have hend : ∀ {gap w : List Char}, (∀ c ∈ gap, isSpace c) →
      ∀ c ∈ (gap ++ '(' :: w).head?, ¬ isWord c := by
    intro gap w hgap c hc hcword
    cases gap with
    | nil =>
      obtain rfl := Option.some.inj hc
      exact absurd hcword (by decide)
    | cons d gap =>
      obtain rfl := Option.some.inj hc
      exact not_isSpace_of_isWord hcword (hgap _ List.mem_cons_self)
  obtain ⟨rfl, hrest₄⟩ := run_unique hf hg (hend hgap₁) (hend hgap₁') hrest₃
  obtain ⟨rfl, hrest₅⟩ := run_unique hgap₁ hgap₁' (hopen _) (hopen _) hrest₄
  obtain ⟨rfl, rfl⟩ := close_unique hargs hargs' (List.cons.inj hrest₅).2
  exact ⟨rfl, rfl, by omega⟩

theorem HeaderAt.closes (h : HeaderAt text i j f args) : Closes text i j := by
  obtain ⟨pre, indent, gap, gap', post, rfl, rfl, hj, -, hindent, -, hgap, -, hf, hgap', hargs⟩ := h
  refine ⟨pre, indent ++ (scaff_module ++ (gap ++ (f ++ (gap' ++ ('(' :: args))))), post, ?_, rfl,
    hj, ?_⟩
  · simp only [List.append_assoc, List.cons_append]
  · simp only [List.mem_append, List.mem_cons, not_or]
    exact ⟨fun h ↦ absurd (hindent _ h) (by decide), by decide,
      fun h ↦ absurd (hgap _ h) (by decide), fun h ↦ absurd (hf _ h) (by decide),
      fun h ↦ absurd (hgap' _ h) (by decide), by decide, hargs⟩

def IsHeader (groups : List (List Char)) (f args : List Char) : Prop :=
  ∃ more, groups = f :: ('(' :: (args ++ [')'])) :: more

/-- What is read behind the parameters of a header is blanks and one character at most. -/
theorem exists_of_first_decls_re {groups : List (List Char)} (hi : i ≤ text.length)
    (h : first decls_re text i = some (j, groups)) :
    ∃ f args pre blanks tail post, IsHeader groups f args ∧ HeaderAt text i pre.length f args ∧
      text = pre ++ (blanks ++ (tail ++ post)) ∧ j = pre.length + (blanks.length + tail.length) ∧
      (∀ c ∈ blanks, isSpace c) ∧ tail.length ≤ 1 := by
  obtain ⟨pre, s, behind, rfl, rfl, hj, hreads⟩ := exists_of_first hi h
  obtain ⟨indent, gap, f, gap', args, blanks, tail, more, rfl, rfl, hline, hindent, hne, hgap, hf,
    hword, hgap', hargs, hblanks, htail⟩ := reads_decls_re.mp hreads
  have hone : tail.length ≤ 1 := by
    rcases htail with ⟨rfl, -⟩ | ⟨c, -, rfl, -⟩
    · exact Nat.zero_le _
    · exact le_rfl
  let core := indent ++ (scaff_module ++ (gap ++ (f ++ (gap' ++ ('(' :: (args ++ [')']))))))
  refine ⟨f, args, pre ++ core, blanks, tail, behind, ⟨more, rfl⟩, ⟨pre, indent, gap, gap',
    blanks ++ (tail ++ behind), ?_, rfl, ?_, hline, hindent, hne, hgap, hf, hword, hgap', hargs⟩,
    ?_, ?_, hblanks, hone⟩
  · simp only [List.append_assoc, List.cons_append]
  · simp only [core, List.length_append, List.length_cons, List.length_nil]
    omega
  · simp only [core, List.append_assoc, List.cons_append, List.nil_append]
  · simp only [core, List.length_append, List.length_cons, List.length_nil] at hj ⊢
    omega

theorem exists_first_decls_re (h : HeaderAt text i j f args) :
    ∃ e groups, first decls_re text i = some (e, groups) ∧ IsHeader groups f args := by
  have hi := h.closes.le_length
  obtain ⟨pre, indent, gap, gap', post, rfl, rfl, -, hline, hindent, hne, hgap, hf, hword, hgap',
    hargs⟩ := id h
  have hreads : Reads decls_re pre.reverse _ post [f, '(' :: (args ++ [')'])] :=
    reads_decls_re.mpr ⟨indent, gap, f, gap', args, [], [], [], rfl, rfl, hline, hindent, hne, hgap,
      hf, hword, hgap', hargs, List.forall_mem_nil _, .inl ⟨rfl, rfl⟩⟩
  have hsome := first_isSome hreads
  simp only [List.append_assoc, List.cons_append, List.nil_append] at hsome
  obtain ⟨⟨e, groups⟩, hfirst⟩ := Option.isSome_iff_exists.mp hsome
  obtain ⟨f', args', pre', blanks, tail, post', hgroups, hheader, -⟩ :=
    exists_of_first_decls_re hi hfirst
  obtain ⟨rfl, rfl, -⟩ := h.unique hheader
  exact ⟨e, groups, hfirst, hgroups⟩

theorem Apart.le_of_header (h : Apart text) {pre blanks tail post : List Char}
    (hheader : HeaderAt text i pre.length f args) (htext : text = pre ++ (blanks ++ (tail ++ post)))
    (hblanks : ∀ c ∈ blanks, isSpace c) (htail : tail.length ≤ 1) {k j' : ℕ}
    (hk : HeaderAt text k j' g args') (hle : pre.length ≤ k) :
    pre.length + (blanks.length + tail.length) ≤ k := by
  by_contra hlt
  obtain ⟨pre', indent, gap, gap', post', htext', rfl, -, -, hindent, -⟩ := hk
  obtain ⟨mid, rfl⟩ := List.prefix_of_prefix_length_le ⟨_, htext.symm⟩ ⟨_, htext'.symm⟩ hle
  rw [List.length_append] at hlt
  have hrest := List.append_cancel_left (htext.symm.trans (htext'.trans (List.append_assoc _ _ _)))
  obtain ⟨blanks', rfl⟩ := List.prefix_of_prefix_length_le ⟨_, hrest.symm⟩
    ⟨_, rfl⟩ (by omega : mid.length ≤ blanks.length)
  rw [List.append_assoc, ← List.append_assoc mid] at htext'
  obtain ⟨c, hc, hspace⟩ := h pre (mid ++ indent) _ i f args htext' hheader
  rcases List.mem_append.mp hc with hc | hc
  · exact hspace (hblanks c (List.mem_append_left _ hc))
  · exact hspace (isSpace_of_isIndent (hindent c hc))

theorem Apart.nested_decls_re (h : Apart text) : Nested (first decls_re text) := by
  intro i e groups i' e' groups' k hfirst hfirst' hk hlt hin hke
  have hle := le_of_first hfirst
  have hle' := le_of_first hfirst'
  obtain ⟨f, args, pre, blanks, tail, post, -, hheader, htext, rfl, hblanks, htail⟩ :=
    exists_of_first_decls_re (by omega) hfirst
  obtain ⟨g, args', pre', blanks', tail', post', -, hheader', htext', rfl, hblanks', htail'⟩ :=
    exists_of_first_decls_re (by omega) hfirst'
  obtain ⟨⟨e'', groups''⟩, hfirst''⟩ := Option.isSome_iff_exists.mp hk
  obtain ⟨f'', args'', pre'', -, -, -, -, hheader'', -⟩ :=
    exists_of_first_decls_re (by omega) hfirst''
  have hsame : pre'.length = pre.length := by
    refine hheader.closes.end_eq hheader'.closes hlt ?_
    by_contra hout
    exact hin.not_ge (h.le_of_header hheader htext hblanks htail hheader' (not_lt.mp hout))
  have hbefore : k < pre'.length := by
    by_contra hout
    exact hke.not_ge (h.le_of_header hheader' htext' hblanks' htail' hheader'' (not_lt.mp hout))
  omega

/-- **The headers that are found** stand. -/
theorem Apart.standsHeader_of_mem (h : Apart text) {groups : List (List Char)}
    (hmem : (i, groups) ∈ finditer decls_re text) :
    ∃ f args, IsHeader groups f args ∧ StandsHeader text i f args := by
  obtain ⟨hi, ⟨e, hfirst⟩, hbefore⟩ := (mem_finditer_iff h.nested_decls_re).mp hmem
  obtain ⟨f, args, pre, -, -, -, hgroups, hheader, -⟩ := exists_of_first_decls_re hi hfirst
  refine ⟨f, args, hgroups, ⟨_, hheader⟩, fun i' j' g args' hlt hheader' ↦ ?_⟩
  obtain ⟨e', groups', hfirst', -⟩ := exists_first_decls_re hheader'
  obtain ⟨g', args₁, pre', blanks, tail, post, -, hheader₁, -, rfl, -⟩ :=
    exists_of_first_decls_re hheader'.closes.le_length hfirst'
  obtain ⟨-, -, rfl⟩ := hheader'.unique hheader₁
  exact (Nat.le_add_right _ _).trans (hbefore _ _ _ (Nat.zero_le _) hlt hfirst')

/-- **The headers that stand** are found. -/
theorem Apart.mem_of_standsHeader (h : Apart text) (hstands : StandsHeader text i f args) :
    ∃ groups, (i, groups) ∈ finditer decls_re text ∧ IsHeader groups f args := by
  obtain ⟨⟨j, hheader⟩, hbefore⟩ := hstands
  obtain ⟨e, groups, hfirst, hgroups⟩ := exists_first_decls_re hheader
  have hi := hheader.closes.le_length
  refine ⟨groups, (mem_finditer_iff h.nested_decls_re).mpr ⟨hi, ⟨e, hfirst⟩,
    fun i' e' groups' _ hlt hfirst' ↦ ?_⟩, hgroups⟩
  obtain ⟨g, args', pre, blanks, tail, post, -, hheader', htext, rfl, hblanks, htail⟩ :=
    exists_of_first_decls_re (hlt.le.trans hi) hfirst'
  exact h.le_of_header hheader' htext hblanks htail hheader (hbefore _ _ _ _ hlt hheader')

/-! ## What the tables hold -/

def LastCall (text f args : List Char) : Prop :=
  ∃ i, StandsCall text i f args ∧ ∀ i' args', StandsCall text i' f args' → i' ≤ i

def LastHeader (text f args : List Char) : Prop :=
  ∃ i, StandsHeader text i f args ∧ ∀ i' args', StandsHeader text i' f args' → i' ≤ i

theorem mem_needed_reverse_iff : f ∈ needed_reverse text ↔ ∃ i args, StandsCall text i f args := by
  rw [needed_reverse, List.mem_dedup, List.mem_map]
  constructor
  · rintro ⟨groups, hmem, rfl⟩
    obtain ⟨⟨i, groups'⟩, hiter, rfl⟩ := List.mem_map.mp hmem
    obtain ⟨f, args, rfl, hstands⟩ := mem_finditer_reverse_re.mp hiter
    exact ⟨i, args, hstands⟩
  · rintro ⟨i, args, hstands⟩
    exact ⟨[f, args], List.mem_map_of_mem (f := Prod.snd)
      (mem_finditer_reverse_re.mpr ⟨f, args, rfl, hstands⟩), rfl⟩

theorem call_signatures_eq_some_iff :
    call_signatures text f = some args ↔ LastCall text f args := by
  rw [call_signatures, findall, table_eq_some_iff pairwise_finditer]
  constructor
  · rintro ⟨i, groups, hmem, hkey, hval, hlast⟩
    obtain ⟨f', args', rfl, hstands⟩ := mem_finditer_reverse_re.mp hmem
    obtain rfl : f' = f := hkey
    obtain rfl : args' = args := hval
    exact ⟨i, hstands, fun i' args' hstands' ↦
      hlast i' _ (mem_finditer_reverse_re.mpr ⟨_, args', rfl, hstands'⟩) rfl⟩
  · rintro ⟨i, hstands, hlast⟩
    refine ⟨i, [f, args], mem_finditer_reverse_re.mpr ⟨f, args, rfl, hstands⟩, rfl, rfl,
      fun i' groups hmem hkey ↦ ?_⟩
    obtain ⟨f', args', rfl, hstands'⟩ := mem_finditer_reverse_re.mp hmem
    obtain rfl : f' = f := hkey
    exact hlast i' args' hstands'

theorem exists_lastCall (hstands : StandsCall text i f args) : ∃ args', LastCall text f args' := by
  have hsome : call_signatures text f ≠ none := by
    rw [call_signatures, Ne, table_eq_none_iff]
    intro hnone
    have hmem := mem_finditer_reverse_re.mpr ⟨f, args, rfl, hstands⟩
    exact hnone _ (List.mem_map_of_mem (f := Prod.snd) hmem) rfl
  obtain ⟨args', hargs'⟩ := Option.ne_none_iff_exists'.mp hsome
  exact ⟨args', call_signatures_eq_some_iff.mp hargs'⟩

theorem Apart.module_signatures_eq_none_iff (h : Apart text) :
    module_signatures text f = none ↔ ∀ i args, ¬ StandsHeader text i f args := by
  rw [module_signatures, findall, table_eq_none_iff]
  constructor
  · intro hnone i args hstands
    obtain ⟨groups, hmem, more, rfl⟩ := h.mem_of_standsHeader hstands
    exact hnone _ (List.mem_map_of_mem (f := Prod.snd) hmem) rfl
  · intro hnone groups hmem hkey
    obtain ⟨⟨i, groups'⟩, hiter, rfl⟩ := List.mem_map.mp hmem
    obtain ⟨f', args, ⟨more, rfl⟩, hstands⟩ := h.standsHeader_of_mem hiter
    obtain rfl : f' = f := hkey
    exact hnone i args hstands

theorem Apart.module_signatures_eq_some (h : Apart text) (hlast : LastHeader text f args) :
    module_signatures text f = some ('(' :: (args ++ [')'])) := by
  obtain ⟨i, hstands, hlast⟩ := hlast
  obtain ⟨groups, hmem, more, rfl⟩ := h.mem_of_standsHeader hstands
  rw [module_signatures, findall, table_eq_some_iff pairwise_finditer]
  refine ⟨i, _, hmem, rfl, rfl, fun i' groups hmem' hkey ↦ ?_⟩
  obtain ⟨f', args', ⟨more', rfl⟩, hstands'⟩ := h.standsHeader_of_mem hmem'
  obtain rfl : f' = f := hkey
  exact hlast i' args' hstands'

theorem Apart.exists_lastHeader (h : Apart text) (hstands : StandsHeader text i f args) :
    ∃ args', LastHeader text f args' := by
  have hsome : module_signatures text f ≠ none := fun hnone ↦
    h.module_signatures_eq_none_iff.mp hnone i args hstands
  obtain ⟨params, hparams⟩ := Option.ne_none_iff_exists'.mp hsome
  rw [module_signatures, findall, table_eq_some_iff pairwise_finditer] at hparams
  obtain ⟨k, groups, hmem, hkey, -, hlast⟩ := hparams
  obtain ⟨f', args', ⟨more, rfl⟩, hstands'⟩ := h.standsHeader_of_mem hmem
  obtain rfl : f' = f := hkey
  refine ⟨args', k, hstands', fun i' args'' hstands'' ↦ ?_⟩
  obtain ⟨groups, hmem', more', rfl⟩ := h.mem_of_standsHeader hstands''
  exact hlast i' _ hmem' rfl

end ScaffCC.InsertReverse
