import ScaffCC.Optimize.ReadBack

/-!
# Flattened arrays

The names of the elements of an array and the index of an element are computed by two formulas. For
the number of names the product so far is squared at every dimension, and in the index each position
is only weighted with the size of the next dimension. They are right together when all sizes but the
last are one. Otherwise a second size may be larger than one only right after the first one, and
then the numbers must agree by an overflow.
-/

namespace ScaffCC.Optimize

open OpenQasm (Word)

/-! ## The index -/

theorem flatIndex_cons_cons (d e i j : ℕ) (ds is : List ℕ) :
    flatIndex (d :: e :: ds) (i :: j :: is) = i * e + flatIndex (e :: ds) (j :: is) := by
  rw [flatIndex, flatIndex, List.length_cons, List.length_cons, Nat.add_sub_cancel,
    Nat.add_sub_cancel, List.range_succ_eq_map, List.map_cons, List.sum_cons, List.map_map]
  exact Nat.add_assoc ..

theorem flatIndex_singleton (d i : ℕ) : flatIndex [d] [i] = i := Nat.zero_add i

private theorem getD_zeros (n i : ℕ) : (List.replicate n 0).getD i 0 = 0 := by
  rw [List.getD_eq_getElem?_getD, List.getElem?_replicate]
  split <;> rfl

theorem flatIndex_zeros (ds : List ℕ) (n : ℕ) : flatIndex ds (List.replicate n 0) = 0 := by
  rw [flatIndex, Nat.add_eq_zero_iff]
  constructor
  · refine List.sum_eq_zero fun x hx ↦ ?_
    obtain ⟨m, -, rfl⟩ := List.mem_map.mp hx
    rw [getD_zeros, Nat.zero_mul]
  · exact getD_zeros _ _

/-- Behind the first two dimensions there are only single positions. -/
theorem flatIndex_pair (d e i j b : ℕ) :
    flatIndex (d :: e :: List.replicate b 1) (i :: j :: List.replicate b 0) = i * e + j := by
  rw [flatIndex_cons_cons]
  cases b with
  | zero => rw [List.replicate_zero, List.replicate_zero, flatIndex_singleton]
  | succ b =>
    rw [List.replicate_succ, List.replicate_succ, flatIndex_cons_cons, ← List.replicate_succ,
      ← List.replicate_succ, flatIndex_zeros, Nat.mul_one, Nat.add_zero]

/-! ## In range -/

/-- The positions are in the range of the sizes. -/
def InRange (dims index : List ℕ) : Prop := List.Forall₂ (· < ·) index dims

theorem InRange.pos {ds is : List ℕ} (h : InRange ds is) : ∀ d ∈ ds, 0 < d := by
  induction h with
  | nil => exact fun _ hd ↦ absurd hd List.not_mem_nil
  | cons hi _ ih => exact List.forall_mem_cons.mpr ⟨Nat.zero_lt_of_lt hi, ih⟩

theorem inRange_zeros {ds : List ℕ} (h : ∀ d ∈ ds, 1 ≤ d) :
    InRange ds (List.replicate ds.length 0) := by
  induction ds with
  | nil => exact .nil
  | cons d ds ih =>
    obtain ⟨hd, hds⟩ := List.forall_mem_cons.mp h
    exact .cons hd (ih hds)

theorem inRange_ones {n : ℕ} {is : List ℕ} (h : InRange (List.replicate n 1) is) :
    is = List.replicate n 0 := by
  induction n generalizing is with
  | zero => exact List.forall₂_nil_right_iff.mp h
  | succ n ih =>
    obtain ⟨i, is, hi, his, rfl⟩ := List.forall₂_cons_right_iff.mp h
    rw [ih his, Nat.lt_one_iff.mp hi]
    rfl

/-- The formula of the index tells the elements apart. -/
def Injective (dims : List ℕ) : Prop :=
  ∀ is js, InRange dims is → InRange dims js → flatIndex dims is = flatIndex dims js → is = js

theorem Injective.tail {d : ℕ} {ds : List ℕ} (hd : 1 ≤ d) (h : Injective (d :: ds)) :
    Injective ds := by
  intro is js his hjs heq
  cases his with
  | nil => exact (List.forall₂_nil_right_iff.mp hjs).symm
  | @cons i e is ds hi his =>
    obtain ⟨j, js, hj, hjs', rfl⟩ := List.forall₂_cons_right_iff.mp hjs
    have hlift := h (0 :: i :: is) (0 :: j :: js) (.cons hd (.cons hi his))
      (.cons hd (.cons hj hjs'))
      (by rw [flatIndex_cons_cons, flatIndex_cons_cons, heq])
    exact (List.cons.inj hlift).2

/-- Where some size is larger than one, some element has the index one. -/
theorem exists_flatIndex_eq_one {ds : List ℕ} (hpos : ∀ d ∈ ds, 1 ≤ d) (h : ∃ d ∈ ds, 2 ≤ d) :
    ∃ is, InRange ds is ∧ flatIndex ds is = 1 := by
  induction ds with
  | nil => simp at h
  | cons f ds ih =>
    obtain ⟨hf, hds⟩ := List.forall_mem_cons.mp hpos
    by_cases hlater : ∃ d ∈ ds, 2 ≤ d
    · obtain ⟨is, his, hone⟩ := ih hds hlater
      cases his with
      | nil => simp at hlater
      | @cons j e is ds hj his =>
        refine ⟨0 :: j :: is, .cons hf (.cons hj his), ?_⟩
        rw [flatIndex_cons_cons, hone, Nat.zero_mul, Nat.zero_add]
    · have hf2 : 2 ≤ f := by
        obtain ⟨d, hd, hd2⟩ := h
        rcases List.mem_cons.mp hd with rfl | hd
        · exact hd2
        · exact absurd ⟨d, hd, hd2⟩ hlater
      have hones : ds = List.replicate ds.length 1 := List.eq_replicate_of_mem fun d hd ↦ by
        have hpos := hds d hd
        have hlt : ¬ 2 ≤ d := fun h2 ↦ hlater ⟨d, hd, h2⟩
        omega
      refine ⟨1 :: List.replicate ds.length 0, .cons hf2 (inRange_zeros hds), ?_⟩
      rw [hones, List.length_replicate]
      cases ds.length with
      | zero => rfl
      | succ n =>
        rw [List.replicate_succ, List.replicate_succ, flatIndex_cons_cons, ← List.replicate_succ,
          ← List.replicate_succ, flatIndex_zeros]

/-- Behind a size larger than one, only the next size can be larger than one. -/
theorem Injective.ones {ds : List ℕ} {d : ℕ} (hd : 2 ≤ d) (hpos : ∀ x ∈ ds, 1 ≤ x)
    (h : Injective (d :: ds)) : ∀ x ∈ ds.tail, x = 1 := by
  induction ds generalizing d with
  | nil => simp
  | cons e ds ih =>
    obtain ⟨he, hds⟩ := List.forall_mem_cons.mp hpos
    by_contra hnot
    have hlarge : ∃ x ∈ ds, 2 ≤ x := by
      by_contra hsmall
      refine hnot fun x hx ↦ ?_
      have hx1 := hds x hx
      have hx2 : ¬ 2 ≤ x := fun h2 ↦ hsmall ⟨x, hx, h2⟩
      omega
    -- the index `e` of the second row is also that of an element of the first row
    have hcollide : ∀ is, InRange (e :: ds) is → flatIndex (e :: ds) is ≠ e := by
      intro is his heq
      obtain ⟨j, js, hj, hjs, rfl⟩ := List.forall₂_cons_right_iff.mp his
      have hrow := h (0 :: j :: js) (1 :: List.replicate (e :: ds).length 0)
        (.cons (by omega) (.cons hj hjs)) (.cons (by omega) (inRange_zeros hpos)) (by
          rw [flatIndex_cons_cons, heq, List.length_cons, List.replicate_succ, flatIndex_cons_cons,
            ← List.replicate_succ, flatIndex_zeros]
          omega)
      exact absurd (List.cons.inj hrow).1 Nat.zero_ne_one
    rcases Nat.lt_or_ge e 2 with hsmall | hlarge'
    · obtain rfl : e = 1 := by omega
      obtain ⟨is, his, hone⟩ := exists_flatIndex_eq_one hds hlarge
      cases his with
      | nil => simp at hlarge
      | @cons j f is ds hj his =>
        refine hcollide (0 :: j :: is) (.cons Nat.one_pos (.cons hj his)) ?_
        rw [flatIndex_cons_cons, hone, Nat.zero_mul]
    · have hones := ih hlarge' hds (h.tail (by omega))
      cases ds with
      | nil => simp at hlarge
      | cons f ds =>
        obtain ⟨hf, -⟩ := List.forall_mem_cons.mp hds
        have hf2 : 2 ≤ f := by
          obtain ⟨x, hx, hx2⟩ := hlarge
          rcases List.mem_cons.mp hx with rfl | hx
          · exact hx2
          · exact absurd (hones x hx) (by omega)
        have hds' : ds = List.replicate ds.length 1 := List.eq_replicate_of_mem hones
        refine hcollide (e / f :: e % f :: List.replicate ds.length 0)
          (.cons (Nat.div_lt_self (by omega) hf2) (.cons (Nat.mod_lt _ (by omega))
            (inRange_zeros fun x hx ↦ (hones x hx).ge))) ?_
        rw [hds', List.length_replicate, flatIndex_pair, Nat.div_add_mod']

/-- **Where the index tells the elements apart**: only two neighbouring sizes, or the last one, may
be larger than one. -/
theorem Injective.sizes {dims : List ℕ} (hpos : ∀ d ∈ dims, 1 ≤ d) (h : Injective dims) :
    (∀ d ∈ dims.dropLast, d = 1) ∨
      ∃ a d e b, dims = List.replicate a 1 ++ d :: e :: List.replicate b 1 := by
  induction dims with
  | nil => exact .inl (by simp)
  | cons d ds ih =>
    obtain ⟨hd, hds⟩ := List.forall_mem_cons.mp hpos
    rcases hd.eq_or_lt with rfl | hd2
    · rcases ih hds (h.tail le_rfl) with hones | ⟨a, d, e, b, rfl⟩
      · refine .inl fun x hx ↦ ?_
        rcases ds.eq_nil_or_concat with rfl | ⟨ds, e, rfl⟩
        · simp at hx
        · rw [List.concat_eq_append, List.dropLast_concat] at hones
          rw [List.concat_eq_append, ← List.cons_append, List.dropLast_concat,
            List.mem_cons] at hx
          exact hx.elim id (hones x)
      · exact .inr ⟨a + 1, d, e, b, rfl⟩
    · have hones := h.ones hd2 hds
      cases ds with
      | nil => exact .inl (by simp)
      | cons e ds =>
        have hds' : ds = List.replicate ds.length 1 := List.eq_replicate_of_mem hones
        exact .inr ⟨0, d, e, ds.length, by rw [← hds']; rfl⟩

/-! ## The number of names -/

/-- The number of names for a list of sizes. -/
def nameCount (dims : List ℕ) (dMul : ℕ) : ℕ :=
  dims.foldl (fun dMul d ↦ dMul * (dMul * d) % 2 ^ 32) dMul

theorem nameCount_ones {dMul : ℕ} (h : dMul < 2 ^ 32) (b : ℕ) :
    nameCount (List.replicate b 1) dMul = dMul ^ 2 ^ b % 2 ^ 32 := by
  induction b generalizing dMul with
  | zero => rw [pow_zero, pow_one, Nat.mod_eq_of_lt h, List.replicate_zero, nameCount,
      List.foldl_nil]
  | succ b ih =>
    rw [List.replicate_succ, nameCount, List.foldl_cons, ← nameCount,
      ih (Nat.mod_lt _ (Nat.two_pow_pos 32)), ← Nat.pow_mod, Nat.mul_one, ← pow_two, ← pow_mul,
      pow_succ' 2 b]

theorem nameCount_ones_append (a : ℕ) (ds : List ℕ) :
    nameCount (List.replicate a 1 ++ ds) 1 = nameCount ds 1 := by
  induction a with
  | zero => rfl
  | succ a ih =>
    rw [List.replicate_succ, List.cons_append, nameCount, List.foldl_cons, ← nameCount]
    exact ih

/-- Two sizes larger than one are both multiplied by themselves. -/
theorem nameCount_pair (a d e b : ℕ) :
    nameCount (List.replicate a 1 ++ d :: e :: List.replicate b 1) 1 =
      (d ^ 2 * e) ^ 2 ^ b % 2 ^ 32 := by
  have hfirst : 1 * (1 * d) % 2 ^ 32 * (1 * (1 * d) % 2 ^ 32 * e) % 2 ^ 32 =
      d ^ 2 * e % 2 ^ 32 := by
    rw [one_mul, one_mul, ← Nat.mul_assoc, Nat.mul_mod, ← Nat.mul_mod d d, ← Nat.mul_mod, pow_two]
  rw [nameCount_ones_append, nameCount, List.foldl_cons, List.foldl_cons, ← nameCount, hfirst,
    nameCount_ones (Nat.mod_lt _ (Nat.two_pow_pos 32)), ← Nat.pow_mod]

theorem nameCount_of_zero_mem {dims : List ℕ} (h : 0 ∈ dims) (dMul : ℕ) :
    nameCount dims dMul = 0 := by
  have hzero (ds : List ℕ) : nameCount ds 0 = 0 := by
    induction ds with
    | nil => rfl
    | cons d ds ih =>
      rw [nameCount, List.foldl_cons, Nat.zero_mul, Nat.zero_mod]
      exact ih
  induction dims generalizing dMul with
  | nil => exact absurd h List.not_mem_nil
  | cons d ds ih =>
    rw [nameCount, List.foldl_cons, ← nameCount]
    rcases List.mem_cons.mp h with rfl | h
    · rw [Nat.mul_zero, Nat.mul_zero, Nat.zero_mod, hzero]
    · exact ih h _

theorem dMul_lt (r : Register) : r.dMul < 2 ^ 32 := by
  rw [Register.dMul]
  induction r.dims using List.reverseRecOn with
  | nil => decide
  | append_singleton ds d =>
    rw [List.foldl_append]
    exact Nat.mod_lt _ (by decide)

theorem dMul_eq (r : Register) : r.dMul = nameCount r.dims 1 := rfl

theorem prod_pair (a d e b : ℕ) :
    (List.replicate a 1 ++ d :: e :: List.replicate b 1).prod = d * e := by
  rw [List.prod_append, List.prod_replicate, one_pow, one_mul, List.prod_cons, List.prod_cons,
    List.prod_replicate, one_pow, mul_one]

/-! ## The elements and their names -/

def Register.qInd (r : Register) (index : List ℕ) : ℕ := flatIndex r.dims index % 2 ^ 32

def Register.names (r : Register) : List Word := (bitMap [r]).drop 1

/-- Flattening is a bijection of the elements of a register and the names that are declared. -/
structure Register.Flattened (r : Register) : Prop where
  distinct : ∀ is js, InRange r.dims is → InRange r.dims js → r.qInd is = r.qInd js → is = js
  declared : ∀ is, InRange r.dims is → bitName r.name (r.qInd is) ∈ r.names
  nodup : r.names.Nodup
  count : r.names.length = r.dims.prod

theorem Register.names_eq (r : Register) :
    r.names = (List.range r.dMul).map (bitName r.name) :=
  List.append_nil _

theorem Register.names_length (r : Register) : r.names.length = r.dMul := by
  rw [names_eq, List.length_map, List.length_range]

theorem Register.names_nodup (r : Register) : r.names.Nodup := by
  rw [names_eq]
  refine List.Nodup.map_on (fun i hi j hj heq ↦ ?_) List.nodup_range
  have hi' := (List.mem_range.mp hi).trans (dMul_lt r)
  have hj' := (List.mem_range.mp hj).trans (dMul_lt r)
  exact ((bitName_inj hi' hj').mp heq).2

theorem Register.mem_names {r : Register} {i : ℕ} (h : i < r.dMul) : bitName r.name i ∈ r.names :=
  r.names_eq ▸ List.mem_map_of_mem (List.mem_range.mpr h)

/-- A register is flattened if its index is below the number of names, which is the product, and the
index tells the elements apart. -/
theorem Register.Flattened.of_lt {r : Register} (hcount : r.dMul = r.dims.prod)
    (hlt : ∀ is, InRange r.dims is → flatIndex r.dims is < r.dims.prod)
    (hinj : Injective r.dims) : r.Flattened := by
  have hqInd : ∀ is, InRange r.dims is → r.qInd is = flatIndex r.dims is := fun is his ↦
    Nat.mod_eq_of_lt ((hlt is his).trans (hcount ▸ dMul_lt r))
  refine ⟨fun is js his hjs heq ↦ ?_, fun is his ↦ ?_, r.names_nodup, ?_⟩
  · rw [hqInd is his, hqInd js hjs] at heq
    exact hinj is js his hjs heq
  · rw [hqInd is his]
    exact mem_names (hcount ▸ hlt is his)
  · rw [names_length, hcount]

theorem flatIndex_ones_append (a : ℕ) {ds : List ℕ} (hds : ds ≠ []) {is : List ℕ}
    (h : InRange (List.replicate a 1 ++ ds) is) :
    ∃ js, InRange ds js ∧ is = List.replicate a 0 ++ js ∧
      flatIndex (List.replicate a 1 ++ ds) is = flatIndex ds js := by
  induction a generalizing is with
  | zero => exact ⟨is, h, rfl, rfl⟩
  | succ a ih =>
    obtain ⟨i, is, hi, his, rfl⟩ := List.forall₂_cons_right_iff.mp h
    obtain rfl := Nat.lt_one_iff.mp hi
    obtain ⟨js, hjs, rfl, hflat⟩ := ih his
    refine ⟨js, hjs, rfl, ?_⟩
    have hne : List.replicate a 1 ++ ds ≠ [] := List.append_ne_nil_of_right_ne_nil _ hds
    obtain ⟨f, fs, hf⟩ := List.exists_cons_of_ne_nil hne
    have his' : InRange (f :: fs) (List.replicate a 0 ++ js) := hf ▸ his
    obtain ⟨j, js', -, -, hjs'⟩ := List.forall₂_cons_right_iff.mp his'
    rw [List.replicate_succ, List.cons_append, hf, hjs', flatIndex_cons_cons, Nat.zero_mul,
      Nat.zero_add, ← hjs', ← hf]
    exact hflat

theorem Injective.ones_append {ds : List ℕ} (hds : ds ≠ []) (h : Injective ds) (a : ℕ) :
    Injective (List.replicate a 1 ++ ds) := by
  intro is js his hjs heq
  obtain ⟨is, his', rfl, hi⟩ := flatIndex_ones_append a hds his
  obtain ⟨js, hjs', rfl, hj⟩ := flatIndex_ones_append a hds hjs
  rw [hi, hj] at heq
  rw [h is js his' hjs' heq]

theorem inRange_pair {d e b : ℕ} {is : List ℕ} (h : InRange (d :: e :: List.replicate b 1) is) :
    ∃ i < d, ∃ j < e, is = i :: j :: List.replicate b 0 := by
  obtain ⟨i, is, hi, his, rfl⟩ := List.forall₂_cons_right_iff.mp h
  obtain ⟨j, is, hj, his', rfl⟩ := List.forall₂_cons_right_iff.mp his
  exact ⟨i, hi, j, hj, by rw [inRange_ones his']⟩

/-- The element of a row is in the row, so the index is the row-major one. -/
theorem injective_pair (d e b : ℕ) : Injective (d :: e :: List.replicate b 1) := by
  intro is js his hjs heq
  obtain ⟨i, -, j, hj, rfl⟩ := inRange_pair his
  obtain ⟨i', -, j', hj', rfl⟩ := inRange_pair hjs
  rw [flatIndex_pair, flatIndex_pair] at heq
  have hdiv := congrArg (· / e) heq
  have hmod := congrArg (· % e) heq
  simp only [Nat.mul_comm _ e, Nat.mul_add_div (Nat.zero_lt_of_lt hj), Nat.div_eq_of_lt hj,
    Nat.div_eq_of_lt hj', Nat.mul_add_mod, Nat.mod_eq_of_lt hj, Nat.mod_eq_of_lt hj',
    add_zero] at hdiv hmod
  rw [hdiv, hmod]

theorem flatIndex_pair_lt {d e b : ℕ} {is : List ℕ}
    (h : InRange (d :: e :: List.replicate b 1) is) :
    flatIndex (d :: e :: List.replicate b 1) is < d * e := by
  obtain ⟨i, hi, j, hj, rfl⟩ := inRange_pair h
  rw [flatIndex_pair]
  calc i * e + j < (i + 1) * e := by rw [add_one_mul]; omega
    _ ≤ d * e := Nat.mul_le_mul_right e hi

theorem inRange_singleton {d : ℕ} {is : List ℕ} (h : InRange [d] is) : ∃ i < d, is = [i] := by
  obtain ⟨i, is, hi, hnil, rfl⟩ := List.forall₂_cons_right_iff.mp h
  exact ⟨i, hi, by rw [List.forall₂_nil_right_iff.mp hnil]⟩

theorem injective_singleton (d : ℕ) : Injective [d] := by
  intro is js his hjs heq
  obtain ⟨i, -, rfl⟩ := inRange_singleton his
  obtain ⟨j, -, rfl⟩ := inRange_singleton hjs
  rw [flatIndex_singleton, flatIndex_singleton] at heq
  rw [heq]

/-! ## When flattening is a bijection -/

def FlatSizes (dims : List ℕ) : Prop :=
  0 ∈ dims ∨ ((∀ d ∈ dims.dropLast, d = 1) ∧ dims.prod < 2 ^ 32) ∨
    ∃ a d e b, dims = List.replicate a 1 ++ d :: e :: List.replicate b 1 ∧
      (d ^ 2 * e) ^ 2 ^ b % 2 ^ 32 = d * e

theorem eq_ones_append {ds : List ℕ} (hds : ds ≠ []) (h : ∀ d ∈ ds.dropLast, d = 1) :
    ds = List.replicate (ds.length - 1) 1 ++ [ds.getLast hds] := by
  conv_lhs => rw [← List.dropLast_concat_getLast hds, List.eq_replicate_of_mem h,
    List.length_dropLast]

theorem Register.Flattened.of_zero {r : Register} (h : 0 ∈ r.dims) : r.Flattened := by
  have hnone : ∀ is, ¬ InRange r.dims is := fun is his ↦ Nat.lt_irrefl 0 (his.pos 0 h)
  refine ⟨fun is _ his ↦ absurd his (hnone is), fun is his ↦ absurd his (hnone is),
    r.names_nodup, ?_⟩
  rw [names_length, dMul_eq, nameCount_of_zero_mem h, List.prod_eq_zero h]

theorem Register.Flattened.of_ones {r : Register} (h : ∀ d ∈ r.dims.dropLast, d = 1)
    (hlt : r.dims.prod < 2 ^ 32) : r.Flattened := by
  rcases eq_or_ne r.dims [] with hnil | hne
  · refine .of_lt (by rw [dMul_eq, hnil]; rfl) (fun is his ↦ ?_) fun is js his hjs _ ↦ ?_
    · rw [hnil] at his ⊢
      rw [List.forall₂_nil_right_iff.mp his]
      exact Nat.one_pos
    · rw [hnil] at his hjs
      rw [List.forall₂_nil_right_iff.mp his, List.forall₂_nil_right_iff.mp hjs]
  · have hdims := eq_ones_append hne h
    set n := r.dims.length - 1
    set d := r.dims.getLast hne
    have hprod : r.dims.prod = d := by
      rw [hdims, List.prod_append, List.prod_replicate, one_pow, one_mul, List.prod_singleton]
    refine .of_lt ?_ (fun is his ↦ ?_) ?_
    · rw [dMul_eq, hprod, hdims, nameCount_ones_append, nameCount, List.foldl_cons, List.foldl_nil,
        one_mul, one_mul, Nat.mod_eq_of_lt (hprod ▸ hlt)]
    · rw [hdims] at his
      obtain ⟨js, hjs, -, hflat⟩ := flatIndex_ones_append n (List.cons_ne_nil _ _) his
      obtain ⟨j, hj, rfl⟩ := inRange_singleton hjs
      rw [hprod, hdims, hflat, flatIndex_singleton]
      exact hj
    · rw [hdims]
      exact (injective_singleton d).ones_append (List.cons_ne_nil _ _) n

theorem Register.Flattened.of_pair {r : Register} {a d e b : ℕ}
    (hdims : r.dims = List.replicate a 1 ++ d :: e :: List.replicate b 1)
    (hcount : (d ^ 2 * e) ^ 2 ^ b % 2 ^ 32 = d * e) : r.Flattened := by
  have hprod : r.dims.prod = d * e := by rw [hdims, prod_pair]
  refine .of_lt (by rw [dMul_eq, hprod, hdims, nameCount_pair, hcount]) (fun is his ↦ ?_) ?_
  · rw [hdims] at his
    obtain ⟨js, hjs, -, hflat⟩ := flatIndex_ones_append a (List.cons_ne_nil _ _) his
    rw [hprod, hdims, hflat]
    exact flatIndex_pair_lt hjs
  · rw [hdims]
    exact (injective_pair d e b).ones_append (List.cons_ne_nil _ _) a

/-- **Flattening is a bijection of the elements and the declared names exactly if** a size is zero,
only the last size is larger than one, or two neighbours are and the overflows agree. -/
theorem flattened_iff (r : Register) : r.Flattened ↔ FlatSizes r.dims := by
  constructor
  · intro h
    by_cases hzero : 0 ∈ r.dims
    · exact .inl hzero
    have hpos : ∀ d ∈ r.dims, 1 ≤ d := fun d hd ↦ Nat.one_le_iff_ne_zero.mpr fun h0 ↦
      hzero (h0 ▸ hd)
    have hinj : Injective r.dims := fun is js his hjs heq ↦
      h.distinct is js his hjs (congrArg (· % 2 ^ 32) heq)
    have hcount : r.dMul = r.dims.prod := r.names_length ▸ h.count
    refine .inr ?_
    rcases hinj.sizes hpos with hones | ⟨a, d, e, b, hdims⟩
    · exact .inl ⟨hones, hcount ▸ dMul_lt r⟩
    · rw [dMul_eq, hdims, nameCount_pair, prod_pair] at hcount
      exact .inr ⟨a, d, e, b, hdims, hcount⟩
  · rintro (hzero | ⟨hones, hlt⟩ | ⟨a, d, e, b, hdims, hcount⟩)
    · exact .of_zero hzero
    · exact .of_ones hones hlt
    · exact .of_pair hdims hcount

private theorem a_ne_nil : ['a'] ≠ [] := List.cons_ne_nil _ _

private theorem a_ident : ∀ c ∈ ['a'], c.isAlphanum ∨ c = '_' ∨ c = '.' :=
  List.forall_mem_singleton.mpr (.inl rfl)

def twoRows : Register := ⟨⟨['a'], a_ne_nil, a_ident⟩, some .qbit, [2, 2]⟩

/-- There are eight names for four qubits. -/
theorem not_flattened_twoRows : ¬ twoRows.Flattened := fun h ↦
  absurd h.count (by rw [Register.names_length]; decide)

end ScaffCC.Optimize
