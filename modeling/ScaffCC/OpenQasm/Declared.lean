import Mathlib.Algebra.BigOperators.Group.List.Basic
import Mathlib.Algebra.Order.BigOperators.Group.List
import Mathlib.Data.List.Forall2
import Mathlib.Tactic.Positivity
import Mathlib.Tactic.Ring
import ScaffCC.OpenQasm.Print
import ScaffCC.Text.Decimal

/-!
# Which registers are declared

An array with several dimensions is declared as several registers, one for each value of the outer
indices, which become a part of the name: `qbit a[2][3]` is `qreg ax0[3]` and `qreg ax1[3]`. The
loops that count through the values visit each of them once only if at most one of the outer
dimensions of a quantum array, and none of a classical array, has more than one value.
-/

namespace ScaffCC.OpenQasm

open Text

/-! ## Indices -/

/-- Each index is inside the size of its dimension. -/
def Inside (is : List ℤ) (sizes : List ℕ) : Prop :=
  List.Forall₂ (fun (i : ℤ) (d : ℕ) ↦ 0 ≤ i ∧ i < d) is sizes

instance (is : List ℤ) (sizes : List ℕ) : Decidable (Inside is sizes) :=
  inferInstanceAs (Decidable (List.Forall₂ _ is sizes))

/-- Indices as a part of a name. -/
def indexString (is : List ℤ) : Word :=
  is.flatMap fun i ↦ 'x' :: showInt i

theorem indexString_cons (i : ℤ) (is : List ℤ) :
    indexString (i :: is) = 'x' :: (showInt i ++ indexString is) := rfl

/-- An index inside a register. -/
def bitString (i : ℤ) : Word :=
  '[' :: (showInt i ++ [']'])

private def numeral (c : Char) : Bool :=
  c.isDigit || c == '-'

private theorem numeral_showInt {z : ℤ} : ∀ c ∈ showInt z, numeral c := fun _ hc ↦
  (mem_showInt hc).elim (fun h ↦ by simp [numeral, h]) (fun h ↦ by simp [numeral, h])

private theorem showInt_append_inj {i j : ℤ} {c d : Char} {s t : Word} (hc : ¬ numeral c)
    (hd : ¬ numeral d) (h : showInt i ++ c :: s = showInt j ++ d :: t) :
    i = j ∧ c :: s = d :: t := by
  obtain ⟨htake, hdrop⟩ := takeWhile_append_cons (w := s) numeral_showInt hc
  obtain ⟨htake', hdrop'⟩ := takeWhile_append_cons (w := t) numeral_showInt hd
  rw [h] at htake hdrop
  exact ⟨showInt_injective (htake.symm.trans htake'), hdrop.symm.trans hdrop'⟩

private theorem exists_cons_indexString (is : List ℤ) (k : ℤ) :
    ∃ c s, indexString is ++ bitString k = c :: s ∧ ¬ numeral c := by
  cases is with
  | nil => exact ⟨'[', showInt k ++ [']'], rfl, by decide⟩
  | cons i is => exact ⟨'x', showInt i ++ indexString is ++ bitString k, rfl, by decide⟩

/-- The indices can be read off the name of an element. -/
theorem indexString_append_inj {is js : List ℤ} {k l : ℤ}
    (h : indexString is ++ bitString k = indexString js ++ bitString l) : is = js ∧ k = l := by
  induction is generalizing js with
  | nil =>
    cases js with
    | nil =>
      have hbits : showInt k ++ ']' :: [] = showInt l ++ ']' :: [] := List.tail_eq_of_cons_eq h
      exact ⟨rfl, (showInt_append_inj (by decide) (by decide) hbits).1⟩
    | cons j js => exact absurd (List.head_eq_of_cons_eq h) (by decide)
  | cons i is ih =>
    cases js with
    | nil => exact absurd (List.head_eq_of_cons_eq h) (by decide)
    | cons j js =>
      have htail : showInt i ++ (indexString is ++ bitString k)
          = showInt j ++ (indexString js ++ bitString l) := by
        rw [indexString_cons, indexString_cons] at h
        simpa using h
      obtain ⟨c, s, hs, hc⟩ := exists_cons_indexString is k
      obtain ⟨d, t, ht, hd⟩ := exists_cons_indexString js l
      rw [hs, ht] at htail
      obtain ⟨rfl, hrest⟩ := showInt_append_inj hc hd htail
      rw [← hs, ← ht] at hrest
      obtain ⟨rfl, rfl⟩ := ih hrest
      exact ⟨rfl, rfl⟩

theorem indexString_injective : Function.Injective indexString := fun _ _ h ↦
  (indexString_append_inj (k := 0) (l := 0) (congrArg (· ++ bitString 0) h)).1

/-! ## The declarations of a register -/

/-- The outer indices a quantum register is declared with. -/
def qregCounts (r : Register) : ℕ → List ℤ × ℤ → List (List ℤ)
  | 0, _ => []
  | n + 1, (count, j) =>
    if 0 ≤ j then
      count.take r.outer.length ::
        qregCounts r n (nextCount (r.dimSize.getD j.toNat 0 - 1) count j)
    else [] :: qregCounts r n (count, j)

/-- The outer indices a classical register is declared with. -/
def cregCounts (r : Register) : ℕ → List ℤ × ℤ → List (List ℤ)
  | 0, _ => []
  | n + 1, (count, j) =>
    count.take r.outer.length :: cregCounts r n (nextCount (r.dimSize.getD j.toNat 0) count j)

namespace Register

/-- The outer indices and the sizes of the declarations of a register. -/
def counts (r : Register) : List (List ℤ × ℕ) :=
  let num := r.dimSize.prod
  let count := List.replicate r.dimSize.length 0
  if r.quantum then
    (qregCounts r (num / r.last) (count, (r.dimSize.length : ℤ) - 2)).map (·, r.last)
  else if r.isPtr then [([], num)]
  else (cregCounts r (num / r.last) (count, (r.dimSize.length : ℤ) - 1)).map (·, r.last)

def declName (r : Register) (p : List ℤ) : Word :=
  replaceDots r.name.val ++ indexString p

/-- The declarations of a register: names and sizes. -/
def decls (r : Register) : List (Word × ℕ) :=
  r.counts.map fun d ↦ (r.declName d.1, d.2)

/-- The text is a bit of a declaration of the register. -/
def Declares (r : Register) (w : Word) : Prop :=
  ∃ d ∈ r.decls, ∃ i : ℤ, (0 ≤ i ∧ i < d.2) ∧ w = d.1 ++ bitString i

end Register

theorem genQregs_eq (r : Register) (n : ℕ) (s : List ℤ × ℤ) :
    genQregs r n s
      = (qregCounts r n s).flatMap fun p ↦ declaration "qreg " r.name.val p r.last := by
  induction n generalizing s with
  | zero => rfl
  | succ n ih =>
    rw [genQregs, qregCounts]
    split_ifs
    all_goals rw [List.flatMap_cons, ih]

theorem genCregs_eq (r : Register) (n : ℕ) (s : List ℤ × ℤ) :
    genCregs r n s
      = (cregCounts r n s).flatMap fun p ↦ declaration "creg " r.name.val p r.last := by
  induction n generalizing s with
  | zero => rfl
  | succ n ih => rw [genCregs, cregCounts, List.flatMap_cons, ih]

theorem declaration_eq (keyword : String) (r : Register) (p : List ℤ) (size : ℕ) :
    declaration keyword r.name.val p size
      = keyword.toList ++ (r.declName p ++ bitString size ++ ";\n".toList) := by
  simp [declaration, Register.declName, indexString, bitString]

theorem genReg_eq (r : Register) :
    genReg r = r.decls.flatMap fun d ↦
      (if r.quantum then "qreg " else "creg ").toList ++
        (d.1 ++ bitString d.2 ++ ";\n".toList) := by
  rw [genReg, Register.decls, Register.counts, List.flatMap_map]
  split_ifs
  · rw [genQregs_eq, List.flatMap_map]
    exact congrArg (List.flatMap · _) (funext fun p ↦ declaration_eq "qreg " r p r.last)
  · exact (declaration_eq "creg " r [] _).trans (List.append_nil _).symm
  · rw [genCregs_eq, List.flatMap_map]
    exact congrArg (List.flatMap · _) (funext fun p ↦ declaration_eq "creg " r p r.last)

/-! ## Counting through the outer indices -/

theorem Inside.prod_pos {is : List ℤ} {sizes : List ℕ} (h : Inside is sizes) :
    0 < sizes.prod := by
  induction h with
  | nil => exact Nat.one_pos
  | @cons i d is sizes hi _ ih =>
    have hd : 0 < d := by omega
    rw [List.prod_cons]
    positivity

theorem inside_concat {is : List ℤ} {sizes : List ℕ} {i : ℤ} {d : ℕ} :
    Inside (is ++ [i]) (sizes ++ [d]) ↔ Inside is sizes ∧ 0 ≤ i ∧ i < d := by
  constructor
  · intro h
    have hlen : is.length = sizes.length := by simpa using h.length_eq
    have his := List.forall₂_take_append _ _ _ h
    have hi := List.forall₂_drop_append _ _ _ h
    rw [← hlen, List.take_left' rfl] at his
    rw [← hlen, List.drop_left' rfl] at hi
    exact ⟨his, (List.forall₂_cons.mp hi).1⟩
  · rintro ⟨his, hi⟩
    exact List.rel_append his (.cons hi .nil)

theorem inside_of_prod_eq_one {is : List ℤ} {sizes : List ℕ} (h : sizes.prod = 1) :
    Inside is sizes ↔ is = List.replicate sizes.length 0 := by
  induction sizes generalizing is with
  | nil => exact List.forall₂_nil_right_iff
  | cons d sizes ih =>
    obtain ⟨rfl, hsizes⟩ := mul_eq_one.mp (List.prod_cons.symm.trans h)
    cases is with
    | nil => simp [Inside]
    | cons i is =>
      rw [Inside, List.forall₂_cons, ← Inside, ih hsizes, List.length_cons, List.replicate_succ,
        List.cons.injEq]
      exact and_congr_left fun _ ↦ by omega

/-- A row of the innermost of the outer indices. -/
def row (k c n : ℕ) : List (List ℤ) :=
  (List.range' c n).map fun i : ℕ ↦ List.replicate k 0 ++ [(i : ℤ)]

theorem mem_row {k m : ℕ} {p : List ℤ} :
    p ∈ row k 0 m ↔ ∃ i : ℤ, (0 ≤ i ∧ i < m) ∧ p = List.replicate k 0 ++ [i] := by
  simp only [row, List.mem_map, List.mem_range'_1]
  constructor
  · rintro ⟨i, hi, rfl⟩
    exact ⟨i, by omega, rfl⟩
  · rintro ⟨i, hi, rfl⟩
    exact ⟨i.toNat, by omega, by rw [Int.toNat_of_nonneg hi.1]⟩

theorem nodup_row (k m : ℕ) : (row k 0 m).Nodup := by
  refine List.Nodup.map (fun i j h ↦ ?_) List.nodup_range'
  simpa using h

namespace Register

variable {r : Register} {outer : List ℕ} {m : ℕ}

/-- The state of the loop when only the innermost outer index was counted. -/
def atIndex (k : ℕ) (c : ℤ) : List ℤ :=
  List.replicate k 0 ++ [c, 0]

theorem take_atIndex (k : ℕ) (c : ℤ) :
    (atIndex k c).take (k + 1) = List.replicate k 0 ++ [c] := by
  rw [atIndex, ← List.singleton_append, ← List.append_assoc]
  exact List.take_left' (by simp)

theorem nextCount_atIndex (bound : ℤ) (k : ℕ) (c : ℤ) :
    nextCount bound (atIndex k c) k
      = if c < bound then (atIndex k (c + 1), (k : ℤ)) else (atIndex k c, (k : ℤ) - 1) := by
  have hget : (atIndex k c).getD k 0 = c := by simp [atIndex]
  have hset : (atIndex k c).set k (c + 1) = atIndex k (c + 1) := by simp [atIndex]
  rw [nextCount, Int.toNat_natCast]
  simp only [hget, hset]

theorem qregCounts_atIndex (h : r.outer = outer ++ [m]) (n : ℕ) (c : ℤ) :
    qregCounts r (n + 1) (atIndex outer.length c, outer.length)
      = (List.replicate outer.length 0 ++ [c]) :: qregCounts r n
        (if c < m - 1 then (atIndex outer.length (c + 1), (outer.length : ℤ))
          else (atIndex outer.length c, outer.length - 1)) := by
  have hlen : r.outer.length = outer.length + 1 := by simp [h]
  have hsize : r.dimSize.getD (outer.length : ℤ).toNat 0 = m := by simp [dimSize, h]
  rw [qregCounts, if_pos (Int.natCast_nonneg _), hlen, take_atIndex, hsize, nextCount_atIndex]

/-- The count of the innermost outer index goes up to its size. -/
theorem qregCounts_row (h : r.outer = outer ++ [m]) (n k c : ℕ) (hc : c + k + 1 = m) :
    qregCounts r (k + 1 + n) (atIndex outer.length c, outer.length)
      = row outer.length c (k + 1) ++
        qregCounts r n (atIndex outer.length (m - 1), outer.length - 1) := by
  induction k generalizing c with
  | zero =>
    have hlast : ¬ (c : ℤ) < m - 1 := by omega
    have hm : (c : ℤ) = m - 1 := by omega
    rw [Nat.zero_add, Nat.add_comm, qregCounts_atIndex h, if_neg hlast, hm]
    simp [row, hm]
  | succ k ih =>
    have hlt : (c : ℤ) < m - 1 := by omega
    rw [Nat.add_right_comm, qregCounts_atIndex h, if_pos hlt]
    rw [show (c : ℤ) + 1 = (c + 1 : ℕ) from rfl, ih (c + 1) (by omega)]
    rfl

/-- One declaration for each value of the outer indices, of the size of the last dimension. -/
def Listed (r : Register) : Prop :=
  r.counts.Nodup ∧ ∀ d, d ∈ r.counts ↔ Inside d.1 r.outer ∧ d.2 = r.last

/-- At most one outer dimension of a quantum register and none of a classical one has more than one
value, and a classical register that is declared as a whole has no outer dimension. -/
def Regular (r : Register) : Prop :=
  if r.quantum then r.outer.prod = 0 ∨ r.outer.dropLast.prod = 1
  else if r.isPtr then r.outer = []
  else r.outer.prod ≤ 1

theorem num_div (r : Register) : r.dimSize.prod / r.last = r.outer.prod := by
  rw [dimSize, List.prod_append, List.prod_singleton, Nat.mul_div_cancel _ r.pos]

theorem mem_map_last {l : List (List ℤ)} {d : List ℤ × ℕ} :
    d ∈ l.map (·, r.last) ↔ d.1 ∈ l ∧ d.2 = r.last := by
  simp [Prod.ext_iff, eq_comm]

theorem listed_of_counts {l : List (List ℤ)} (hcounts : r.counts = l.map (·, r.last)) :
    r.Listed ↔ l.Nodup ∧ ∀ p, p ∈ l ↔ Inside p r.outer := by
  rw [Listed, hcounts, List.nodup_map_iff fun _ _ h ↦ congrArg Prod.fst h]
  refine and_congr_right fun _ ↦ ⟨fun h p ↦ ?_, fun h d ↦ ?_⟩
  · simpa [mem_map_last] using h (p, r.last)
  · rw [mem_map_last, h]

theorem not_nodup_of_repeated {α : Type*} {l l' : List α} {a : α} (h : a ∈ l) :
    ¬ (l ++ a :: l').Nodup := fun hnodup ↦
  (List.disjoint_of_nodup_append hnodup) h List.mem_cons_self

theorem qregCounts_of_row (h : r.outer = outer ++ [m]) :
    qregCounts r m (atIndex outer.length 0, outer.length) = row outer.length 0 m := by
  cases m with
  | zero => rfl
  | succ k => simpa [qregCounts] using qregCounts_row h 0 k 0 (by omega)

theorem mem_row_iff_inside (hone : outer.prod = 1) {p : List ℤ} :
    p ∈ row outer.length 0 m ↔ Inside p (outer ++ [m]) := by
  rw [mem_row]
  constructor
  · rintro ⟨i, hi, rfl⟩
    exact inside_concat.mpr ⟨(inside_of_prod_eq_one hone).mpr rfl, hi⟩
  · intro h
    rcases List.eq_nil_or_concat p with rfl | ⟨is, i, rfl⟩
    · simpa using h.length_eq
    · rw [List.concat_eq_append, inside_concat, inside_of_prod_eq_one hone] at h
      exact ⟨i, h.2, by rw [h.1, List.concat_eq_append]⟩

/-- With another outer dimension, the last count of the first row is declared again. -/
theorem not_nodup_qregCounts (h : r.outer = outer ++ [m]) (hone : outer.prod ≠ 1)
    (hzero : outer.prod * m ≠ 0) :
    ¬ (qregCounts r (outer.prod * m) (atIndex outer.length 0, outer.length)).Nodup := by
  obtain ⟨hprod, hm⟩ := Nat.mul_ne_zero_iff.mp hzero
  obtain ⟨k, rfl⟩ := Nat.exists_eq_succ_of_ne_zero hm
  obtain ⟨n, hn⟩ : ∃ n, outer.prod * (k + 1) = k + 1 + (n + 1) := by
    have : 2 * (k + 1) ≤ outer.prod * (k + 1) := Nat.mul_le_mul_right _ (by omega)
    exact ⟨outer.prod * (k + 1) - (k + 2), by omega⟩
  have hlen : r.outer.length = outer.length + 1 := by simp [h]
  have hpos : 0 ≤ (outer.length : ℤ) - 1 := by
    have : outer ≠ [] := fun hnil ↦ hone (by rw [hnil, List.prod_nil])
    have := List.length_pos_iff.mpr this
    omega
  rw [Nat.succ_eq_add_one, hn, show atIndex outer.length 0 = atIndex outer.length (0 : ℕ) from rfl,
    qregCounts_row h _ k 0 (by omega), qregCounts, if_pos hpos, hlen, take_atIndex]
  exact not_nodup_of_repeated (mem_row.mpr ⟨_, ⟨by omega, by omega⟩, rfl⟩)

theorem listed_quantum (hq : r.quantum = true) :
    r.Listed ↔ r.outer.prod = 0 ∨ r.outer.dropLast.prod = 1 := by
  have hcounts : r.counts = (qregCounts r r.outer.prod
      (List.replicate r.dimSize.length 0, (r.dimSize.length : ℤ) - 2)).map (·, r.last) := by
    rw [counts, if_pos hq, num_div]
  rw [listed_of_counts hcounts]
  rcases List.eq_nil_or_concat r.outer with hnil | ⟨outer, m, hconcat⟩
  · have hone : qregCounts r r.outer.prod
        (List.replicate r.dimSize.length 0, (r.dimSize.length : ℤ) - 2) = [[]] := by
      simp [hnil, qregCounts, dimSize]
    rw [hone, hnil]
    simp [Inside]
  · rw [List.concat_eq_append] at hconcat
    have hstate : (List.replicate r.dimSize.length 0, (r.dimSize.length : ℤ) - 2)
        = (atIndex outer.length 0, (outer.length : ℤ)) := by
      have hlen : r.dimSize.length = outer.length + 2 := by simp [dimSize, hconcat]
      rw [hlen, atIndex, List.replicate_add]
      exact congrArg _ (by push_cast; ring)
    have hprod : r.outer.prod = outer.prod * m := by simp [hconcat]
    have hdrop : r.outer.dropLast = outer := by simp [hconcat]
    rw [hstate, hprod, hdrop]
    constructor
    · rintro ⟨hnodup, -⟩
      by_contra hne
      obtain ⟨hzero, hone⟩ := not_or.mp hne
      exact not_nodup_qregCounts hconcat hone hzero hnodup
    · rintro (hzero | hone)
      · refine ⟨by rw [hzero]; exact List.nodup_nil, fun p ↦ ?_⟩
        rw [hzero]
        refine iff_of_false List.not_mem_nil fun hp ↦ ?_
        exact hp.prod_pos.ne' (hprod.trans hzero)
      · rw [hone, Nat.one_mul, qregCounts_of_row hconcat, hconcat]
        exact ⟨nodup_row _ _, fun p ↦ mem_row_iff_inside hone⟩

/-- The first two declarations of a classical register count the last dimension, not an outer
one. -/
theorem cregCounts_succ_succ (r : Register) (n : ℕ) :
    ∃ l, cregCounts r (n + 2) (List.replicate r.dimSize.length 0, (r.dimSize.length : ℤ) - 1)
      = List.replicate r.outer.length 0 :: List.replicate r.outer.length 0 :: l := by
  have hlen : r.dimSize.length = r.outer.length + 1 := by simp [dimSize]
  have hidx : ((r.dimSize.length : ℤ) - 1).toNat = r.outer.length := by omega
  have hsize : r.dimSize.getD r.outer.length 0 = r.last := by simp [dimSize]
  have hnext : nextCount r.last (List.replicate r.dimSize.length 0) ((r.dimSize.length : ℤ) - 1)
      = ((List.replicate r.dimSize.length 0).set r.outer.length 1, (r.dimSize.length : ℤ) - 1) := by
    have hget : (List.replicate r.dimSize.length (0 : ℤ)).getD r.outer.length 0 = 0 := by
      simp [hlen]
    rw [nextCount, hidx, hget, if_pos (Int.natCast_pos.mpr r.pos), Int.zero_add]
  have htake : (List.replicate r.dimSize.length (0 : ℤ)).take r.outer.length
      = List.replicate r.outer.length 0 := by
    simp [hlen]
  rw [cregCounts, cregCounts, hidx, hsize, hnext, List.take_set_of_le le_rfl, htake]
  exact ⟨_, rfl⟩

theorem listed_classical (hq : r.quantum = false) (hp : r.isPtr = false) :
    r.Listed ↔ r.outer.prod ≤ 1 := by
  have hcounts : r.counts = (cregCounts r r.outer.prod
      (List.replicate r.dimSize.length 0, (r.dimSize.length : ℤ) - 1)).map (·, r.last) := by
    rw [counts, if_neg (by simp [hq]), if_neg (by simp [hp]), num_div]
  rw [listed_of_counts hcounts]
  match hprod : r.outer.prod with
  | 0 =>
    refine iff_of_true ⟨List.nodup_nil, fun p ↦ ?_⟩ (Nat.zero_le 1)
    exact iff_of_false List.not_mem_nil fun hp ↦ hp.prod_pos.ne' hprod
  | 1 =>
    have htake : (List.replicate r.dimSize.length (0 : ℤ)).take r.outer.length
        = List.replicate r.outer.length 0 := by
      simp [dimSize]
    rw [cregCounts, cregCounts, htake]
    refine iff_of_true ⟨List.nodup_singleton _, fun p ↦ ?_⟩ le_rfl
    rw [inside_of_prod_eq_one hprod, List.mem_singleton]
  | n + 2 =>
    obtain ⟨l, hl⟩ := cregCounts_succ_succ r n
    rw [hl]
    refine iff_of_false (fun h ↦ ?_) (by omega)
    exact (List.nodup_cons.mp h.1).1 List.mem_cons_self

theorem listed_pointer (hq : r.quantum = false) (hp : r.isPtr = true) :
    r.Listed ↔ r.outer = [] := by
  have hcounts : r.counts = [([], r.dimSize.prod)] := by
    rw [counts, if_neg (by simp [hq]), if_pos hp]
  rw [Listed, hcounts]
  constructor
  · rintro ⟨-, hmem⟩
    have hnil := ((hmem _).mp List.mem_cons_self).1
    exact List.forall₂_nil_left_iff.mp hnil
  · intro hnil
    refine ⟨List.nodup_singleton _, fun d ↦ ?_⟩
    simp [hnil, dimSize, Inside, Prod.ext_iff]

/-- **The loops declare each register once exactly for the regular registers.** -/
theorem listed_iff (r : Register) : r.Listed ↔ r.Regular := by
  rw [Regular]
  split_ifs with hq hp
  · exact listed_quantum hq
  · exact listed_pointer (by simpa using hq) hp
  · exact listed_classical (by simpa using hq) (by simpa using hp)

end Register

end ScaffCC.OpenQasm
