import Mathlib.Data.List.Basic
import Mathlib.Data.Nat.ModEq
import Mathlib.Algebra.Order.Group.Nat

/-!
# Bytes and tables in memory

The bytes of a number in little-endian order, fields that are filled up with zeros, and lists of
records that are looked up by a key no two of them share.
-/

namespace Memory

/-! ## Bytes -/

/-- The low `k` bytes of a number, the lowest first. -/
def leBytes : ℕ → ℕ → List UInt8
  | 0, _ => []
  | k + 1, n => UInt8.ofNat n :: leBytes k (n / 256)

@[simp] theorem length_leBytes (k n : ℕ) : (leBytes k n).length = k := by
  induction k generalizing n with
  | zero => rfl
  | succ k ih => rw [leBytes, List.length_cons, ih]

theorem leBytes_eq_iff {k n m : ℕ} : leBytes k n = leBytes k m ↔ n % 256 ^ k = m % 256 ^ k := by
  induction k generalizing n m with
  | zero => simp [leBytes, Nat.mod_one]
  | succ k ih =>
    have hbyte : UInt8.ofNat n = UInt8.ofNat m ↔ n % 256 = m % 256 := by
      rw [← UInt8.toNat_inj, UInt8.toNat_ofNat', UInt8.toNat_ofNat']
    rw [leBytes, leBytes, List.cons_eq_cons, hbyte, ih, pow_succ', Nat.mod_mul, Nat.mod_mul]
    omega

theorem take_leBytes {j k : ℕ} (h : j ≤ k) (n : ℕ) : (leBytes k n).take j = leBytes j n := by
  induction j generalizing k n with
  | zero => rfl
  | succ j ih =>
    obtain ⟨k, rfl⟩ := Nat.exists_eq_add_of_lt (Nat.lt_of_lt_of_le (Nat.succ_pos j) h)
    rw [Nat.zero_add] at h ⊢
    rw [leBytes, leBytes, List.take_succ_cons, ih (Nat.le_of_succ_le_succ h)]

/-- The number with the bytes, the lowest first. -/
def leValue : List UInt8 → ℕ
  | [] => 0
  | byte :: bytes => byte.toNat + 256 * leValue bytes

theorem leValue_leBytes (k n : ℕ) : leValue (leBytes k n) = n % 256 ^ k := by
  induction k generalizing n with
  | zero => rw [leBytes, leValue, pow_zero, Nat.mod_one]
  | succ k ih =>
    rw [leBytes, leValue, ih, UInt8.toNat_ofNat', pow_succ' 256 k, Nat.mod_mul]

def arrayBytes (k : ℕ) (ns : List ℕ) : List UInt8 :=
  ns.flatMap (leBytes k)

@[simp] theorem length_arrayBytes (k : ℕ) (ns : List ℕ) :
    (arrayBytes k ns).length = ns.length * k := by
  induction ns with
  | nil => rw [arrayBytes, List.flatMap_nil, List.length_nil, List.length_nil, Nat.zero_mul]
  | cons n ns ih =>
    rw [arrayBytes, List.flatMap_cons, List.length_append, length_leBytes, List.length_cons,
      Nat.succ_mul, Nat.add_comm]
    exact congrArg (· + k) ih

theorem arrayBytes_injective {k : ℕ} {ns ms : List ℕ} (hlen : ns.length = ms.length)
    (hns : ∀ n ∈ ns, n < 256 ^ k) (hms : ∀ m ∈ ms, m < 256 ^ k)
    (h : arrayBytes k ns = arrayBytes k ms) : ns = ms := by
  induction ns generalizing ms with
  | nil => exact (List.length_eq_zero_iff.mp hlen.symm).symm
  | cons n ns ih =>
    obtain _ | ⟨m, ms⟩ := ms
    · exact absurd hlen (Nat.succ_ne_zero _)
    · obtain ⟨hn, hns⟩ := List.forall_mem_cons.mp hns
      obtain ⟨hm, hms⟩ := List.forall_mem_cons.mp hms
      rw [arrayBytes, arrayBytes, List.flatMap_cons, List.flatMap_cons] at h
      obtain ⟨hhead, htail⟩ := List.append_inj h (by simp)
      have hnm := leBytes_eq_iff.mp hhead
      rw [Nat.mod_eq_of_lt hn, Nat.mod_eq_of_lt hm] at hnm
      rw [hnm, ih (Nat.succ_injective hlen) hns hms htail]

/-! ## Fields filled up with zeros -/

/-- A field of `n` places that starts with the list. -/
def padded {α : Type*} (n : ℕ) (z : α) (l : List α) : List α :=
  l ++ List.replicate (n - l.length) z

theorem length_padded {α : Type*} {n : ℕ} (z : α) {l : List α} (h : l.length ≤ n) :
    (padded n z l).length = n := by
  rw [padded, List.length_append, List.length_replicate, Nat.add_sub_cancel' h]

/-- The list can be read off the field when its length is known. -/
theorem padded_injective_of_length {α : Type*} {n : ℕ} {z : α} {l l' : List α}
    (hlen : l.length = l'.length) (h : padded n z l = padded n z l') : l = l' :=
  (List.append_inj h hlen).1

/-- A list without the padding value can be read off the field. -/
theorem padded_injective_of_notMem {α : Type*} {n : ℕ} {z : α} {l l' : List α} (hl : z ∉ l)
    (hl' : z ∉ l') (h : padded n z l = padded n z l') : l = l' := by
  classical
  have hread : ∀ {l : List α}, z ∉ l → (padded n z l).filter (· ≠ z) = l := by
    intro l hl
    rw [padded, List.filter_append, List.filter_eq_self.mpr, List.filter_eq_nil_iff.mpr,
      List.append_nil]
    · intro a ha
      rw [List.eq_of_mem_replicate ha]
      simp
    · intro a ha
      exact decide_eq_true fun heq ↦ hl (heq ▸ ha)
  rw [← hread hl, h, hread hl']

/-! ## Tables -/

section Table

variable {α κ : Type*} [DecidableEq κ] {key : α → κ} {l : List α}

theorem find?_key (h : (l.map key).Nodup) {a : α} (ha : a ∈ l) {k : κ} (hk : key a = k) :
    l.find? (fun b ↦ key b = k) = some a := by
  induction l with
  | nil => exact absurd ha List.not_mem_nil
  | cons b l ih =>
    obtain ⟨hb, hl⟩ := List.nodup_cons.mp h
    rcases List.mem_cons.mp ha with rfl | ha
    · exact List.find?_cons_of_pos (decide_eq_true hk)
    · have hne : key b ≠ k := fun hbk ↦ hb (List.mem_map.mpr ⟨a, ha, hk.trans hbk.symm⟩)
      rw [List.find?_cons_of_neg (by simpa using hne), ih hl ha]

theorem eq_of_key_eq (h : (l.map key).Nodup) {a b : α} (ha : a ∈ l) (hb : b ∈ l)
    (hk : key a = key b) : a = b :=
  Option.some_injective _ ((find?_key h ha hk).symm.trans (find?_key h hb rfl))

omit [DecidableEq κ] in
/-- The records that satisfy a condition only the records with one key satisfy. -/
theorem filter_eq_singleton (h : (l.map key).Nodup) {p : α → Bool} {a : α} (ha : a ∈ l)
    (hpa : p a = true) (hp : ∀ b ∈ l, p b = true → key b = key a) : l.filter p = [a] := by
  induction l with
  | nil => exact absurd ha List.not_mem_nil
  | cons b l ih =>
    obtain ⟨hb, hl⟩ := List.nodup_cons.mp h
    obtain ⟨hpb, hpl⟩ := List.forall_mem_cons.mp hp
    rcases List.mem_cons.mp ha with rfl | ha
    · rw [List.filter_cons_of_pos hpa, List.filter_eq_nil_iff.mpr]
      exact fun c hc hpc ↦ hb (List.mem_map.mpr ⟨c, hc, hpl c hc hpc⟩)
    · have hne : ¬ p b = true := fun h ↦ hb (List.mem_map.mpr ⟨a, ha, (hpb h).symm⟩)
      rw [List.filter_cons_of_neg hne, ih hl ha hpl]

end Table

end Memory
