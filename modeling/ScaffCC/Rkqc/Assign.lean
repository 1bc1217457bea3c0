import Mathlib.Data.Int.Bitwise
import ScaffCC.Rkqc.Plus

/-!
# Constants in a register

To assign a constant, the reversible library clears the register into garbage ancillas and then adds
the bits of the constant from lines that hold them. For a constant that is given as a string the
bits go to the register. For an integer they go to the ancillas, and each is the test of the whole
integer against zero: the register is left clear.
-/

namespace ScaffCC.Rkqc

open Reversible

/-! ## The source -/

/-- A circuit that has taken new lines. -/
structure Emitted (ι : Type*) where
  gates : List (Gate ι)
  /-- The number of lines for constants. -/
  used : ℕ
  /-- The numbers of those that start at one. -/
  ones : List ℕ

section Source

variable {ι : Type*}

/-- The bit of a register is moved to an ancilla. -/
def clear (a ancilla : ι) : List (Gate ι) := [cnot a ancilla, cnot ancilla a]

/-- An integer is to be assigned to `a`; `anc` are the lines for constants. -/
def assignValueOfIntToA (a ancilla anc : ℕ → ι) (b : ℤ) (size : ℕ) : Emitted ι where
  gates := (up 0 size).flatMap fun i ↦ clear (a i) (ancilla i) ++ [cnot (anc i) (ancilla i)]
  used := size
  ones := if b = 0 then [] else up 0 size

/-- The register `b` is to be assigned to `a`. -/
def assignValueOfBToA (a ancilla b : ℕ → ι) (size : ℕ) : List (Gate ι) :=
  (up 0 size).flatMap fun i ↦ clear (a i) (ancilla i) ++ [cnot (b i) (a i)]

/-- The loop over the characters of a constant, from position `i` and the line `used` for constants
on. -/
def assignChars (a ancilla anc : ℕ → ι) (size : ℕ) : ℕ → ℕ → List Char → Emitted ι
  | _, used, [] => ⟨[], used, []⟩
  | i, used, c :: it =>
    if size < i then ⟨[], used, []⟩  -- Size Error
    else if c = '0' then
      let rest := assignChars a ancilla anc size (i + 1) (used + 1) it
      ⟨clear (a i) (ancilla i) ++ cnot (anc used) (a i) :: rest.gates, rest.used, rest.ones⟩
    else if c = '1' then
      let rest := assignChars a ancilla anc size (i + 1) (used + 1) it
      ⟨clear (a i) (ancilla i) ++ cnot (anc used) (a i) :: rest.gates, rest.used, used :: rest.ones⟩
    else
      let rest := assignChars a ancilla anc size (i + 1) used it
      ⟨clear (a i) (ancilla i) ++ rest.gates, rest.used, rest.ones⟩

def assignValueOfStringToA (a ancilla anc : ℕ → ι) (binary_constant : List Char) (size : ℕ) :
    Emitted ι :=
  assignChars a ancilla anc size 0 0 binary_constant

end Source

/-! ## Constants -/

/-- A constant of `n` bits, as an integer or as a string. -/
inductive Constant (n : ℕ)
  | int (b : ℤ)
  | binary (chars : List Char) (length_eq : chars.length = n)
      (digits : ∀ c ∈ chars, c = '0' ∨ c = '1')

namespace Constant

variable {n : ℕ}

/-- Bit `i` of a constant. Bit `i` of a string is its character at position `i`. -/
def bit : Constant n → ℕ → Bool
  | int b, i => b / 2 ^ i % 2 = 1
  | binary chars _ _, i => chars[i]? = some '1'

/-- The circuit that assigns a constant. -/
def assign {ι : Type*} (a ancilla anc : ℕ → ι) : Constant n → Emitted ι
  | int b => assignValueOfIntToA a ancilla anc b n
  | binary chars _ _ => assignValueOfStringToA a ancilla anc chars n

end Constant

/-- A register on lines that there are. -/
structure Target (n lines : ℕ) where
  wire : ℕ → ℕ
  injOn : Set.InjOn wire {i | i < n}
  lt_lines : ∀ i < n, wire i < lines

namespace Target

variable {n lines : ℕ} (L : Target n lines)

/-- The garbage ancillas of an assignment. -/
def ancilla (_ : Target n lines) (i : ℕ) : ℕ := (zeroToGarbage lines n).1 i

/-- The lines for the constants of an assignment. -/
def anc (_ : Target n lines) (i : ℕ) : ℕ := (zeroToGarbage lines n).2 + i

/-- The circuit that assigns a constant to the register. -/
def assign (c : Constant n) : Emitted ℕ := c.assign L.wire L.ancilla L.anc

/-- New lines start at the value that their kind names. -/
structure Starts (c : Constant n) (s : ℕ → Bool) : Prop where
  ancilla : ∀ i < n, s (L.ancilla i) = false
  anc : ∀ i < (L.assign c).used, s (L.anc i) = decide (i ∈ (L.assign c).ones)

/-- The register holds the constant in the end, whatever it held before. -/
def Assigns (c : Constant n) : Prop :=
  ∀ s, L.Starts c s → ∀ i < n, run (L.assign c).gates s (L.wire i) = c.bit i

end Target

/-! ## A round -/

section Round

variable {n lines : ℕ} {L : Target n lines} {s : ℕ → Bool} {i j k : ℕ}

theorem Target.ancilla_eq (i : ℕ) : L.ancilla i = lines + i := rfl

theorem Target.anc_eq (k : ℕ) : L.anc k = lines + max 1 n + k := rfl

theorem Target.wire_ne_ancilla (hi : i < n) : L.wire i ≠ L.ancilla j := by
  have hlt := L.lt_lines i hi
  rw [ancilla_eq]
  omega

theorem Target.wire_ne_anc (hi : i < n) : L.anc k ≠ L.wire i := by
  have hlt := L.lt_lines i hi
  rw [anc_eq]
  omega

theorem Target.ancilla_ne_anc (hi : i < n) : L.anc k ≠ L.ancilla i := by
  rw [anc_eq, ancilla_eq]
  omega

theorem Target.ancilla_ne (h : j ≠ i) : L.ancilla j ≠ L.ancilla i := by
  rw [ancilla_eq, ancilla_eq]
  omega

theorem Target.wire_ne (hi : i < n) (hj : j < n) (h : j ≠ i) : L.wire j ≠ L.wire i :=
  fun heq ↦ h (L.injOn hj hi heq)

/-- A bit is moved to its ancilla, and nothing else is changed. -/
theorem run_clear (hi : i < n) (h : s (L.ancilla i) = false) :
    run (clear (L.wire i) (L.ancilla i)) s (L.wire i) = false ∧
      ∀ w, w ≠ L.wire i → w ≠ L.ancilla i → run (clear (L.wire i) (L.ancilla i)) s w = s w := by
  constructor
  · have hne := L.wire_ne_ancilla (j := i) hi
    simp [clear, act_cnot, h, hne]
  · intro w hw hw'
    exact run_of_notMem (by simp [clear, cnot, hw, hw']) s

/-- The bit of a constant is put in the place of a bit. -/
theorem run_clear_set (hi : i < n) (h : s (L.ancilla i) = false) (k : ℕ) :
    run (clear (L.wire i) (L.ancilla i) ++ [cnot (L.anc k) (L.wire i)]) s (L.wire i) =
        s (L.anc k) ∧
      ∀ w, w ≠ L.wire i → w ≠ L.ancilla i →
        run (clear (L.wire i) (L.ancilla i) ++ [cnot (L.anc k) (L.wire i)]) s w = s w := by
  obtain ⟨hclear, hother⟩ := run_clear hi h
  constructor
  · rw [run_append, run_cons, run_nil, act_cnot, if_pos rfl, hclear,
      hother _ (L.wire_ne_anc hi) (L.ancilla_ne_anc hi), Bool.false_xor]
  · intro w hw hw'
    rw [run_append, run_cons, run_nil, act_cnot, if_neg hw, hother w hw hw']

/-! ## The loops -/

theorem run_assignInt (b : ℤ) (h : ∀ i < n, s (L.ancilla i) = false) (hi : i < n) :
    run (L.assign (.int b)).gates s (L.wire i) = false := by
  have hloop : ∀ i < n, run (L.assign (.int b)).gates s (L.wire i) = false := by
    refine (run_up (s := s) (P := fun k s ↦ (∀ i < k, s (L.wire i) = false) ∧
      ∀ i, k ≤ i → i < n → s (L.ancilla i) = false) (Nat.zero_le n)
      ⟨nofun, fun i _ hi ↦ h i hi⟩ fun k s _ hk ⟨hdone, hleft⟩ ↦ ?_).1
    obtain ⟨hclear, hother⟩ := run_clear hk (hleft k le_rfl hk)
    refine ⟨fun i hi ↦ ?_, fun i hki hi ↦ ?_⟩
    · have hin : i < n := by omega
      rw [run_append, run_cons, run_nil, act_cnot, if_neg (L.wire_ne_ancilla hin)]
      rcases Nat.lt_succ_iff_lt_or_eq.mp hi with hlt | rfl
      · rw [hother _ (L.wire_ne hk hin hlt.ne) (L.wire_ne_ancilla hin), hdone i hlt]
      · exact hclear
    · have hne : L.ancilla i ≠ L.ancilla k := L.ancilla_ne (by omega)
      rw [run_append, run_cons, run_nil, act_cnot, if_neg hne,
        hother _ (L.wire_ne_ancilla hk).symm hne, hleft i (by omega) hi]
  exact hloop i hi

theorem used_assignChars (a ancilla anc : ℕ → ℕ) (i used : ℕ) {cs : List Char}
    (hlen : i + cs.length ≤ n) (hdigits : ∀ c ∈ cs, c = '0' ∨ c = '1') :
    (assignChars a ancilla anc n i used cs).used = used + cs.length ∧
      ∀ k ∈ (assignChars a ancilla anc n i used cs).ones, used ≤ k := by
  induction cs generalizing i used with
  | nil => exact ⟨rfl, nofun⟩
  | cons c cs ih =>
    rw [List.length_cons] at hlen
    obtain ⟨hc, hcs⟩ := List.forall_mem_cons.mp hdigits
    obtain ⟨hused, hones⟩ := ih (i + 1) (used + 1) (by omega) hcs
    rw [assignChars, if_neg (by omega), List.length_cons]
    rcases hc with rfl | rfl
    · rw [if_pos rfl]
      exact ⟨by rw [hused]; omega, fun k hk ↦ Nat.le_of_succ_le (hones k hk)⟩
    · rw [if_neg (by decide), if_pos rfl]
      exact ⟨by rw [hused]; omega, List.forall_mem_cons.mpr ⟨le_rfl, fun k hk ↦
        Nat.le_of_succ_le (hones k hk)⟩⟩

/-- **After the loop for a string** the positions that have been gone through hold its characters.
-/
theorem run_assignChars (s : ℕ → Bool) (i used : ℕ) {cs : List Char} (hlen : i + cs.length ≤ n)
    (hdigits : ∀ c ∈ cs, c = '0' ∨ c = '1')
    (hancilla : ∀ j, i ≤ j → j < n → s (L.ancilla j) = false)
    (hanc : ∀ k, used ≤ k → k < used + cs.length → s (L.anc k) =
      decide (k ∈ (assignChars L.wire L.ancilla L.anc n i used cs).ones)) (hj : j < i + cs.length) :
    run (assignChars L.wire L.ancilla L.anc n i used cs).gates s (L.wire j) =
      if j < i then s (L.wire j) else decide (cs[j - i]? = some '1') := by
  induction cs generalizing i used s with
  | nil => exact (if_pos hj).symm
  | cons c cs ih =>
    rw [List.length_cons] at hlen hanc hj
    obtain ⟨hc, hcs⟩ := List.forall_mem_cons.mp hdigits
    have hi : i < n := by omega
    let rest := assignChars L.wire L.ancilla L.anc n (i + 1) (used + 1) cs
    -- Both characters make the same gates, and their lines start differently.
    obtain ⟨hgates, hones⟩ : (assignChars L.wire L.ancilla L.anc n i used (c :: cs)).gates =
          (clear (L.wire i) (L.ancilla i) ++ [cnot (L.anc used) (L.wire i)]) ++ rest.gates ∧
        ∀ k, k ∈ (assignChars L.wire L.ancilla L.anc n i used (c :: cs)).ones ↔
          c = '1' ∧ k = used ∨ k ∈ rest.ones := by
      rw [assignChars, if_neg (by omega)]
      rcases hc with rfl | rfl
      · rw [if_pos rfl]
        exact ⟨by simp [rest], fun k ↦ by simp [rest]⟩
      · rw [if_neg (by decide), if_pos rfl]
        exact ⟨by simp [rest], fun k ↦ by simp [rest]⟩
    obtain ⟨hset, hother⟩ := run_clear_set hi (hancilla i le_rfl hi) used
    have hnot : used ∉ rest.ones := fun hmem ↦
      absurd ((used_assignChars _ _ _ _ _ (by omega) hcs).2 used hmem) (Nat.not_succ_le_self used)
    have hbit : s (L.anc used) = decide (c = '1') := by
      rw [hanc used le_rfl (by omega), decide_eq_decide, hones]
      simp [hnot]
    rw [hgates, run_append, ih _ _ _ (by omega) hcs (fun j hij hjn ↦ ?_) (fun k hk hk' ↦ ?_)
      (by omega)]
    · rcases lt_trichotomy j i with hlt | rfl | hgt
      · rw [if_pos (by omega), if_pos hlt, hother _ (L.wire_ne hi (by omega) hlt.ne)
          (L.wire_ne_ancilla (by omega))]
      · rw [if_pos (by omega), if_neg (lt_irrefl j), hset, hbit, Nat.sub_self]
        simp
      · obtain ⟨m, rfl⟩ : ∃ m, j = i + 1 + m := ⟨j - (i + 1), by omega⟩
        rw [if_neg (by omega), if_neg (by omega), Nat.add_sub_cancel_left,
          show i + 1 + m - i = m + 1 by omega, List.getElem?_cons_succ]
    · rw [hother _ (L.wire_ne_ancilla hi).symm (L.ancilla_ne (by omega)),
        hancilla j (by omega) hjn]
    · rw [hother _ (L.wire_ne_anc hi) (L.ancilla_ne_anc hi), hanc k (by omega) (by omega),
        decide_eq_decide, hones]
      exact or_iff_right fun ⟨_, heq⟩ ↦ by omega

end Round

/-! ## Which constants are assigned -/

/-- The low bits of a number are clear if it is a multiple of a power of two. -/
theorem bit_int_eq_false_iff {n : ℕ} {b : ℤ} :
    (∀ i < n, (Constant.int b : Constant n).bit i = false) ↔ (2 ^ n : ℤ) ∣ b := by
  have hbit : ∀ i, (Constant.int b : Constant n).bit i = false ↔ b / 2 ^ i % 2 = 0 := by
    intro i
    rw [Constant.bit, decide_eq_false_iff_not]
    omega
  simp only [hbit]
  clear hbit
  induction n with
  | zero => simp
  | succ n ih =>
    constructor
    · intro h
      obtain ⟨q, rfl⟩ := ih.mp fun i hi ↦ h i (Nat.lt_succ_of_lt hi)
      have hq := h n (Nat.lt_succ_self n)
      rw [Int.mul_ediv_cancel_left q (by positivity)] at hq
      obtain ⟨q, rfl⟩ := Int.dvd_of_emod_eq_zero hq
      exact ⟨q, by rw [pow_succ, mul_assoc]⟩
    · rintro ⟨q, rfl⟩ i hi
      rcases Nat.lt_succ_iff_lt_or_eq.mp hi with hlt | rfl
      · exact ih.mpr ⟨2 * q, by rw [pow_succ, mul_assoc]⟩ i hlt
      · rw [pow_succ, mul_assoc, Int.mul_ediv_cancel_left _ (by positivity)]
        exact Int.mul_emod_right 2 q

/-- **Which constants are assigned**: all strings, and the integers whose low bits are clear. -/
theorem assigns_iff {n lines : ℕ} (L : Target n lines) (c : Constant n) :
    L.Assigns c ↔ ∀ b, c = .int b → (2 ^ n : ℤ) ∣ b := by
  cases c with
  | int b =>
    have hbits : L.Assigns (.int b) ↔ ∀ i < n, (Constant.int b : Constant n).bit i = false := by
      constructor
      · intro h i hi
        have hstarts : L.Starts (.int b) fun l ↦ decide (b ≠ 0 ∧ lines + max 1 n ≤ l) := by
          refine ⟨fun i hi ↦ ?_, fun k hk ↦ ?_⟩
          · rw [L.ancilla_eq]
            exact decide_eq_false fun h ↦ by omega
          · rw [L.anc_eq, decide_eq_decide]
            replace hk : k < n := hk
            show _ ↔ k ∈ if b = 0 then [] else up 0 n
            split_ifs with hb
            · simp [hb]
            · simp [hb, mem_up, hk]
        rw [← h _ hstarts i hi, run_assignInt b hstarts.ancilla hi]
      · intro h s hstarts i hi
        rw [run_assignInt b hstarts.ancilla hi, h i hi]
    rw [hbits, bit_int_eq_false_iff]
    exact ⟨fun h b' hb ↦ Constant.int.inj hb ▸ h, fun h ↦ h b rfl⟩
  | binary chars length_eq digits =>
    refine iff_of_true (fun s hstarts i hi ↦ ?_) nofun
    have hused := (used_assignChars L.wire L.ancilla L.anc 0 0
      (by omega : 0 + chars.length ≤ n) digits).1
    have hrun := run_assignChars s 0 0 (by omega) digits
      (fun j _ hj ↦ hstarts.ancilla j hj) (fun k _ hk ↦ hstarts.anc k (hused ▸ hk))
      (show i < 0 + chars.length by omega)
    rwa [if_neg (Nat.not_lt_zero i), Nat.sub_zero] at hrun

def firstLine : Target 1 1 where
  wire i := i
  injOn := fun _ _ _ _ h ↦ h
  lt_lines := fun _ hi ↦ hi

/-- One is not assigned. -/
theorem not_assigns_one : ¬ firstLine.Assigns (.int 1) := by
  intro h
  have hstarts : firstLine.Starts (.int 1) fun l ↦ l = 2 := by
    refine ⟨fun i hi ↦ ?_, fun k hk ↦ ?_⟩
    · obtain rfl : i = 0 := by omega
      decide
    · obtain rfl : k = 0 := by
        replace hk : k < 1 := hk
        omega
      decide
  exact absurd (h _ hstarts 0 (by decide)) (by decide)

end ScaffCC.Rkqc
