import ScaffCC.Shors.ModAdder

/-!
# Multiplying by a constant modulo a number

The modular multiplier adds, for each bit of a second register, the constant shifted by the position
of the bit. The shift is computed in 32 bits before it is reduced, so that the top of the product is
lost when it does not fit. What is added is therefore a sum of the reduced shifts, and this is the
product exactly when what each shift loses is a multiple of the modulus.
-/

namespace ScaffCC.Shors

open Quantum
open Reversible (up down mem_up mem_down up_succ_right up_self)

variable {ι : Type*}

/-! ## The source -/

/-- The value of `a << i` for an unsigned integer. It is undefined from 32 places on, where `undef`
stands for what comes out. -/
def shiftLeft (undef : ℕ → ℕ → ℕ) (a i : ℕ) : ℕ :=
  if i < 32 then a * 2 ^ i % 2 ^ 32 else undef a i

def cMODMUL (undef : ℕ → ℕ → ℕ) (ctrl : ι) (width a : ℕ) (x b : ℕ → ι) (N : ℕ)
    (ancilla dummy : ι) : List (Gate ι) :=
  QFT width b ++
  ((up 0 width).flatMap fun i ↦
    cMODADD ctrl (x (width - 1 - i)) width (shiftLeft undef a i % N) b N ancilla dummy) ++
  iQFT width b

def ciMODMUL (undef : ℕ → ℕ → ℕ) (ctrl : ι) (width a : ℕ) (x b : ℕ → ι) (N : ℕ)
    (ancilla dummy : ι) : List (Gate ι) :=
  QFT width b ++
  ((down 0 width).flatMap fun i ↦
    ciMODADD ctrl (x (width - 1 - i)) width (shiftLeft undef a i % N) b N ancilla dummy) ++
  iQFT width b

def cSWAPs (ctrl : ι) (width : ℕ) (a b : ℕ → ι) : List (Gate ι) :=
  (up 0 width).flatMap fun i ↦ [.CNOT (b i) (a i), .Toffoli ctrl (a i) (b i), .CNOT (b i) (a i)]

def cUa (undef : ℕ → ℕ → ℕ) (ctrl : ι) (width a aInv : ℕ) (x b : ℕ → ι) (N : ℕ)
    (ancilla dummy : ι) : List (Gate ι) :=
  cMODMUL undef ctrl width a x b N ancilla dummy ++ cSWAPs ctrl width x b ++
  ciMODMUL undef ctrl width aInv x b N ancilla dummy

/-! ## The constants -/

/-- What the shifts of the constant lose is a multiple of the modulus. -/
def ShiftsFit (N a : ℕ) : Prop := ∀ i, 2 ^ i < N → N ∣ a * 2 ^ i / 2 ^ 32 * 2 ^ 32

/-- The sum of the constants for the lowest `m` bits of a number. -/
def shiftSum (undef : ℕ → ℕ → ℕ) (a N m v : ℕ) : ℕ :=
  ∑ i ∈ Finset.range m, (v.testBit i).toNat * (shiftLeft undef a i % N)

variable {undef : ℕ → ℕ → ℕ} {n a aInv N : ℕ}

theorem shiftSum_succ (undef : ℕ → ℕ → ℕ) (a N m v : ℕ) : shiftSum undef a N (m + 1) v =
    shiftSum undef a N m v + (v.testBit m).toNat * (shiftLeft undef a m % N) :=
  Finset.sum_range_succ ..

theorem shiftSum_two_pow {i : ℕ} (hi : i < n) :
    shiftSum undef a N n (2 ^ i) = shiftLeft undef a i % N := by
  rw [shiftSum, Finset.sum_eq_single i]
  · rw [Nat.testBit_two_pow_self, Bool.toNat_true, Nat.one_mul]
  · intro j _ hj
    rw [Nat.testBit_two_pow_of_ne hj.symm, Bool.toNat_false, Nat.zero_mul]
  · exact fun hi' ↦ absurd (Finset.mem_range.mpr hi) hi'

theorem shiftLeft_mod_eq_iff {i : ℕ} (hi : i < 32) :
    shiftLeft undef a i % N = a * 2 ^ i % N ↔ N ∣ a * 2 ^ i / 2 ^ 32 * 2 ^ 32 := by
  rw [shiftLeft, if_pos hi]
  have hdiv := Nat.mod_add_div (a * 2 ^ i) (2 ^ 32)
  rw [Nat.mul_comm (2 ^ 32)] at hdiv
  calc a * 2 ^ i % 2 ^ 32 % N = a * 2 ^ i % N
      ↔ a * 2 ^ i % 2 ^ 32 ≡ a * 2 ^ i [MOD N] := Iff.rfl
    _ ↔ N ∣ a * 2 ^ i - a * 2 ^ i % 2 ^ 32 := Nat.modEq_iff_dvd' (Nat.mod_le _ _)
    _ ↔ N ∣ a * 2 ^ i / 2 ^ 32 * 2 ^ 32 := by
      rw [show a * 2 ^ i - a * 2 ^ i % 2 ^ 32 = a * 2 ^ i / 2 ^ 32 * 2 ^ 32 by omega]

/-- **The sum of the shifts is the product exactly when the shifts fit.** -/
theorem shiftSum_mod_iff (undef : ℕ → ℕ → ℕ) (a : ℕ) (hN : N < 2 ^ 32) (hn : N ≤ 2 ^ n) :
    (∀ v < N, shiftSum undef a N n v % N = a * v % N) ↔ ShiftsFit N a := by
  have h32 {i : ℕ} (hi : 2 ^ i < N) : i < 32 :=
    (Nat.pow_lt_pow_iff_right one_lt_two).mp (hi.trans hN)
  constructor
  · intro h i hi
    have hin : i < n := (Nat.pow_lt_pow_iff_right one_lt_two).mp (hi.trans_le hn)
    have hpow := h (2 ^ i) hi
    rw [shiftSum_two_pow hin, Nat.mod_mod] at hpow
    exact (shiftLeft_mod_eq_iff (h32 hi)).mp hpow
  · intro h v hv
    have hbit : ∀ i ∈ Finset.range n, (v.testBit i).toNat * (shiftLeft undef a i % N) % N =
        a * ((v.testBit i).toNat * 2 ^ i) % N := by
      intro i _
      cases hi : v.testBit i with
      | false => rw [Bool.toNat_false, Nat.zero_mul, Nat.zero_mul, Nat.mul_zero]
      | true =>
        have hiN : 2 ^ i < N := (Nat.ge_two_pow_of_testBit hi).trans_lt hv
        rw [Bool.toNat_true, Nat.one_mul, Nat.one_mul, Nat.mod_mod]
        exact (shiftLeft_mod_eq_iff (h32 hiN)).mpr (h i hiN)
    have hv' : v = ∑ i ∈ Finset.range n, (v.testBit i).toNat * 2 ^ i := by
      rw [← mod_two_pow_eq_sum, Nat.mod_eq_of_lt (hv.trans_le hn)]
    conv_rhs => rw [hv', Finset.mul_sum, Finset.sum_nat_mod]
    rw [shiftSum, Finset.sum_nat_mod, Finset.sum_congr rfl hbit]

theorem shiftsFit_of_le (hN : N ≤ 2 ^ 16) (ha : a < N) : ShiftsFit N a := by
  intro i hi
  have hlt : a * 2 ^ i < 2 ^ 32 :=
    (Nat.mul_lt_mul'' (ha.trans_le hN) (hi.trans_le hN)).trans_eq (by norm_num)
  rw [Nat.div_eq_of_lt hlt, Nat.zero_mul]
  exact dvd_zero N

/-! ## The registers -/

/-- The qubits of a modular multiplier are different. -/
structure Apart (ctrl : ι) (width : ℕ) (x b : ℕ → ι) (ancilla : ι) : Prop where
  injOn_x : Set.InjOn x (Set.Iio width)
  injOn_b : Set.InjOn b (Set.Iio width)
  registers : ∀ i < width, ∀ j < width, x i ≠ b j
  ctrl : ancilla ≠ ctrl ∧ ∀ i < width, x i ≠ ctrl ∧ b i ≠ ctrl
  ancilla : ∀ i < width, x i ≠ ancilla ∧ b i ≠ ancilla

variable {ctrl : ι} {x b : ℕ → ι} {anc : ι}

/-- Each modular addition is controlled by a qubit of the second register. -/
theorem Apart.separate (h : Apart ctrl n x b anc) {i : ℕ} (hi : i < n) :
    Separate ctrl (x (n - 1 - i)) n b anc where
  injOn := h.injOn_b
  ctrls := ((h.ctrl.2 (n - 1 - i) (by omega)).1).symm
  ctrl0 := ⟨h.ctrl.1, fun j hj ↦ (h.ctrl.2 j hj).2⟩
  ctrl1 := ⟨((h.ancilla (n - 1 - i) (by omega)).1).symm,
    fun j hj ↦ (h.registers (n - 1 - i) (by omega) j hj).symm⟩
  ancilla := fun j hj ↦ (h.ancilla j hj).2

/-- The basis states with numbers below the modulus and a cleared ancilla. -/
def Reduced (n : ℕ) (x b : ℕ → ι) (N : ℕ) (anc : ι) : Set (ι → Bool) :=
  {z | highFirst n x z < N ∧ highFirst n b z < N ∧ z anc = false}

variable [DecidableEq ι]

theorem putHighFirst_of_ne {i : ι} (hi : ∀ j < n, b j ≠ i) (v : ℕ) (z : ι → Bool) :
    putHighFirst n b v z i = z i :=
  place_of_ne (fun s hs ↦ hi (n - 1 - s) (by omega)) v z

omit [DecidableEq ι] in
theorem highFirst_congr {z z' : ι → Bool} (h : ∀ i < n, z (x i) = z' (x i)) :
    highFirst n x z = highFirst n x z' :=
  Finset.sum_congr rfl fun i hi ↦ by rw [h i (Finset.mem_range.mp hi)]

omit [DecidableEq ι] in
theorem testBit_highFirst {i : ℕ} (hi : i < n) (z : ι → Bool) :
    (highFirst n x z).testBit i = z (x (n - 1 - i)) := by
  rw [← number_lowFirst, testBit_number _ hi, lowFirst]

section Frame

variable (h : Apart ctrl n x b anc) (v : ℕ) (z : ι → Bool)

include h

theorem putHighFirst_ctrl : putHighFirst n b v z ctrl = z ctrl :=
  putHighFirst_of_ne (fun i hi ↦ (h.ctrl.2 i hi).2) v z

theorem putHighFirst_ancilla : putHighFirst n b v z anc = z anc :=
  putHighFirst_of_ne (fun i hi ↦ (h.ancilla i hi).2) v z

theorem highFirst_other : highFirst n x (putHighFirst n b v z) = highFirst n x z :=
  highFirst_congr fun i hi ↦ putHighFirst_of_ne (fun j hj ↦ (h.registers i hi j hj).symm) v z

theorem putHighFirst_mem_Reduced (hN : N ≤ 2 ^ n) (hv : v < N) (hz : z ∈ Reduced n x b N anc) :
    putHighFirst n b v z ∈ Reduced n x b N anc := by
  obtain ⟨hx, -, hanc⟩ := hz
  refine ⟨(highFirst_other h v z).trans_lt hx, ?_, (putHighFirst_ancilla h v z).trans hanc⟩
  rwa [highFirst_putHighFirst h.injOn_b, Nat.mod_eq_of_lt (hv.trans_le hN)]

end Frame

/-! ## The loop -/

/-- The number that is added to a register when the control is set, modulo `N`. -/
def addTo (ctrl : ι) (n : ℕ) (b : ℕ → ι) (N : ℕ) (F : (ι → Bool) → ℕ) (z : ι → Bool) : ι → Bool :=
  if z ctrl then putHighFirst n b ((F z + highFirst n b z) % N) z else z

theorem addTo_mem_Reduced (h : Apart ctrl n x b anc) (hN : N ≤ 2 ^ n) (F : (ι → Bool) → ℕ)
    {z : ι → Bool} (hz : z ∈ Reduced n x b N anc) :
    addTo ctrl n b N F z ∈ Reduced n x b N anc := by
  rw [addTo]
  split_ifs
  · exact putHighFirst_mem_Reduced h _ z hN (Nat.mod_lt _ (Nat.zero_lt_of_lt hz.1)) hz
  · exact hz

private theorem addTo_succ (h : Apart ctrl n x b anc) (hN : N ≤ 2 ^ n) {m : ℕ} (hm : m < n)
    {z : ι → Bool} (hz : z ∈ Reduced n x b N anc) :
    (fun z ↦ if z ctrl && z (x (n - 1 - m)) then
        putHighFirst n b ((shiftLeft undef a m % N + highFirst n b z) % N) z else z)
      (addTo ctrl n b N (fun z ↦ shiftSum undef a N m (highFirst n x z)) z) =
    addTo ctrl n b N (fun z ↦ shiftSum undef a N (m + 1) (highFirst n x z)) z := by
  simp only [addTo]
  cases hc : z ctrl with
  | false => simp [hc]
  | true =>
    have hpos : 0 < N := Nat.zero_lt_of_lt hz.1
    set w := (shiftSum undef a N m (highFirst n x z) + highFirst n b z) % N with hw
    have hwN : w < N := Nat.mod_lt _ hpos
    have hbit : putHighFirst n b w z (x (n - 1 - m)) = (highFirst n x z).testBit m := by
      rw [testBit_highFirst hm]
      exact putHighFirst_of_ne (fun j hj ↦ (h.registers (n - 1 - m) (by omega) j hj).symm) w z
    rw [if_pos rfl, if_pos rfl, putHighFirst_ctrl h, hc, Bool.true_and, hbit, shiftSum_succ,
      highFirst_putHighFirst h.injOn_b, Nat.mod_eq_of_lt (hwN.trans_le hN),
      putHighFirst_putHighFirst h.injOn_b]
    cases (highFirst n x z).testBit m with
    | false => rw [if_neg Bool.false_ne_true, Bool.toNat_false, Nat.zero_mul, Nat.add_zero, hw]
    | true =>
      rw [if_pos rfl, Bool.toNat_true, Nat.one_mul, hw, Nat.add_mod_mod]
      congr 2
      omega

private theorem mapsOn_additions (h : Apart ctrl n x b anc) (hN : 2 * N ≤ 2 ^ n) (undef : ℕ → ℕ → ℕ)
    (a : ℕ) (dummy : ι) {m : ℕ} (hm : m ≤ n) :
    MapsOn (Reduced n x b N anc)
      (meaning ((up 0 m).flatMap fun i ↦
        cMODADD ctrl (x (n - 1 - i)) n (shiftLeft undef a i % N) b N anc dummy))
      (fourierState (lowFirst n b) n)
      (addTo ctrl n b N fun z ↦ shiftSum undef a N m (highFirst n x z))
      (fourierState (lowFirst n b) n) := by
  induction m with
  | zero =>
    refine ⟨1, norm_one, fun z hz ↦ ?_⟩
    have hzero : shiftSum undef a N 0 (highFirst n x z) = 0 := rfl
    rw [addTo, hzero, Nat.zero_add, Nat.mod_eq_of_lt hz.2.1, putHighFirst_highFirst h.injOn_b,
      ite_self, one_smul, up_self]
    rfl
  | succ m ih =>
    have hstep : MapsOn (Reduced n x b N anc)
        (meaning (cMODADD ctrl (x (n - 1 - m)) n (shiftLeft undef a m % N) b N anc dummy))
        (fourierState (lowFirst n b) n) (fun z ↦ if z ctrl && z (x (n - 1 - m)) then
          putHighFirst n b ((shiftLeft undef a m % N + highFirst n b z) % N) z else z)
        (fourierState (lowFirst n b) n) := by
      rcases Nat.eq_zero_or_pos N with rfl | hpos
      · exact ⟨1, norm_one, fun z hz ↦ absurd hz.1 (Nat.not_lt_zero _)⟩
      · obtain ⟨g, hg, hmaps⟩ := maps_cMODADD (h.separate hm) hN
          (Nat.mod_lt (shiftLeft undef a m) hpos) dummy
        exact ⟨g, hg, fun z hz ↦ hmaps z hz.2.1 hz.2.2⟩
    have hN' : N ≤ 2 ^ n := by omega
    have hmaps := (ih (by omega)).comp (fun z hz ↦ addTo_mem_Reduced h hN' _ hz) hstep
    rw [up_succ_right (Nat.zero_le m), List.flatMap_append, List.flatMap_singleton, meaning_append]
    exact hmaps.congr fun z hz ↦ addTo_succ h hN' hm hz

/-- **What the multiplier adds**: the sum of the shifts for the bits of the second register. -/
theorem mapsOn_cMODMUL (h : Apart ctrl n x b anc) (hN : 2 * N ≤ 2 ^ n) (undef : ℕ → ℕ → ℕ) (a : ℕ)
    (dummy : ι) :
    MapsOn (Reduced n x b N anc) (meaning (cMODMUL undef ctrl n a x b N anc dummy)) ket
      (addTo ctrl n b N fun z ↦ shiftSum undef a N n (highFirst n x z)) ket := by
  have hmaps := (((maps_QFT h.injOn_b).mapsOn (Reduced n x b N anc)).comp (fun z hz ↦ hz)
    (mapsOn_additions h hN undef a dummy le_rfl)).comp
    (fun z hz ↦ addTo_mem_Reduced h (by omega) _ hz)
    ((maps_iQFT h.injOn_b).mapsOn (Reduced n x b N anc))
  rwa [cMODMUL, meaning_append, meaning_append]

theorem meaning_ciMODMUL_mul_cMODMUL (h : Apart ctrl n x b anc) (undef : ℕ → ℕ → ℕ) (a N : ℕ)
    (dummy : ι) :
    meaning (ciMODMUL undef ctrl n a x b N anc dummy) *
      meaning (cMODMUL undef ctrl n a x b N anc dummy) = 1 := by
  have hadditions := meaning_reverse_mul (up 0 n) _ _ fun i hi ↦
    meaning_ciMODADD_mul_cMODADD (h.separate (mem_up.mp hi).2)
      (Nat.zero_lt_of_lt (mem_up.mp hi).2) (shiftLeft undef a i % N) N dummy
  rw [cMODMUL, ciMODMUL, meaning_append, meaning_append, meaning_append, meaning_append, mul_assoc,
    mul_assoc, ← mul_assoc (meaning (QFT n b)) (meaning (iQFT n b)), meaning_QFT_mul_iQFT h.injOn_b,
    one_mul, ← mul_assoc (meaning (List.flatMap _ _)), down, hadditions, one_mul,
    meaning_iQFT_mul_QFT h.injOn_b]

/-- The number that is taken from a register when the control is set, modulo `N`. -/
def takeFrom (ctrl : ι) (n : ℕ) (b : ℕ → ι) (N : ℕ) (F : (ι → Bool) → ℕ) (z : ι → Bool) :
    ι → Bool :=
  if z ctrl then putHighFirst n b ((highFirst n b z + (N - F z % N)) % N) z else z

theorem takeFrom_mem_Reduced (h : Apart ctrl n x b anc) (hN : N ≤ 2 ^ n) (F : (ι → Bool) → ℕ)
    {z : ι → Bool} (hz : z ∈ Reduced n x b N anc) :
    takeFrom ctrl n b N F z ∈ Reduced n x b N anc := by
  rw [takeFrom]
  split_ifs
  · exact putHighFirst_mem_Reduced h _ z hN (Nat.mod_lt _ (Nat.zero_lt_of_lt hz.1)) hz
  · exact hz

theorem addTo_takeFrom (h : Apart ctrl n x b anc) (hN : N ≤ 2 ^ n) {F : (ι → Bool) → ℕ}
    (hF : ∀ v z, F (putHighFirst n b v z) = F z) {z : ι → Bool} (hz : z ∈ Reduced n x b N anc) :
    addTo ctrl n b N F (takeFrom ctrl n b N F z) = z := by
  rw [takeFrom]
  split_ifs with hc
  · have hpos : 0 < N := Nat.zero_lt_of_lt hz.1
    have hlt : F z % N < N := Nat.mod_lt _ hpos
    have hsum : (F z + (highFirst n b z + (N - F z % N)) % N) % N = highFirst n b z := by
      rw [Nat.add_mod_mod, ← Nat.mod_add_mod,
        show F z % N + (highFirst n b z + (N - F z % N)) = highFirst n b z + N by omega,
        Nat.add_mod_right, Nat.mod_eq_of_lt hz.2.1]
    rw [addTo, putHighFirst_ctrl h, if_pos hc, hF, highFirst_putHighFirst h.injOn_b,
      Nat.mod_eq_of_lt ((Nat.mod_lt _ hpos).trans_le hN), hsum,
      putHighFirst_putHighFirst h.injOn_b, putHighFirst_highFirst h.injOn_b]
  · rw [addTo, if_neg hc]

theorem mapsOn_ciMODMUL (h : Apart ctrl n x b anc) (hN : 2 * N ≤ 2 ^ n) (undef : ℕ → ℕ → ℕ) (a : ℕ)
    (dummy : ι) :
    MapsOn (Reduced n x b N anc) (meaning (ciMODMUL undef ctrl n a x b N anc dummy)) ket
      (takeFrom ctrl n b N fun z ↦ shiftSum undef a N n (highFirst n x z)) ket :=
  (mapsOn_cMODMUL h hN undef a dummy).of_leftInverse
    (meaning_ciMODMUL_mul_cMODMUL h undef a N dummy)
    (fun _ hz ↦ takeFrom_mem_Reduced h (by omega) _ hz)
    fun _ hz ↦ addTo_takeFrom h (by omega)
      (fun v z ↦ congrArg (shiftSum undef a N n) (highFirst_other h v z)) hz

/-! ## The exchange -/

private theorem meaning_cSWAP_ket {c p q : ι} (hpq : p ≠ q) (hpc : p ≠ c) (hqc : q ≠ c)
    (z : ι → Bool) :
    meaning [.CNOT q p, .Toffoli c p q, .CNOT q p] (ket z) =
      ket (if z c then z ∘ Equiv.swap p q else z) := by
  have hboth : Indep (fun z : ι → Bool ↦ z c && z p) q := fun z b ↦
    congrArg₂ and (indep_of_ne hqc.symm z b) (indep_of_ne hpq z b)
  simp only [meaning_cons, meaning_nil, one_mul, Module.End.mul_apply, Gate.operator]
  rw [flip_ket (indep_of_ne hpq.symm), flip_ket hboth, flip_ket (indep_of_ne hpq.symm)]
  congr 1
  funext i
  cases hc : z c with
  | false =>
    by_cases hip : i = p
    · subst hip
      cases hq : z q <;> simp [flipWhen, hpq, hpq.symm, hpc.symm, hc, hq]
    · by_cases hiq : i = q
      · subst hiq
        simp [flipWhen, hpq, hpq.symm, hpc.symm, hc]
      · simp [flipWhen, hip, hiq]
  | true =>
    rw [if_pos rfl, comp_swap_eq_update]
    by_cases hip : i = p
    · subst hip
      cases hq : z q <;> cases hp : z i <;>
        simp [flipWhen, hpq, hpq.symm, hpc.symm, hc, hq, hp]
    · by_cases hiq : i = q
      · subst hiq
        cases hq : z i <;> cases hp : z p <;>
          simp [flipWhen, hpq, hpq.symm, hpc.symm, hc, hq, hp]
      · simp [flipWhen, hip, hiq]

/-- The two registers exchanged. -/
def exchange (n : ℕ) (x b : ℕ → ι) (z : ι → Bool) : ι → Bool :=
  putHighFirst n x (highFirst n b z) (putHighFirst n b (highFirst n x z) z)

/-- The qubits below `m` are exchanged, and all others are as they were. -/
private structure Swapped (ctrl : ι) (n : ℕ) (x b : ℕ → ι) (m : ℕ) (z z' : ι → Bool) : Prop where
  inX : ∀ i < n, z' (x i) = if z ctrl ∧ i < m then z (b i) else z (x i)
  inB : ∀ i < n, z' (b i) = if z ctrl ∧ i < m then z (x i) else z (b i)
  other : ∀ w, (∀ i < n, x i ≠ w ∧ b i ≠ w) → z' w = z w

private theorem swapped_succ (h : Apart ctrl n x b anc) {m : ℕ} (hm : m < n) {z z' : ι → Bool}
    (hz : Swapped ctrl n x b m z z') :
    Swapped ctrl n x b (m + 1) z (if z' ctrl then z' ∘ Equiv.swap (x m) (b m) else z') := by
  have hctrl : z' ctrl = z ctrl := hz.other ctrl fun i hi ↦ h.ctrl.2 i hi
  rw [hctrl]
  cases hc : z ctrl with
  | false =>
    rw [if_neg Bool.false_ne_true]
    exact ⟨fun i hi ↦ by rw [hz.inX i hi]; simp [hc], fun i hi ↦ by rw [hz.inB i hi]; simp [hc],
      hz.other⟩
  | true =>
    rw [if_pos rfl]
    refine ⟨fun i hi ↦ ?_, fun i hi ↦ ?_, fun w hw ↦ ?_⟩
    · rw [Function.comp_apply]
      by_cases him : i = m
      · subst him
        rw [Equiv.swap_apply_left, hz.inB i hi]
        simp [hc]
      · have hne : x i ≠ x m := fun he ↦ him (h.injOn_x hi hm he)
        rw [Equiv.swap_apply_of_ne_of_ne hne (h.registers i hi m hm), hz.inX i hi]
        simp only [hc, true_and]
        split_ifs <;> first | rfl | omega
    · rw [Function.comp_apply]
      by_cases him : i = m
      · subst him
        rw [Equiv.swap_apply_right, hz.inX i hi]
        simp [hc]
      · have hne : b i ≠ b m := fun he ↦ him (h.injOn_b hi hm he)
        rw [Equiv.swap_apply_of_ne_of_ne (h.registers m hm i hi).symm hne, hz.inB i hi]
        simp only [hc, true_and]
        split_ifs <;> first | rfl | omega
    · rw [Function.comp_apply,
        Equiv.swap_apply_of_ne_of_ne (hw m hm).1.symm (hw m hm).2.symm, hz.other w hw]

private theorem swapped_all (h : Apart ctrl n x b anc) {z z' : ι → Bool}
    (hz : Swapped ctrl n x b n z z') : z' = if z ctrl then exchange n x b z else z := by
  cases hc : z ctrl with
  | false =>
    funext w
    rw [if_neg Bool.false_ne_true]
    by_cases hx : ∃ i < n, x i = w
    · obtain ⟨i, hi, rfl⟩ := hx
      rw [hz.inX i hi]
      simp [hc]
    · by_cases hb : ∃ i < n, b i = w
      · obtain ⟨i, hi, rfl⟩ := hb
        rw [hz.inB i hi]
        simp [hc]
      · exact hz.other w fun i hi ↦ ⟨fun he ↦ hx ⟨i, hi, he⟩, fun he ↦ hb ⟨i, hi, he⟩⟩
  | true =>
    rw [if_pos rfl]
    refine eq_place (lowFirst_injOn h.injOn_x) (fun s hs ↦ ?_) fun w hw ↦ ?_
    · rw [testBit_highFirst hs, lowFirst, hz.inX _ (by omega), if_pos ⟨hc, by omega⟩]
    · have hx : ∀ i < n, x i ≠ w := fun i hi he ↦
        hw (n - 1 - i) (by omega) (by rw [lowFirst, show n - 1 - (n - 1 - i) = i by omega, he])
      by_cases hb : ∃ i < n, b i = w
      · obtain ⟨i, hi, rfl⟩ := hb
        have hwire : b i = lowFirst n b (n - 1 - i) := by
          rw [lowFirst, show n - 1 - (n - 1 - i) = i by omega]
        rw [hz.inB i hi, if_pos ⟨hc, hi⟩, hwire, putHighFirst,
          place_wire (lowFirst_injOn h.injOn_b) (by omega), testBit_highFirst (by omega),
          show n - 1 - (n - 1 - i) = i by omega]
      · have hb' : ∀ i < n, b i ≠ w := fun i hi he ↦ hb ⟨i, hi, he⟩
        rw [putHighFirst_of_ne hb', hz.other w fun i hi ↦ ⟨hx i hi, hb' i hi⟩]

/-- **The controlled exchange of two registers.** -/
theorem meaning_cSWAPs_ket (h : Apart ctrl n x b anc) (z : ι → Bool) :
    meaning (cSWAPs ctrl n x b) (ket z) = ket (if z ctrl then exchange n x b z else z) := by
  have hloop : ∀ m ≤ n, ∃ z', Swapped ctrl n x b m z z' ∧
      meaning ((up 0 m).flatMap fun i ↦
        [.CNOT (b i) (x i), .Toffoli ctrl (x i) (b i), .CNOT (b i) (x i)]) (ket z) = ket z' := by
    intro m hm
    induction m with
    | zero =>
      exact ⟨z, ⟨fun i _ ↦ by simp, fun i _ ↦ by simp, fun _ _ ↦ rfl⟩, rfl⟩
    | succ m ih =>
      obtain ⟨z', hz', hket⟩ := ih (by omega)
      refine ⟨_, swapped_succ h hm hz', ?_⟩
      have hm' : m < n := hm
      rw [up_succ_right (Nat.zero_le m), List.flatMap_append, List.flatMap_singleton,
        meaning_append, Module.End.mul_apply, hket, meaning_cSWAP_ket (h.registers m hm' m hm')
          (h.ctrl.2 m hm').1 (h.ctrl.2 m hm').2]
  obtain ⟨z', hz', hket⟩ := hloop n le_rfl
  rw [cSWAPs, hket, swapped_all h hz']

/-! ## The multiplier -/

omit [DecidableEq ι] in
theorem Apart.symm (h : Apart ctrl n x b anc) : Apart ctrl n b x anc where
  injOn_x := h.injOn_b
  injOn_b := h.injOn_x
  registers := fun i hi j hj ↦ (h.registers j hj i hi).symm
  ctrl := ⟨h.ctrl.1, fun i hi ↦ (h.ctrl.2 i hi).symm⟩
  ancilla := fun i hi ↦ (h.ancilla i hi).symm

theorem putHighFirst_comm (h : Apart ctrl n x b anc) (u v : ℕ) (z : ι → Bool) :
    putHighFirst n b v (putHighFirst n x u z) = putHighFirst n x u (putHighFirst n b v z) := by
  have hx := lowFirst_injOn h.injOn_x
  have hne : ∀ s < n, ∀ t < n, lowFirst n b t ≠ lowFirst n x s := fun s hs t ht ↦
    (h.registers (n - 1 - s) (by omega) (n - 1 - t) (by omega)).symm
  refine eq_place hx (fun s hs ↦ ?_) fun w hw ↦ ?_
  · rw [putHighFirst, place_of_ne (hne s hs), putHighFirst, place_wire hx hs]
  · by_cases hb : ∃ t < n, lowFirst n b t = w
    · obtain ⟨t, ht, rfl⟩ := hb
      have hwire (y : ι → Bool) : putHighFirst n b v y (lowFirst n b t) = v.testBit t :=
        place_wire (lowFirst_injOn h.injOn_b) ht v y
      rw [hwire, hwire]
    · have hb' : ∀ t < n, lowFirst n b t ≠ w := fun t ht he ↦ hb ⟨t, ht, he⟩
      rw [putHighFirst, place_of_ne hb', putHighFirst, place_of_ne hw, putHighFirst,
        place_of_ne hb']

/-- A basis state with a number in the second register, a set control and no other bit set. -/
private def sample (ctrl : ι) (n : ℕ) (x : ℕ → ι) (v : ℕ) : ι → Bool :=
  Function.update (putHighFirst n x v fun _ ↦ false) ctrl true

private theorem sample_spec (h : Apart ctrl n x b anc) {v : ℕ} (hv : v < 2 ^ n) :
    sample ctrl n x v ctrl = true ∧ highFirst n x (sample ctrl n x v) = v ∧
      highFirst n b (sample ctrl n x v) = 0 ∧ sample ctrl n x v anc = false := by
  refine ⟨Function.update_self .., ?_, ?_, ?_⟩
  · have hx : highFirst n x (sample ctrl n x v)
        = highFirst n x (putHighFirst n x v fun _ ↦ false) :=
      highFirst_congr fun i hi ↦ Function.update_of_ne (h.ctrl.2 i hi).1 ..
    rw [hx, highFirst_putHighFirst h.injOn_x, Nat.mod_eq_of_lt hv]
  · refine Finset.sum_eq_zero fun i hi ↦ ?_
    have hi' := Finset.mem_range.mp hi
    rw [sample, Function.update_of_ne (h.ctrl.2 i hi').2,
      putHighFirst_of_ne fun j hj ↦ h.registers j hj i hi', Bool.toNat_false, Nat.zero_mul]
  · rw [sample, Function.update_of_ne h.ctrl.1, putHighFirst_ancilla h.symm]

/-- The multiplier adds the product exactly when the sums of the shifts are the products. -/
private theorem eqOn_addTo_iff (h : Apart ctrl n x b anc) (hN : N ≤ 2 ^ n) :
    Set.EqOn (addTo ctrl n b N fun z ↦ shiftSum undef a N n (highFirst n x z))
        (fun z ↦ if z ctrl then
          putHighFirst n b ((a * highFirst n x z + highFirst n b z) % N) z else z)
        (Reduced n x b N anc) ↔
      ∀ v < N, shiftSum undef a N n v % N = a * v % N := by
  constructor
  · intro heq v hv
    obtain ⟨hc, hx, hb, hanc⟩ := sample_spec h (hv.trans_le hN)
    have hpos : 0 < N := Nat.zero_lt_of_lt hv
    have hz := heq ⟨hx.trans_lt hv, hb.trans_lt hpos, hanc⟩
    have hnumber := congrArg (highFirst n b) hz
    simp only [addTo] at hnumber
    rwa [if_pos hc, if_pos hc, hx, hb, highFirst_putHighFirst h.injOn_b,
      highFirst_putHighFirst h.injOn_b, Nat.add_zero, Nat.add_zero,
      Nat.mod_eq_of_lt ((Nat.mod_lt _ hpos).trans_le hN),
      Nat.mod_eq_of_lt ((Nat.mod_lt _ hpos).trans_le hN)] at hnumber
  · intro heq z hz
    simp only [addTo]
    rw [Nat.add_mod, heq _ hz.1, ← Nat.add_mod]

/-- The unitary on the states with a cleared register, when the control is set. -/
private theorem takeFrom_exchange_addTo (h : Apart ctrl n x b anc) (hN : N ≤ 2 ^ n)
    {z : ι → Bool} (hc : z ctrl = true) (hx : highFirst n x z < N) (hb : highFirst n b z = 0) :
    takeFrom ctrl n b N (fun z ↦ shiftSum undef aInv N n (highFirst n x z))
        (exchange n x b (addTo ctrl n b N (fun z ↦ shiftSum undef a N n (highFirst n x z)) z)) =
      putHighFirst n x (shiftSum undef a N n (highFirst n x z) % N)
        (putHighFirst n b ((highFirst n x z +
          (N - shiftSum undef aInv N n (shiftSum undef a N n (highFirst n x z) % N) % N)) % N)
          z) := by
  set v := highFirst n x z with hv
  set t := shiftSum undef a N n v % N with ht
  have htN : t < N := Nat.mod_lt _ (Nat.zero_lt_of_lt hx)
  have hadd : addTo ctrl n b N (fun z ↦ shiftSum undef a N n (highFirst n x z)) z =
      putHighFirst n b t z := by
    rw [addTo, if_pos hc, hb, Nat.add_zero, ht, hv]
  have hexchange : exchange n x b (putHighFirst n b t z) =
      putHighFirst n x t (putHighFirst n b v z) := by
    rw [exchange, highFirst_putHighFirst h.injOn_b, highFirst_other h,
      putHighFirst_putHighFirst h.injOn_b, Nat.mod_eq_of_lt (htN.trans_le hN)]
  have hctrl : putHighFirst n x t (putHighFirst n b v z) ctrl = true := by
    rw [putHighFirst_ctrl h.symm, putHighFirst_ctrl h, hc]
  rw [hadd, hexchange, takeFrom, if_pos hctrl, highFirst_other h.symm,
    highFirst_putHighFirst h.injOn_b, highFirst_putHighFirst h.injOn_x,
    Nat.mod_eq_of_lt (htN.trans_le hN), Nat.mod_eq_of_lt (hx.trans_le hN), putHighFirst_comm h,
    putHighFirst_putHighFirst h.injOn_b]

private theorem add_sub_mod_eq_zero_iff {v r : ℕ} (hv : v < N) (hr : r < N) :
    (v + (N - r)) % N = 0 ↔ r = v := by
  rcases lt_or_ge v r with hlt | hle
  · rw [Nat.mod_eq_of_lt (by omega)]
    omega
  · rw [show v + (N - r) = v - r + N by omega, Nat.add_mod_right, Nat.mod_eq_of_lt (by omega)]
    omega

/-- The unitary multiplies exactly when both sums of shifts do what they are for. -/
private theorem eqOn_unitary_iff (h : Apart ctrl n x b anc) (hN : N ≤ 2 ^ n) :
    Set.EqOn (takeFrom ctrl n b N (fun z ↦ shiftSum undef aInv N n (highFirst n x z)) ∘
          (fun z ↦ if z ctrl then exchange n x b z else z) ∘
          addTo ctrl n b N fun z ↦ shiftSum undef a N n (highFirst n x z))
        (fun z ↦ if z ctrl then putHighFirst n x (a * highFirst n x z % N) z else z)
        {z | highFirst n x z < N ∧ highFirst n b z = 0 ∧ z anc = false} ↔
      ∀ v < N, shiftSum undef a N n v % N = a * v % N ∧
        shiftSum undef aInv N n (shiftSum undef a N n v % N) % N = v := by
  have hset {z : ι → Bool} (hc : z ctrl = true) :
      addTo ctrl n b N (fun z ↦ shiftSum undef a N n (highFirst n x z)) z ctrl = true := by
    rw [addTo, if_pos hc, putHighFirst_ctrl h, hc]
  constructor
  · intro heq v hv
    have hpos : 0 < N := Nat.zero_lt_of_lt hv
    obtain ⟨hc, hx, hb, hanc⟩ := sample_spec h (hv.trans_le hN)
    have hz := heq ⟨hx.trans_lt hv, hb, hanc⟩
    simp only [Function.comp_apply] at hz
    rw [if_pos (hset hc), takeFrom_exchange_addTo h hN hc (hx.trans_lt hv) hb, if_pos hc, hx] at hz
    have hnumber := congrArg (highFirst n x) hz
    have hrest := congrArg (highFirst n b) hz
    rw [highFirst_putHighFirst h.injOn_x, highFirst_putHighFirst h.injOn_x,
      Nat.mod_eq_of_lt ((Nat.mod_lt _ hpos).trans_le hN),
      Nat.mod_eq_of_lt ((Nat.mod_lt _ hpos).trans_le hN)] at hnumber
    rw [highFirst_other h.symm, highFirst_other h.symm, hb, highFirst_putHighFirst h.injOn_b,
      Nat.mod_eq_of_lt ((Nat.mod_lt _ hpos).trans_le hN),
      add_sub_mod_eq_zero_iff hv (Nat.mod_lt _ hpos)] at hrest
    exact ⟨hnumber, hrest⟩
  · intro heq z hz
    simp only [Function.comp_apply]
    cases hc : z ctrl with
    | false => simp [takeFrom, addTo, hc]
    | true =>
      obtain ⟨hx, hb, -⟩ := hz
      obtain ⟨hsum, hback⟩ := heq _ hx
      have hzero := (add_sub_mod_eq_zero_iff hx (Nat.mod_lt _ (Nat.zero_lt_of_lt hx))).mpr hback
      rw [if_pos (hset hc), takeFrom_exchange_addTo h hN hc hx hb, if_pos rfl, hzero, ← hb,
        putHighFirst_highFirst h.injOn_b, hsum]

/-- **What the unitary does** on the states with a cleared register. -/
private theorem mapsOn_cUa (h : Apart ctrl n x b anc) (hN : 2 * N ≤ 2 ^ n) (undef : ℕ → ℕ → ℕ)
    (a aInv : ℕ) (dummy : ι) :
    MapsOn {z | highFirst n x z < N ∧ highFirst n b z = 0 ∧ z anc = false}
      (meaning (cUa undef ctrl n a aInv x b N anc dummy)) ket
      (takeFrom ctrl n b N (fun z ↦ shiftSum undef aInv N n (highFirst n x z)) ∘
        (fun z ↦ if z ctrl then exchange n x b z else z) ∘
        addTo ctrl n b N fun z ↦ shiftSum undef a N n (highFirst n x z)) ket := by
  have hN' : N ≤ 2 ^ n := by omega
  have hswaps : MapsOn (Reduced n x b N anc) (meaning (cSWAPs ctrl n x b)) ket
      (fun z ↦ if z ctrl then exchange n x b z else z) ket :=
    (Maps.of_eq fun z ↦ meaning_cSWAPs_ket h z).mapsOn _
  have hexchange : Set.MapsTo (fun z ↦ if z ctrl then exchange n x b z else z)
      (Reduced n x b N anc) (Reduced n x b N anc) := by
    intro z hz
    obtain ⟨hx, hb, hanc⟩ := hz
    simp only
    split_ifs
    · have hfirst := putHighFirst_mem_Reduced h _ z hN' hx ⟨hx, hb, hanc⟩
      refine ⟨?_, ?_, (putHighFirst_ancilla h.symm _ _).trans hfirst.2.2⟩
      · rw [exchange, highFirst_putHighFirst h.injOn_x, Nat.mod_eq_of_lt (hb.trans_le hN')]
        exact hb
      · exact (highFirst_other h.symm _ _).trans_lt hfirst.2.1
    · exact ⟨hx, hb, hanc⟩
  have hclear : {z | highFirst n x z < N ∧ highFirst n b z = 0 ∧ z anc = false} ⊆
      Reduced n x b N anc :=
    fun z hz ↦ ⟨hz.1, hz.2.1.trans_lt (Nat.zero_lt_of_lt hz.1), hz.2.2⟩
  have hmaps := ((mapsOn_cMODMUL h hN undef a dummy).comp
    (fun z hz ↦ addTo_mem_Reduced h hN' _ hz) (hswaps.comp hexchange
      (mapsOn_ciMODMUL h hN undef aInv dummy))).mono hclear
  rw [cUa, meaning_append, meaning_append, ← mul_assoc]
  exact hmaps

private theorem shiftSum_inverse_iff (hN : N < 2 ^ 32) (hn : N ≤ 2 ^ n)
    (hinv : a * aInv % N = 1 % N) :
    ((∀ v < N, shiftSum undef a N n v % N = a * v % N) ∧
        ∀ v < N, shiftSum undef a N n v % N = a * v % N ∧
          shiftSum undef aInv N n (shiftSum undef a N n v % N) % N = v) ↔
      ShiftsFit N a ∧ ShiftsFit N aInv := by
  have hcancel {v : ℕ} (hv : v < N) : aInv * (a * v % N) % N = v := by
    rw [Nat.mul_mod_mod, ← Nat.mul_assoc, Nat.mul_comm aInv a, ← Nat.mod_mul_mod, hinv,
      Nat.mod_mul_mod, Nat.one_mul, Nat.mod_eq_of_lt hv]
  have hcancel' {v : ℕ} (hv : v < N) : a * (aInv * v % N) % N = v := by
    rw [Nat.mul_mod_mod, ← Nat.mul_assoc, ← Nat.mod_mul_mod, hinv, Nat.mod_mul_mod, Nat.one_mul,
      Nat.mod_eq_of_lt hv]
  rw [← shiftSum_mod_iff undef a hN hn, ← shiftSum_mod_iff undef aInv hN hn]
  constructor
  · rintro ⟨ha, hboth⟩
    refine ⟨ha, fun v hv ↦ ?_⟩
    have hlt : aInv * v % N < N := Nat.mod_lt _ (Nat.zero_lt_of_lt hv)
    have hback := (hboth _ hlt).2
    rwa [ha _ hlt, hcancel' hv] at hback
  · rintro ⟨ha, ha'⟩
    refine ⟨ha, fun v hv ↦ ⟨ha v hv, ?_⟩⟩
    rw [ha v hv, ha' _ (Nat.mod_lt _ (Nat.zero_lt_of_lt hv)), hcancel hv]

private theorem multiplies_iff (h : Apart ctrl n x b anc) (hn : 2 * N ≤ 2 ^ n) (hN : N < 2 ^ 32)
    (hinv : a * aInv % N = 1 % N) (undef : ℕ → ℕ → ℕ) (dummy : ι) :
    (MapsOn (Reduced n x b N anc) (meaning (cMODMUL undef ctrl n a x b N anc dummy)) ket
          (fun z ↦ if z ctrl then
            putHighFirst n b ((a * highFirst n x z + highFirst n b z) % N) z else z) ket ∧
        MapsOn {z | highFirst n x z < N ∧ highFirst n b z = 0 ∧ z anc = false}
          (meaning (cUa undef ctrl n a aInv x b N anc dummy)) ket
          (fun z ↦ if z ctrl then putHighFirst n x (a * highFirst n x z % N) z else z) ket) ↔
      ShiftsFit N a ∧ ShiftsFit N aInv := by
  have hN' : N ≤ 2 ^ n := by omega
  rw [(mapsOn_cMODMUL h hn undef a dummy).iff_eqOn, (mapsOn_cUa h hn undef a aInv dummy).iff_eqOn,
    eqOn_addTo_iff h hN', eqOn_unitary_iff h hN', shiftSum_inverse_iff hN hN' hinv]

/-- **The modular multiplier** multiplies and adds, and the unitary multiplies in place, up to one
phase, exactly when what the shifts of the constants lose is a multiple of the modulus. -/
theorem modularMultiplier_iff (h : Apart ctrl n x b anc) (hn : 2 * N ≤ 2 ^ n) (hN : N < 2 ^ 32)
    (hinv : a * aInv % N = 1 % N) (undef : ℕ → ℕ → ℕ) (dummy : ι) :
    ((∃ g : ℂ, ‖g‖ = 1 ∧ ∀ z, highFirst n x z < N ∧ highFirst n b z < N ∧ z anc = false →
          meaning (cMODMUL undef ctrl n a x b N anc dummy) (ket z) = g • ket
            (if z ctrl then
              putHighFirst n b ((a * highFirst n x z + highFirst n b z) % N) z else z)) ∧
        ∃ g : ℂ, ‖g‖ = 1 ∧ ∀ z, highFirst n x z < N ∧ highFirst n b z = 0 ∧ z anc = false →
          meaning (cUa undef ctrl n a aInv x b N anc dummy) (ket z) = g • ket
            (if z ctrl then putHighFirst n x (a * highFirst n x z % N) z else z)) ↔
      ShiftsFit N a ∧ ShiftsFit N aInv :=
  multiplies_iff h hn hN hinv undef dummy

/-- Wires for registers of `n` qubits, a control and an ancilla. -/
private theorem apart_sample {ctrl anc : ℕ} (hctrl : 2 * n ≤ ctrl) (hanc : ctrl < anc) :
    Apart ctrl n (fun i ↦ i) (fun i ↦ n + i) anc where
  injOn_x := fun _ _ _ _ h ↦ h
  injOn_b := fun i _ j _ h ↦ Nat.add_left_cancel h
  registers := fun i hi j hj ↦ by omega
  ctrl := ⟨by omega, fun i hi ↦ ⟨by omega, by omega⟩⟩
  ancilla := fun i hi ↦ ⟨by omega, by omega⟩

theorem modularMultiplier_iff_fifteen :
    ((∃ g : ℂ, ‖g‖ = 1 ∧ ∀ z : ℕ → Bool,
          highFirst 5 (fun i ↦ i) z < 15 ∧ highFirst 5 (fun i ↦ 5 + i) z < 15 ∧ z 11 = false →
          meaning (cMODMUL (fun _ _ ↦ 0) 10 5 7 (fun i ↦ i) (fun i ↦ 5 + i) 15 11 0) (ket z) =
            g • ket (if z 10 then putHighFirst 5 (fun i ↦ 5 + i) ((7 * highFirst 5 (fun i ↦ i) z +
              highFirst 5 (fun i ↦ 5 + i) z) % 15) z else z)) ∧
        ∃ g : ℂ, ‖g‖ = 1 ∧ ∀ z : ℕ → Bool,
          highFirst 5 (fun i ↦ i) z < 15 ∧ highFirst 5 (fun i ↦ 5 + i) z = 0 ∧ z 11 = false →
          meaning (cUa (fun _ _ ↦ 0) 10 5 7 13 (fun i ↦ i) (fun i ↦ 5 + i) 15 11 0) (ket z) =
            g • ket (if z 10 then
              putHighFirst 5 (fun i ↦ i) (7 * highFirst 5 (fun i ↦ i) z % 15) z else z)) ↔
      ShiftsFit 15 7 ∧ ShiftsFit 15 13 :=
  modularMultiplier_iff (apart_sample (by norm_num) (by norm_num)) (by norm_num) (by norm_num)
    (by norm_num) (fun _ _ ↦ 0) 0

/-- `65536 << 16` is zero in 32 bits, but no multiple of `131071`. -/
theorem not_multiplies_65536 :
    ¬((∃ g : ℂ, ‖g‖ = 1 ∧ ∀ z : ℕ → Bool,
          highFirst 18 (fun i ↦ i) z < 131071 ∧ highFirst 18 (fun i ↦ 18 + i) z < 131071 ∧
            z 37 = false →
          meaning (cMODMUL (fun _ _ ↦ 0) 36 18 65536 (fun i ↦ i) (fun i ↦ 18 + i) 131071 37 0)
            (ket z) =
            g • ket (if z 36 then putHighFirst 18 (fun i ↦ 18 + i)
              ((65536 * highFirst 18 (fun i ↦ i) z + highFirst 18 (fun i ↦ 18 + i) z) % 131071) z
              else z)) ∧
        ∃ g : ℂ, ‖g‖ = 1 ∧ ∀ z : ℕ → Bool,
          highFirst 18 (fun i ↦ i) z < 131071 ∧ highFirst 18 (fun i ↦ 18 + i) z = 0 ∧
            z 37 = false →
          meaning (cUa (fun _ _ ↦ 0) 36 18 65536 2 (fun i ↦ i) (fun i ↦ 18 + i) 131071 37 0)
            (ket z) =
            g • ket (if z 36 then
              putHighFirst 18 (fun i ↦ i) (65536 * highFirst 18 (fun i ↦ i) z % 131071) z
              else z)) := by
  intro hmul
  have hapart : Apart 36 18 (fun i ↦ i) (fun i ↦ 18 + i) 37 :=
    apart_sample (by norm_num) (by norm_num)
  have hfit := (multiplies_iff hapart (by norm_num) (by norm_num) (by norm_num) (fun _ _ ↦ 0)
    0).mp hmul
  have hdvd := hfit.1 16 (by norm_num)
  norm_num at hdvd

end ScaffCC.Shors
