import ScaffCC.Shors.Adder

/-!
# Adding a constant modulo a number

The modular adder adds the constant, subtracts the modulus and reads the highest bit of the register
into the ancilla, which says whether the modulus is to be added again. Whether it was is then seen
from the sum alone: the constant is subtracted once more, and the ancilla is cleared by the highest
bit of the difference.

Between the steps the register is a Fourier state or a ket with a number, so that the whole circuit
is followed on the numbers and the ancilla.
-/

namespace ScaffCC.Shors

open Quantum

variable {ι : Type*}

/-! ## The source -/

/-- The dummy qubit is passed for controls that are not in use. -/
def cMODADD (ctrl0 ctrl1 : ι) (width a : ℕ) (b : ℕ → ι) (N : ℕ) (ancilla dummy : ι) :
    List (Gate ι) :=
  [cADD 2 ctrl0 ctrl1 width a b, ciADD 0 dummy dummy width N b, iQFT width b,
    [.CNOT (b 0) ancilla], QFT width b, cADD 1 ancilla dummy width N b,
    ciADD 2 ctrl0 ctrl1 width a b, iQFT width b, [.X (b 0), .CNOT (b 0) ancilla, .X (b 0)],
    QFT width b, cADD 2 ctrl0 ctrl1 width a b].flatten

def ciMODADD (ctrl0 ctrl1 : ι) (width a : ℕ) (b : ℕ → ι) (N : ℕ) (ancilla dummy : ι) :
    List (Gate ι) :=
  [ciADD 2 ctrl0 ctrl1 width a b, iQFT width b, [.X (b 0), .CNOT (b 0) ancilla, .X (b 0)],
    QFT width b, cADD 2 ctrl0 ctrl1 width a b, ciADD 1 ancilla dummy width N b, iQFT width b,
    [.CNOT (b 0) ancilla], QFT width b, cADD 0 dummy dummy width N b,
    ciADD 2 ctrl0 ctrl1 width a b].flatten

/-- The qubits of a modular adder are different. -/
structure Separate (ctrl0 ctrl1 : ι) (width : ℕ) (b : ℕ → ι) (ancilla : ι) : Prop where
  injOn : Set.InjOn b (Set.Iio width)
  ctrls : ctrl0 ≠ ctrl1
  ctrl0 : ancilla ≠ ctrl0 ∧ ∀ i < width, b i ≠ ctrl0
  ctrl1 : ancilla ≠ ctrl1 ∧ ∀ i < width, b i ≠ ctrl1
  ancilla : ∀ i < width, b i ≠ ancilla

variable {c₀ c₁ : ι} {n : ℕ} {b : ℕ → ι} {anc : ι}

theorem Separate.controlled (h : Separate c₀ c₁ n b anc) : Controlled 2 c₀ c₁ n b := by
  refine ⟨le_rfl, by simpa [controls] using h.ctrls, fun c hc i hi ↦ ?_⟩
  have hc' : c = c₀ ∨ c = c₁ := by simpa [controls] using hc
  rcases hc' with rfl | rfl
  · exact h.ctrl0.2 i hi
  · exact h.ctrl1.2 i hi

theorem Separate.controlled_ancilla (h : Separate c₀ c₁ n b anc) (dummy : ι) :
    Controlled 1 anc dummy n b := by
  refine ⟨one_le_two, by simp [controls], fun c hc i hi ↦ ?_⟩
  have hc' : c = anc := by simpa [controls] using hc
  exact hc' ▸ h.ancilla i hi

theorem controlled_zero (c d : ι) : Controlled 0 c d n b :=
  ⟨zero_le_two, by simp [controls], by simp [controls]⟩

variable [DecidableEq ι]

/-! ## Subtraction -/

theorem highFirst_putHighFirst (hb : Set.InjOn b (Set.Iio n)) (v : ℕ) (x : ι → Bool) :
    highFirst n b (putHighFirst n b v x) = v % 2 ^ n := by
  rw [← number_lowFirst, putHighFirst, number_place (lowFirst_injOn hb)]

theorem putHighFirst_putHighFirst (hb : Set.InjOn b (Set.Iio n)) (v w : ℕ) (x : ι → Bool) :
    putHighFirst n b v (putHighFirst n b w x) = putHighFirst n b v x :=
  place_place (lowFirst_injOn hb) v w x

theorem putHighFirst_highFirst (hb : Set.InjOn b (Set.Iio n)) (x : ι → Bool) :
    putHighFirst n b (highFirst n b x) x = x := by
  rw [putHighFirst, ← number_lowFirst, place_number (lowFirst_injOn hb)]

omit [DecidableEq ι] in
theorem highFirst_lt (n : ℕ) (b : ℕ → ι) (x : ι → Bool) : highFirst n b x < 2 ^ n :=
  number_lowFirst n b x ▸ number_lt _ n x

/-- The difference in the register when all controls in use are set. -/
def subWhen (cw : ℕ) (c₀ c₁ : ι) (n a : ℕ) (b : ℕ → ι) (x : ι → Bool) : ι → Bool :=
  if allSet cw c₀ c₁ x then
    putHighFirst n b ((highFirst n b x + (2 ^ n - a % 2 ^ n)) % 2 ^ n) x
  else x

theorem addWhen_subWhen {cw : ℕ} (hb : Set.InjOn b (Set.Iio n)) (h : Controlled cw c₀ c₁ n b)
    (a : ℕ) (x : ι → Bool) : addWhen cw c₀ c₁ n a b (subWhen cw c₀ c₁ n a b x) = x := by
  rw [subWhen]
  split_ifs with hset
  · have hlt := highFirst_lt n b x
    have ha : a % 2 ^ n < 2 ^ n := Nat.mod_lt _ (Nat.two_pow_pos n)
    have hsum : ((highFirst n b x + (2 ^ n - a % 2 ^ n)) % 2 ^ n % 2 ^ n + a) % 2 ^ n =
        highFirst n b x := by
      rw [Nat.mod_mod, Nat.mod_add_mod, ← Nat.add_mod_mod,
        show highFirst n b x + (2 ^ n - a % 2 ^ n) + a % 2 ^ n = highFirst n b x + 2 ^ n by omega,
        Nat.add_mod_right, Nat.mod_eq_of_lt hlt]
    rw [addWhen, allSet_place h, if_pos hset, highFirst_putHighFirst hb,
      putHighFirst_putHighFirst hb, hsum, putHighFirst_highFirst hb]
  · rw [addWhen, if_neg hset]

theorem maps_ciADD {cw : ℕ} (hb : Set.InjOn b (Set.Iio n)) (h : Controlled cw c₀ c₁ n b) (a : ℕ) :
    Maps (meaning (ciADD cw c₀ c₁ n a b)) (fourierState (lowFirst n b) n) (subWhen cw c₀ c₁ n a b)
      (fourierState (lowFirst n b) n) :=
  (maps_cADD hb h a).of_leftInverse (meaning_ciADD_mul_cADD h a) (addWhen_subWhen hb h a)

/-! ## The highest bit -/

theorem operator_CNOT_mul_self {c t : ι} (h : c ≠ t) :
    meaning [.CNOT c t] * meaning [.CNOT c t] = 1 := by
  simp only [meaning_cons, meaning_nil, one_mul, Gate.operator]
  exact flip_mul_self (indep_of_ne h)

/-- A negation between two negations of its control. -/
theorem meaning_X_CNOT_X {c t : ι} (h : c ≠ t) :
    meaning [.X c, .CNOT c t, .X c] = flip ℂ t fun x ↦ !x c := by
  simp only [meaning_cons, meaning_nil, one_mul, Gate.operator, onWire_pauliX]
  ext ψ x
  simp only [Module.End.mul_apply, flip_apply, flipWhen, Bool.xor_true, Function.update_self,
    Function.update_of_ne h, Function.update_of_ne h.symm]
  congr 1
  funext i
  by_cases hc : i = c
  · subst hc
    simp [h]
  · by_cases ht : i = t
    · subst ht
      rw [Function.update_of_ne hc, Function.update_self, Function.update_self]
    · simp [hc, ht]

/-! ## The numbers and the ancilla -/

/-- A basis state with a number in the register and a bit in the ancilla. -/
def withSum (n : ℕ) (b : ℕ → ι) (anc : ι) (x : ι → Bool) (j : ℕ) (α : Bool) : ι → Bool :=
  Function.update (putHighFirst n b j x) anc α

section Steps

variable (h : Separate c₀ c₁ n b anc) (x : ι → Bool)

include h

theorem highFirst_withSum {j : ℕ} (hj : j < 2 ^ n) (α : Bool) :
    highFirst n b (withSum n b anc x j α) = j := by
  have hne : ∀ s < n, lowFirst n b s ≠ anc := fun s hs ↦ h.ancilla (n - 1 - s) (by omega)
  rw [withSum, ← number_lowFirst, number_update hne, number_lowFirst,
    highFirst_putHighFirst h.injOn, Nat.mod_eq_of_lt hj]

theorem putHighFirst_withSum (k j : ℕ) (α : Bool) :
    putHighFirst n b k (withSum n b anc x j α) = withSum n b anc x k α := by
  have hne : ∀ s < n, lowFirst n b s ≠ anc := fun s hs ↦ h.ancilla (n - 1 - s) (by omega)
  rw [withSum, putHighFirst, place_update hne, ← putHighFirst, putHighFirst_putHighFirst h.injOn,
    withSum]

theorem withSum_self (hx : x anc = false) : withSum n b anc x (highFirst n b x) false = x := by
  rw [withSum, putHighFirst_highFirst h.injOn, ← hx, Function.update_eq_self]

theorem allSet_withSum (j : ℕ) (α : Bool) :
    allSet 2 c₀ c₁ (withSum n b anc x j α) = (x c₀ && x c₁) := by
  have hplace := allSet_place h.controlled j x
  have hset (y : ι → Bool) : allSet 2 c₀ c₁ y = (y c₀ && y c₁) := by
    simp [allSet, controls]
  rw [hset, hset] at hplace
  rw [hset, withSum, Function.update_of_ne h.ctrl0.1.symm, Function.update_of_ne h.ctrl1.1.symm,
    hplace]

omit h in
theorem allSet_ancilla (dummy : ι) (j : ℕ) (α : Bool) :
    allSet 1 anc dummy (withSum n b anc x j α) = α := by
  simp [allSet, controls, withSum]

theorem highest_withSum (hn : 0 < n) {j : ℕ} (hj : j < 2 ^ n) (α : Bool) :
    withSum n b anc x j α (b 0) = decide (2 ^ (n - 1) ≤ j) := by
  have hwire : b 0 = lowFirst n b (n - 1) := by
    rw [lowFirst, Nat.sub_self]
  have hpow : 2 ^ n = 2 ^ (n - 1) * 2 := by
    rw [← pow_succ, Nat.sub_add_cancel hn]
  rw [withSum, Function.update_of_ne (h.ancilla 0 hn), hwire, putHighFirst,
    place_wire (lowFirst_injOn h.injOn) (by omega), Nat.testBit_eq_decide_div_mod_eq]
  by_cases hle : 2 ^ (n - 1) ≤ j
  · have hdiv : j / 2 ^ (n - 1) = 1 := by
      rw [Nat.div_eq_iff (Nat.two_pow_pos _)]
      omega
    simp [hle, hdiv]
  · rw [Nat.div_eq_of_lt (not_le.mp hle)]
    simp [hle]

omit h in
theorem flipWhen_withSum (p : (ι → Bool) → Bool) (j : ℕ) (α : Bool) :
    flipWhen anc p (withSum n b anc x j α) =
      withSum n b anc x j (α ^^ p (withSum n b anc x j α)) := by
  rw [flipWhen]
  simp only [withSum, Function.update_self, Function.update_idem]

theorem addWhen_withSum {cw : ℕ} {c d : ι} {j : ℕ} (hj : j < 2 ^ n) (a : ℕ) (α : Bool) :
    addWhen cw c d n a b (withSum n b anc x j α) =
      withSum n b anc x (if allSet cw c d (withSum n b anc x j α) then (j + a) % 2 ^ n else j)
        α := by
  rw [addWhen, highFirst_withSum h x hj, putHighFirst_withSum h]
  split_ifs <;> rfl

theorem subWhen_withSum {cw : ℕ} {c d : ι} {j : ℕ} (hj : j < 2 ^ n) (a : ℕ) (α : Bool) :
    subWhen cw c d n a b (withSum n b anc x j α) =
      withSum n b anc x
        (if allSet cw c d (withSum n b anc x j α) then (j + (2 ^ n - a % 2 ^ n)) % 2 ^ n else j)
        α := by
  rw [subWhen, highFirst_withSum h x hj, putHighFirst_withSum h]
  split_ifs <;> rfl

end Steps

/-! ## The circuit -/

/-- What the circuit does to the basis states whose Fourier states it is given. -/
private def modAdd (c₀ c₁ : ι) (n a : ℕ) (b : ℕ → ι) (N : ℕ) (anc dummy : ι) :
    (ι → Bool) → ι → Bool :=
  addWhen 2 c₀ c₁ n a b ∘ id ∘ flipWhen anc (fun x ↦ !x (b 0)) ∘ id ∘ subWhen 2 c₀ c₁ n a b ∘
    addWhen 1 anc dummy n N b ∘ id ∘ flipWhen anc (fun x ↦ x (b 0)) ∘ id ∘
    subWhen 0 dummy dummy n N b ∘ addWhen 2 c₀ c₁ n a b

private theorem maps_cMODADD_modAdd (h : Separate c₀ c₁ n b anc) (hn : 0 < n) (a N : ℕ)
    (dummy : ι) :
    Maps (meaning (cMODADD c₀ c₁ n a b N anc dummy)) (fourierState (lowFirst n b) n)
      (modAdd c₀ c₁ n a b N anc dummy) (fourierState (lowFirst n b) n) := by
  have hb := h.injOn
  have htop : b 0 ≠ anc := h.ancilla 0 hn
  have hread : Maps (meaning [.CNOT (b 0) anc]) ket (flipWhen anc fun x ↦ x (b 0)) ket :=
    .of_eq fun x ↦ flip_ket (indep_of_ne htop) x
  have hclear : Maps (meaning [.X (b 0), .CNOT (b 0) anc, .X (b 0)]) ket
      (flipWhen anc fun x ↦ !x (b 0)) ket := by
    refine .of_eq fun x ↦ ?_
    rw [meaning_X_CNOT_X htop]
    exact flip_ket (fun x b' ↦ congrArg not (indep_of_ne htop x b')) x
  have hadd := maps_cADD hb h.controlled a
  have hsub := maps_ciADD hb h.controlled a
  have hmaps := (((((((((hadd.comp (maps_ciADD hb (controlled_zero dummy dummy) N)).comp
    (maps_iQFT hb)).comp hread).comp (maps_QFT hb)).comp
    (maps_cADD hb (h.controlled_ancilla dummy) N)).comp hsub).comp (maps_iQFT hb)).comp
    hclear).comp (maps_QFT hb)).comp hadd
  simpa only [cMODADD, List.flatten_cons, List.flatten_nil, List.append_nil, meaning_append,
    mul_assoc, modAdd] using hmaps

/-- The constant is taken off the reduced sum: the result is below zero when it was reduced. -/
private theorem sub_again {C : Bool} {a N v w M : ℕ} (hN : 2 * N ≤ M) (ha : a < N) (hv : v < N)
    (hw : w = if C then v + a else v) :
    (if C then ((if w < N then w else w - N) + (M - a)) % M else if w < N then w else w - N) =
      if w < N then v else v + M - N := by
  cases C with
  | false =>
    have hwv : w = v := hw
    rw [if_neg Bool.false_ne_true, hwv, if_pos hv, if_pos hv]
  | true =>
    have hwv : w = v + a := hw
    rw [if_pos rfl]
    split_ifs with hwN
    · rw [show w + (M - a) = v + M by omega, Nat.add_mod_right, Nat.mod_eq_of_lt (by omega)]
    · rw [show w - N + (M - a) = v + M - N by omega, Nat.mod_eq_of_lt (by omega)]

private theorem add_again {C : Bool} {a N v w M : ℕ} (hN : 2 * N ≤ M) (ha : a < N) (hv : v < N)
    (hw : w = if C then v + a else v) :
    (if C then ((if w < N then v else v + M - N) + a) % M else if w < N then v else v + M - N) =
      if w < N then w else w - N := by
  cases C with
  | false =>
    have hwv : w = v := hw
    rw [if_neg Bool.false_ne_true, hwv, if_pos hv, if_pos hv]
  | true =>
    have hwv : w = v + a := hw
    rw [if_pos rfl]
    split_ifs with hwN
    · rw [← hwv, Nat.mod_eq_of_lt (by omega)]
    · rw [show v + M - N + a = w - N + M by omega, Nat.add_mod_right, Nat.mod_eq_of_lt (by omega)]

/-- The numbers after each step: `w` is the sum, and the ancilla says whether it is below `N`. -/
private theorem modAdd_withSum (h : Separate c₀ c₁ n b anc) {a N v w : ℕ} (hn : 0 < n)
    (hN : 2 * N ≤ 2 ^ n) (ha : a < N) (hv : v < N) {x : ι → Bool}
    (hw : w = if x c₀ && x c₁ then v + a else v) (dummy : ι) :
    modAdd c₀ c₁ n a b N anc dummy (withSum n b anc x v false) =
      withSum n b anc x (if w < N then w else w - N) false := by
  have hpow : 2 ^ n = 2 * 2 ^ (n - 1) := by
    rw [← pow_succ', Nat.sub_add_cancel hn]
  have hlt : w < 2 * N := by
    rw [hw]
    split_ifs <;> omega
  have hmodN : N % 2 ^ n = N := Nat.mod_eq_of_lt (by omega)
  have hmoda : a % 2 ^ n = a := Nat.mod_eq_of_lt (by omega)
  have hadd : addWhen 2 c₀ c₁ n a b (withSum n b anc x v false) = withSum n b anc x w false := by
    rw [addWhen_withSum h x (by omega), allSet_withSum h, Nat.mod_eq_of_lt (by omega), ← hw]
  set j := if w < N then w + 2 ^ n - N else w - N with hj
  have hsubN : subWhen 0 dummy dummy n N b (withSum n b anc x w false) =
      withSum n b anc x j false := by
    have hset (y : ι → Bool) : allSet 0 dummy dummy y = true := rfl
    rw [subWhen_withSum h x (by omega), hset, if_pos rfl, hmodN, hj]
    congr 1
    split_ifs with hwN
    · rw [Nat.mod_eq_of_lt (by omega)]
      omega
    · rw [show w + (2 ^ n - N) = w - N + 2 ^ n by omega, Nat.add_mod_right,
        Nat.mod_eq_of_lt (by omega)]
  have hjlt : j < 2 ^ n := by
    rw [hj]
    split_ifs <;> omega
  have hread : flipWhen anc (fun x ↦ x (b 0)) (withSum n b anc x j false) =
      withSum n b anc x j (decide (w < N)) := by
    rw [flipWhen_withSum, highest_withSum h x hn hjlt, Bool.false_xor]
    congr 1
    rw [decide_eq_decide, hj]
    split_ifs <;> omega
  set k := if w < N then w else w - N with hk
  have haddN : addWhen 1 anc dummy n N b (withSum n b anc x j (decide (w < N))) =
      withSum n b anc x k (decide (w < N)) := by
    rw [addWhen_withSum h x hjlt, allSet_ancilla, hk, hj]
    congr 1
    simp only [decide_eq_true_eq]
    split_ifs with hwN
    · rw [show w + 2 ^ n - N + N = w + 2 ^ n by omega, Nat.add_mod_right,
        Nat.mod_eq_of_lt (by omega)]
    · rfl
  have hklt : k < 2 ^ n := by
    rw [hk]
    split_ifs <;> omega
  -- the constant is taken off again: this is the old number, or it is below zero
  set l := if w < N then v else v + 2 ^ n - N with hl
  have hsub : subWhen 2 c₀ c₁ n a b (withSum n b anc x k (decide (w < N))) =
      withSum n b anc x l (decide (w < N)) := by
    rw [subWhen_withSum h x hklt, allSet_withSum h, hmoda, hk, hl, sub_again hN ha hv hw]
  have hllt : l < 2 ^ n := by
    rw [hl]
    split_ifs <;> omega
  have hclear : flipWhen anc (fun x ↦ !x (b 0)) (withSum n b anc x l (decide (w < N))) =
      withSum n b anc x l false := by
    rw [flipWhen_withSum, highest_withSum h x hn hllt]
    congr 1
    by_cases hwN : w < N
    · have hlow : ¬ 2 ^ (n - 1) ≤ l := by
        rw [hl, if_pos hwN]
        omega
      simp [hwN, hlow]
    · have hhigh : 2 ^ (n - 1) ≤ l := by
        rw [hl, if_neg hwN]
        omega
      simp [hwN, hhigh]
  have hadd' : addWhen 2 c₀ c₁ n a b (withSum n b anc x l false) = withSum n b anc x k false := by
    rw [addWhen_withSum h x hllt, allSet_withSum h, hl, hk, add_again hN ha hv hw]
  simp only [modAdd, Function.comp_apply, id]
  rw [hadd, hsubN, hread, haddN, hsub, hclear, hadd']

private theorem modAdd_eq (h : Separate c₀ c₁ n b anc) {a N : ℕ} (hN : 2 * N ≤ 2 ^ n) (ha : a < N)
    {x : ι → Bool} (hx : highFirst n b x < N) (hanc : x anc = false) (dummy : ι) :
    modAdd c₀ c₁ n a b N anc dummy x =
      if x c₀ && x c₁ then putHighFirst n b ((a + highFirst n b x) % N) x else x := by
  have hn : 0 < n := by
    rcases Nat.eq_zero_or_pos n with rfl | hn
    · omega
    · exact hn
  have hsum := modAdd_withSum h hn hN ha hx (x := x) rfl dummy
  rw [withSum_self h x hanc] at hsum
  rw [hsum]
  cases hC : x c₀ && x c₁ with
  | false =>
    rw [if_neg Bool.false_ne_true, if_neg Bool.false_ne_true, if_pos hx, withSum_self h x hanc]
  | true =>
    have hput (j : ℕ) : withSum n b anc x j false = putHighFirst n b j x := by
      have hne : ∀ s < n, lowFirst n b s ≠ anc := fun s hs ↦ h.ancilla (n - 1 - s) (by omega)
      rw [withSum, ← hanc, ← place_of_ne hne j x, ← putHighFirst, Function.update_eq_self]
    rw [if_pos rfl, if_pos rfl, hput]
    congr 1
    split_ifs with hlt
    · rw [Nat.mod_eq_of_lt (by omega), Nat.add_comm]
    · rw [Nat.mod_eq_sub_mod (by omega), Nat.mod_eq_of_lt (by omega), Nat.add_comm]

/-! ## The inverse -/

/-- Circuits one after the other are undone by what undoes each of them, in the opposite order. -/
theorem meaning_flatten_mul {Cs Ds : List (List (Gate ι))}
    (h : List.Forall₂ (fun C D ↦ meaning D * meaning C = 1) Cs Ds) :
    meaning Ds.reverse.flatten * meaning Cs.flatten = 1 := by
  induction h with
  | nil => exact one_mul 1
  | cons hCD _ ih =>
    rw [List.reverse_cons, List.flatten_append, List.flatten_singleton, meaning_append,
      List.flatten_cons, meaning_append, mul_assoc, ← mul_assoc (meaning (List.flatten _)), ih,
      one_mul, hCD]

/-- **The modular adder is undone exactly.** -/
theorem meaning_ciMODADD_mul_cMODADD (h : Separate c₀ c₁ n b anc) (hn : 0 < n) (a N : ℕ)
    (dummy : ι) :
    meaning (ciMODADD c₀ c₁ n a b N anc dummy) * meaning (cMODADD c₀ c₁ n a b N anc dummy) = 1 := by
  have hb := h.injOn
  have htop : b 0 ≠ anc := h.ancilla 0 hn
  have hclear : meaning [.X (b 0), .CNOT (b 0) anc, .X (b 0)] *
      meaning [.X (b 0), .CNOT (b 0) anc, .X (b 0)] = 1 := by
    rw [meaning_X_CNOT_X htop]
    exact flip_mul_self fun x b' ↦ congrArg not (indep_of_ne htop x b')
  have hadd := meaning_ciADD_mul_cADD h.controlled a
  have hsub := meaning_cADD_mul_ciADD h.controlled a
  have hto := meaning_iQFT_mul_QFT hb
  have hfrom := meaning_QFT_mul_iQFT hb
  exact meaning_flatten_mul <| .cons hadd <|
    .cons (meaning_cADD_mul_ciADD (controlled_zero dummy dummy) N) <| .cons hfrom <|
    .cons (operator_CNOT_mul_self htop) <| .cons hto <|
    .cons (meaning_ciADD_mul_cADD (h.controlled_ancilla dummy) N) <| .cons hsub <| .cons hfrom <|
    .cons hclear <| .cons hto <| .cons hadd .nil

theorem meaning_cMODADD_mul_ciMODADD (h : Separate c₀ c₁ n b anc) (hn : 0 < n) (a N : ℕ)
    (dummy : ι) :
    meaning (cMODADD c₀ c₁ n a b N anc dummy) * meaning (ciMODADD c₀ c₁ n a b N anc dummy) = 1 := by
  have hb := h.injOn
  have htop : b 0 ≠ anc := h.ancilla 0 hn
  have hclear : meaning [.X (b 0), .CNOT (b 0) anc, .X (b 0)] *
      meaning [.X (b 0), .CNOT (b 0) anc, .X (b 0)] = 1 := by
    rw [meaning_X_CNOT_X htop]
    exact flip_mul_self fun x b' ↦ congrArg not (indep_of_ne htop x b')
  have hadd := meaning_ciADD_mul_cADD h.controlled a
  have hsub := meaning_cADD_mul_ciADD h.controlled a
  have hto := meaning_iQFT_mul_QFT hb
  have hfrom := meaning_QFT_mul_iQFT hb
  exact meaning_flatten_mul <| .cons hsub <| .cons hfrom <| .cons hclear <| .cons hto <|
    .cons hadd <| .cons (meaning_cADD_mul_ciADD (h.controlled_ancilla dummy) N) <| .cons hfrom <|
    .cons (operator_CNOT_mul_self htop) <| .cons hto <|
    .cons (meaning_ciADD_mul_cADD (controlled_zero dummy dummy) N) <| .cons hsub .nil

/-! ## The modular adder -/

/-- **Adding modulo `N` in Fourier space**: the phase is the same for all numbers and controls, and
the ancilla ends as it was. -/
theorem maps_cMODADD (h : Separate c₀ c₁ n b anc) {a N : ℕ} (hN : 2 * N ≤ 2 ^ n) (ha : a < N)
    (dummy : ι) :
    ∃ g : ℂ, ‖g‖ = 1 ∧ ∀ x, highFirst n b x < N → x anc = false →
      meaning (cMODADD c₀ c₁ n a b N anc dummy) (fourierState (lowFirst n b) n x) =
        g • fourierState (lowFirst n b) n
          (if x c₀ && x c₁ then putHighFirst n b ((a + highFirst n b x) % N) x else x) := by
  have hn : 0 < n := by
    rcases Nat.eq_zero_or_pos n with rfl | hn
    · omega
    · exact hn
  obtain ⟨g, hg, hmaps⟩ := maps_cMODADD_modAdd h hn a N dummy
  refine ⟨g, hg, fun x hx hanc ↦ ?_⟩
  rw [hmaps, modAdd_eq h hN ha hx hanc]

/-- **The modular adder**: on the transform of a basis state with a number below `N` and a cleared
ancilla it adds modulo `N` when both controls are set. It is undone exactly. -/
theorem modularAdder (h : Separate c₀ c₁ n b anc) {a N : ℕ} (hN : 2 * N ≤ 2 ^ n) (ha : a < N)
    (dummy : ι) :
    (∃ g : ℂ, ‖g‖ = 1 ∧ ∀ x, highFirst n b x < N → x anc = false →
      meaning (cMODADD c₀ c₁ n a b N anc dummy) (meaning (QFT n b) (ket x)) =
        g • meaning (QFT n b)
          (ket (if x c₀ && x c₁ then putHighFirst n b ((a + highFirst n b x) % N) x else x))) ∧
      meaning (ciMODADD c₀ c₁ n a b N anc dummy) * meaning (cMODADD c₀ c₁ n a b N anc dummy) = 1 ∧
      meaning (cMODADD c₀ c₁ n a b N anc dummy) * meaning (ciMODADD c₀ c₁ n a b N anc dummy) =
        1 := by
  have hn : 0 < n := by
    rcases Nat.eq_zero_or_pos n with rfl | hn
    · omega
    · exact hn
  refine ⟨?_, meaning_ciMODADD_mul_cMODADD h hn a N dummy,
    meaning_cMODADD_mul_ciMODADD h hn a N dummy⟩
  obtain ⟨g, hg, hmaps⟩ := maps_cMODADD h hN ha dummy
  obtain ⟨g', hg', hqft⟩ := maps_QFT h.injOn
  refine ⟨g, hg, fun x hx hanc ↦ ?_⟩
  rw [hqft, map_smul, id, hmaps x hx hanc, hqft, smul_comm, id]

theorem modularAdder_fifteen :
    (∃ g : ℂ, ‖g‖ = 1 ∧ ∀ x : ℕ → Bool, highFirst 5 id x < 15 → x 7 = false →
      meaning (cMODADD 5 6 5 13 id 15 7 0) (meaning (QFT 5 id) (ket x)) =
        g • meaning (QFT 5 id)
          (ket (if x 5 && x 6 then putHighFirst 5 id ((13 + highFirst 5 id x) % 15) x else x))) ∧
      meaning (ciMODADD 5 6 5 13 id 15 7 0) * meaning (cMODADD 5 6 5 13 (id : ℕ → ℕ) 15 7 0) = 1 ∧
      meaning (cMODADD 5 6 5 13 id 15 7 0) * meaning (ciMODADD 5 6 5 13 (id : ℕ → ℕ) 15 7 0) = 1 :=
  modularAdder ⟨Set.injOn_id _, by decide, by decide, by decide, by decide⟩ (by norm_num)
    (by norm_num) 0

end ScaffCC.Shors
