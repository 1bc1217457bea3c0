import ScaffCC.Quantum.Pauli
import ScaffCC.Reversible.Circuit

/-!
# The coupled cluster ansatz

The ansatz turns a register about strings of Pauli matrices: for each pair and each quadruple of
qubits some strings with the matrices X and Y on these qubits and with the matrix Z between them.
The operator for four qubits is a product of eight such rotations, which commute. The operator for
two qubits ends with the change of basis it should undo, and flips both qubits. The whole circuit
keeps the parity of the register.
-/

namespace ScaffCC.VQE

open Quantum
open Reversible (up down)

/-! ## The source -/

/-- A gate. Angles are real numbers. -/
inductive Gate (ι : Type*)
  | H (q : ι)
  | Rx (q : ι) (angle : ℝ)
  | Rz (q : ι) (angle : ℝ)
  | CNOT (control target : ι)

section Source

variable {ι : Type*} (reg : ℕ → ι) (Theta_p_q : ℕ → ℕ → ℝ) (Theta_p_q_r_s : ℕ → ℕ → ℕ → ℕ → ℝ)

noncomputable def Y_Rx (q : ι) : List (Gate ι) := [.Rx q (-(Real.pi / (2 : ℕ)))]

noncomputable def Y_Rxdagger (q : ι) : List (Gate ι) := [.Rx q (Real.pi / (2 : ℕ))]

/-- The index goes up or down, to the last one. -/
def CNOTLadder (controlStartIndex controlStopIndex : ℕ) : List (Gate ι) :=
  (if controlStartIndex < controlStopIndex then up controlStartIndex (controlStopIndex + 1)
    else down controlStopIndex (controlStartIndex + 1)).map fun index ↦
      .CNOT (reg index) (reg (index - 1))

variable (p q r s : ℕ)

/-- The M operator, by the cases of the first switch. -/
noncomputable def M : ℕ → List (Gate ι)
  | 1 => [.H (reg p), .H (reg q), .H (reg r), .H (reg s)]
  | 2 => Y_Rx (reg p) ++ Y_Rx (reg q) ++ Y_Rx (reg r) ++ Y_Rx (reg s)
  | 3 => [.H (reg p)] ++ Y_Rx (reg q) ++ [.H (reg r)] ++ Y_Rx (reg s)
  | 4 => Y_Rx (reg p) ++ [.H (reg q)] ++ Y_Rx (reg r) ++ [.H (reg s)]
  | 5 => Y_Rx (reg p) ++ Y_Rx (reg q) ++ [.H (reg r), .H (reg s)]
  | 6 => [.H (reg p), .H (reg q)] ++ Y_Rx (reg r) ++ Y_Rx (reg s)
  | 7 => Y_Rx (reg p) ++ [.H (reg q), .H (reg r)] ++ Y_Rx (reg s)
  | 8 => [.H (reg p)] ++ Y_Rx (reg q) ++ Y_Rx (reg r) ++ [.H (reg s)]
  | _ => []

/-- The inverse of the M operator, by the cases of the second switch. -/
noncomputable def Mdagger : ℕ → List (Gate ι)
  | 1 => [.H (reg p), .H (reg q), .H (reg r), .H (reg s)]
  | 2 => Y_Rxdagger (reg p) ++ Y_Rxdagger (reg q) ++ Y_Rxdagger (reg r) ++ Y_Rxdagger (reg s)
  | 3 => [.H (reg p)] ++ Y_Rxdagger (reg q) ++ [.H (reg r)] ++ Y_Rxdagger (reg s)
  | 4 => Y_Rxdagger (reg p) ++ [.H (reg q)] ++ Y_Rxdagger (reg r) ++ [.H (reg s)]
  | 5 => Y_Rxdagger (reg p) ++ Y_Rxdagger (reg q) ++ [.H (reg r), .H (reg s)]
  | 6 => [.H (reg p), .H (reg q)] ++ Y_Rxdagger (reg r) ++ Y_Rxdagger (reg s)
  | 7 => Y_Rxdagger (reg p) ++ [.H (reg q), .H (reg r)] ++ Y_Rxdagger (reg s)
  | 8 => [.H (reg p)] ++ Y_Rxdagger (reg q) ++ Y_Rxdagger (reg r) ++ [.H (reg s)]
  | _ => []

noncomputable def DoubleExcitationOperator : List (Gate ι) :=
  (up 1 9).flatMap fun i ↦
    M reg p q r s i ++
      (CNOTLadder reg p (q + 1) ++ [.CNOT (reg q) (reg r)] ++ CNOTLadder reg r (s + 1)) ++
      [.Rz (reg s) (Theta_p_q_r_s p q r s)] ++
      (CNOTLadder reg (s + 1) r ++ [.CNOT (reg q) (reg r)] ++ CNOTLadder reg (q + 1) p) ++
      Mdagger reg p q r s i

noncomputable def SingleExcitationOperator : List (Gate ι) :=
  [.H (reg p), .H (reg q)] ++ CNOTLadder reg p (q + 1) ++ [.Rz (reg q) (Theta_p_q p q)] ++
    CNOTLadder reg (q + 1) p ++ [.H (reg p), .H (reg q)] ++
    (Y_Rx (reg p) ++ Y_Rx (reg q) ++ CNOTLadder reg p (q + 1) ++ [.Rz (reg q) (Theta_p_q p q)] ++
      CNOTLadder reg (q + 1) p ++ Y_Rx (reg p) ++ Y_Rx (reg q))

/-- The circuit for a register of `N` qubits. -/
noncomputable def main (N : ℕ) : List (Gate ι) :=
  ((up 0 N).flatMap fun p ↦ (up 0 p).flatMap fun q ↦ (up 0 q).flatMap fun r ↦
    (up 0 r).flatMap fun s ↦ DoubleExcitationOperator reg Theta_p_q_r_s p q r s) ++
  (up 0 N).flatMap fun p ↦ (up 0 p).flatMap fun q ↦ SingleExcitationOperator reg Theta_p_q p q

end Source

/-! ## Meaning -/

section Meaning

variable {ι : Type*} [DecidableEq ι]

noncomputable def Gate.operator : Gate ι → Op ι ℂ
  | H q => onWire q hadamard
  | Rx q angle => onWire q (rotX angle)
  | Rz q angle => onWire q (rotZ angle)
  | CNOT c t => negation c t

/-- The operator of a circuit. -/
noncomputable def meaning (C : List (Gate ι)) : Op ι ℂ := compose Gate.operator C

@[simp] theorem meaning_nil : meaning ([] : List (Gate ι)) = 1 := rfl

@[simp] theorem meaning_cons (g : Gate ι) (C : List (Gate ι)) :
    meaning (g :: C) = meaning C * g.operator := rfl

theorem meaning_append (C D : List (Gate ι)) : meaning (C ++ D) = meaning D * meaning C :=
  compose_append C D

theorem meaning_flatMap {α : Type*} (f : α → List (Gate ι)) (l : List α) :
    meaning (l.flatMap f) = (l.reverse.map fun a ↦ meaning (f a)).prod := by
  induction l with
  | nil => rfl
  | cons a l ih =>
    rw [List.flatMap_cons, meaning_append, ih, List.reverse_cons, List.map_append,
      List.prod_append, List.map_singleton, List.prod_singleton]

theorem commute_flatMap {α : Type*} {A : Op ι ℂ} {f : α → List (Gate ι)} {l : List α}
    (h : ∀ a ∈ l, Commute A (meaning (f a))) : Commute A (meaning (l.flatMap f)) := by
  rw [meaning_flatMap]
  refine Commute.list_prod_right _ _ fun B hB ↦ ?_
  obtain ⟨a, ha, rfl⟩ := List.mem_map.mp hB
  exact h a (List.mem_reverse.mp ha)

theorem meaning_between (A B C D E : List (Gate ι)) :
    meaning (A ++ B ++ C ++ D ++ E) =
      meaning E * (meaning D * meaning C * meaning B) * meaning A := by
  simp only [meaning_append, mul_assoc]

theorem meaning_map_CNOT (ps : List (ι × ι)) :
    meaning (ps.map fun p ↦ .CNOT p.1 p.2) = compose (fun p ↦ negation p.1 p.2) ps := by
  induction ps with
  | nil => rfl
  | cons p ps ih => rw [List.map_cons, meaning_cons, ih, compose_cons, Gate.operator]

end Meaning

/-! ## The ladders -/

section Ladders

variable {ι : Type*} {reg : ℕ → ι} {a b : ℕ}

/-- The qubits from `a` down to `b`. -/
def wires (reg : ℕ → ι) (a b : ℕ) : List ι := (down b (a + 1)).map reg

theorem down_succ (h : b ≤ a) : down b (a + 1) = a :: down b a := by
  have hsplit : up b (a + 1) = up b a ++ [a] := by
    rw [up, up, Nat.succ_sub h, List.range'_1_concat, Nat.add_sub_cancel' h]
  rw [down, hsplit, List.reverse_append]
  rfl

theorem wires_eq_concat (h : b ≤ a) :
    wires reg a b = (down (b + 1) (a + 1)).map reg ++ [reg b] := by
  have hsplit : up b (a + 1) = b :: up (b + 1) (a + 1) := by
    rw [up, up, Nat.succ_sub h, List.range'_succ, Nat.add_sub_add_right]
  rw [wires, down, hsplit, List.reverse_cons, List.map_append]
  rfl

theorem wires_eq_cons (h : b ≤ a) : wires reg a b = reg a :: (down b a).map reg := by
  rw [wires, down_succ h, List.map_cons]

theorem links_wires (h : b ≤ a) :
    links (wires reg a b) = (down (b + 1) (a + 1)).map fun i ↦ (reg i, reg (i - 1)) := by
  induction a, h using Nat.le_induction with
  | base => simp [wires, down, up, links]
  | succ a h ih =>
    rw [wires_eq_cons (h.trans (Nat.le_succ a)), down_succ h, List.map_cons, links, ← List.map_cons,
      ← down_succ h, ← wires, ih, down_succ (Nat.succ_le_succ h), List.map_cons]
    rfl

theorem links_append (l : List ι) (c t : ι) (l' : List ι) :
    links (l ++ c :: t :: l') = links (l ++ [c]) ++ (c, t) :: links (t :: l') := by
  induction l with
  | nil => rfl
  | cons w l ih =>
    cases l with
    | nil => rfl
    | cons w' l => exact congrArg ((w, w') :: ·) ih

theorem CNOTLadder_down (h : b < a) : CNOTLadder reg a (b + 1) =
    (links (wires reg a b)).map fun p ↦ .CNOT p.1 p.2 := by
  rw [CNOTLadder, if_neg (Nat.not_lt.mpr h), links_wires h.le, List.map_map]
  rfl

/-- The ladder upwards is the ladder downwards in the opposite order. -/
theorem CNOTLadder_up (h : b < a) : CNOTLadder reg (b + 1) a =
    (links (wires reg a b)).reverse.map fun p ↦ .CNOT p.1 p.2 := by
  have hindices : (if b + 1 < a then up (b + 1) (a + 1) else down a (b + 1 + 1)) =
      up (b + 1) (a + 1) := by
    split_ifs with hlt
    · rfl
    · obtain rfl : a = b + 1 := by omega
      simp [down, up]
  rw [CNOTLadder, hindices, links_wires h.le, ← List.map_reverse, down, List.reverse_reverse,
    List.map_map]
  rfl

end Ladders

/-! ## Rotations about strings -/

/-- The matrix on one of the qubits of an excitation. -/
inductive Kind
  | x
  | y
deriving DecidableEq

namespace Kind

/-- The change of basis before the ladder. -/
noncomputable def before : Kind → Matrix Bool Bool ℂ
  | x => hadamard
  | y => rotX (-(Real.pi / (2 : ℕ)))

/-- The change of basis after the ladder. -/
noncomputable def after : Kind → Matrix Bool Bool ℂ
  | x => hadamard
  | y => rotX (Real.pi / (2 : ℕ))

def matrix : Kind → Matrix Bool Bool ℂ
  | x => pauliX
  | y => pauliY

/-- The changes of basis turn the Z matrix over to the Y matrix with a sign. -/
def sign : Kind → ℂ
  | x => 1
  | y => -1

theorem after_mul_before (k : Kind) : k.after * k.before = 1 := by
  cases k with
  | x => exact hadamard_mul_self
  | y => rw [after, before, rotX_mul_rotX, add_neg_cancel, rotX_zero]

theorem before_mul_after (k : Kind) : k.before * k.after = 1 := by
  cases k with
  | x => exact hadamard_mul_self
  | y => rw [after, before, rotX_mul_rotX, neg_add_cancel, rotX_zero]

theorem after_mul_pauliZ_mul (k : Kind) : k.after * pauliZ * k.before = k.sign • k.matrix := by
  cases k with
  | x => rw [after, before, hadamard_mul_pauliZ_mul, sign, matrix, one_smul]
  | y =>
    rw [after, before, Nat.cast_ofNat, rotX_mul_pauliZ_mul, sign, matrix, neg_one_smul]

theorem matrix_mul_self (k : Kind) : k.matrix * k.matrix = 1 := by
  cases k with
  | x => exact pauliX_mul_self
  | y => exact pauliY_mul_self

theorem matrix_mul_matrix (k l : Kind) :
    k.matrix * l.matrix = (k.sign * l.sign) • (l.matrix * k.matrix) := by
  ext i j
  cases k <;> cases l <;> cases i <;> cases j <;>
    simp [matrix, sign, pauliX, pauliY, Matrix.mul_apply]

theorem pauliZ_mul_matrix (k : Kind) : pauliZ * k.matrix = (-1 : ℂ) • (k.matrix * pauliZ) := by
  ext i j
  cases k <;> cases i <;> cases j <;>
    simp [matrix, pauliX, pauliY, pauliZ, Matrix.mul_apply]

end Kind

section Strings

variable {ι : Type*} [DecidableEq ι] {l ws : List ι}

/-- The string with the matrices on some of the qubits of a list and the Z matrix on the others. -/
noncomputable def pauliString (k : ι → Kind) (ws l : List ι) : Op ι ℂ :=
  string (fun w ↦ if w ∈ ws then (k w).matrix else pauliZ) l

/-- The sign of a string: how often it has the matrix Y. -/
def signOf (k : ι → Kind) (ws : List ι) : ℂ := (ws.map fun w ↦ (k w).sign).prod

/-- A product over a list with the factor one outside of a shorter list. -/
theorem prod_map_ite (hl : l.Nodup) (hws : ws.Nodup) (hsub : ∀ w ∈ ws, w ∈ l) (c : ι → ℂ) :
    (l.map fun w ↦ if w ∈ ws then c w else 1).prod = (ws.map c).prod := by
  rw [← List.prod_toFinset _ hl, ← List.prod_toFinset _ hws]
  have hsubset : ws.toFinset ⊆ l.toFinset := fun w hw ↦
    List.mem_toFinset.mpr (hsub w (List.mem_toFinset.mp hw))
  rw [← Finset.prod_subset hsubset fun w _ hw ↦ if_neg (mt List.mem_toFinset.mpr hw)]
  exact Finset.prod_congr rfl fun w hw ↦ if_pos (List.mem_toFinset.mp hw)

/-- **A ladder between changes of basis** is a rotation about the string, if the signs of the
changes multiply to one. -/
theorem rotates (hl : l.Nodup) (hne : l ≠ []) (hws : ws.Nodup) (hsub : ∀ w ∈ ws, w ∈ l)
    (k : ι → Kind) (hsign : signOf k ws = 1) (θ : ℝ) :
    string (fun w ↦ (k w).after) ws *
        (backward l * onWire (l.getLast hne) (rotZ θ) * forward l) *
        string (fun w ↦ (k w).before) ws =
      rotation (pauliString k ws l) (θ / 2) := by
  have hinv : string (fun w ↦ (k w).after) ws * string (fun w ↦ (k w).before) ws = 1 := by
    rw [string_mul hws, string_congr fun w _ ↦ (k w).after_mul_before, string_one]
  have hturn : string (fun w ↦ if w ∈ ws then (k w).after * pauliZ * (k w).before else pauliZ) l =
      pauliString k ws l := by
    have hsplit : ∀ w ∈ l, (if w ∈ ws then (k w).after * pauliZ * (k w).before else pauliZ) =
        (if w ∈ ws then (k w).sign else 1) • if w ∈ ws then (k w).matrix else pauliZ := by
      intro w _
      split_ifs
      · exact (k w).after_mul_pauliZ_mul
      · exact (one_smul ℂ _).symm
    rw [string_congr hsplit, string_smul, prod_map_ite hl hws hsub, ← signOf, hsign, one_smul,
      pauliString]
  rw [backward_mul_rotZ_mul_forward hl hne, mul_rotation_mul hinv,
    string_mul_string_mul hl hws hsub, hturn]

/-- **Strings on the same qubits commute** when their signs are one. -/
theorem commute_pauliString {k k' : ι → Kind} (hl : l.Nodup) (hws : ws.Nodup)
    (hsub : ∀ w ∈ ws, w ∈ l) (hk : signOf k ws = 1) (hk' : signOf k' ws = 1) :
    Commute (pauliString k ws l) (pauliString k' ws l) := by
  have hcomm : pauliString k ws l * pauliString k' ws l =
      (l.map fun w ↦ if w ∈ ws then (k w).sign * (k' w).sign else 1).prod •
        (pauliString k' ws l * pauliString k ws l) :=
    string_mul_string hl (fun _ h ↦ h) fun w _ ↦ by
      split_ifs
      · exact (k w).matrix_mul_matrix (k' w)
      · exact (one_smul ℂ _).symm
  rwa [prod_map_ite hl hws hsub, List.prod_map_mul, ← signOf, ← signOf, hk, hk', one_mul,
    one_smul] at hcomm

theorem pauliString_mul_self (hl : l.Nodup) (k : ι → Kind) :
    pauliString k ws l * pauliString k ws l = 1 := by
  rw [pauliString, string_mul hl, ← string_one l]
  refine string_congr fun w _ ↦ ?_
  split_ifs
  · exact (k w).matrix_mul_self
  · simp [pauliZ, ← Matrix.diagonal_one]

/-- The parity of a list of wires is kept when the string has an even number of matrices. -/
theorem commute_pauliString_pauliZ {L : List ι} (hL : L.Nodup) (hl : l.Nodup) (hlL : ∀ w ∈ l, w ∈ L)
    (hws : ws.Nodup) (hsub : ∀ w ∈ ws, w ∈ l) (heven : Even ws.length) (k : ι → Kind) :
    Commute (string (fun _ ↦ pauliZ) L) (pauliString k ws l) := by
  have hcomm : string (fun _ ↦ pauliZ) L * pauliString k ws l =
      (l.map fun w ↦ if w ∈ ws then (-1 : ℂ) else 1).prod •
        (pauliString k ws l * string (fun _ ↦ pauliZ) L) :=
    string_mul_string hL hlL fun w _ ↦ by
      split_ifs
      · exact (k w).pauliZ_mul_matrix
      · exact (one_smul ℂ _).symm
  rwa [prod_map_ite hl hws hsub, List.map_const', List.prod_replicate, heven.neg_one_pow,
    one_smul] at hcomm

end Strings

/-! ## The operator for four qubits -/

section Double

variable {ι : Type*} [DecidableEq ι] (reg : ℕ → ι) (p q r s : ℕ)

/-- The matrices on the four qubits, by the number of the string. -/
def kinds : ℕ → Kind × Kind × Kind × Kind
  | 1 => (.x, .x, .x, .x)
  | 2 => (.y, .y, .y, .y)
  | 3 => (.x, .y, .x, .y)
  | 4 => (.y, .x, .y, .x)
  | 5 => (.y, .y, .x, .x)
  | 6 => (.x, .x, .y, .y)
  | 7 => (.y, .x, .x, .y)
  | _ => (.x, .y, .y, .x)

def kindOn (k : Kind × Kind × Kind × Kind) (w : ι) : Kind :=
  if w = reg p then k.1 else if w = reg q then k.2.1 else if w = reg r then k.2.2.1 else k.2.2.2

/-- The four qubits of an excitation. -/
def corners : List ι := [reg s, reg r, reg q, reg p]

/-- The qubits of the strings: those from `p` down to `q` and from `r` down to `s`. -/
def chain : List ι := wires reg p q ++ wires reg r s

/-- The string of an excitation: the matrices X and Y on the four qubits, and the matrix Z between
the first two and between the last two. -/
noncomputable def excitation (i : ℕ) : Op ι ℂ :=
  pauliString (kindOn reg p q r (kinds i)) (corners reg p q r s) (chain reg p q r s)

variable {reg p q r s}

omit [DecidableEq ι] in
theorem chain_eq : chain reg p q r s = (down q (p + 1) ++ down s (r + 1)).map reg :=
  List.map_append.symm

theorem mem_down {a b i : ℕ} : i ∈ down b (a + 1) ↔ b ≤ i ∧ i ≤ a := by
  rw [down, List.mem_reverse, Reversible.mem_up, Nat.lt_succ_iff]

theorem nodup_down (a b : ℕ) : (down a b).Nodup := List.nodup_reverse.mpr List.nodup_range'

omit [DecidableEq ι] in
theorem links_chain (hsr : s < r) (hqp : q < p) : links (chain reg p q r s) =
    links (wires reg p q) ++ (reg q, reg r) :: links (wires reg r s) := by
  rw [chain, wires_eq_concat hqp.le, wires_eq_cons hsr.le, List.append_assoc,
    List.singleton_append, links_append]

theorem meaning_ladders (hsr : s < r) (hqp : q < p) :
    meaning (CNOTLadder reg p (q + 1) ++ [.CNOT (reg q) (reg r)] ++ CNOTLadder reg r (s + 1)) =
      forward (chain reg p q r s) := by
  have hjoint : [Gate.CNOT (reg q) (reg r)] = [(reg q, reg r)].map fun p ↦ .CNOT p.1 p.2 := rfl
  rw [CNOTLadder_down hqp, CNOTLadder_down hsr, hjoint, ← List.map_append, ← List.map_append,
    meaning_map_CNOT, forward, links_chain hsr hqp, List.append_assoc, List.singleton_append]

theorem meaning_ladders_back (hsr : s < r) (hqp : q < p) :
    meaning (CNOTLadder reg (s + 1) r ++ [.CNOT (reg q) (reg r)] ++ CNOTLadder reg (q + 1) p) =
      backward (chain reg p q r s) := by
  have hjoint : [Gate.CNOT (reg q) (reg r)] = [(reg q, reg r)].map fun p ↦ .CNOT p.1 p.2 := rfl
  rw [CNOTLadder_up hqp, CNOTLadder_up hsr, hjoint, ← List.map_append, ← List.map_append,
    meaning_map_CNOT, backward, links_chain hsr hqp, List.reverse_append, List.reverse_cons]

omit [DecidableEq ι] in
theorem nodup_chain (hrq : r < q) (hqp : q < p) (hreg : Set.InjOn reg (Set.Iic p)) :
    (chain reg p q r s).Nodup := by
  rw [chain_eq]
  refine List.Nodup.map_on (fun i hi j hj heq ↦ ?_) ?_
  · rw [List.mem_append, mem_down, mem_down] at hi hj
    exact hreg (Set.mem_Iic.mpr (by omega)) (Set.mem_Iic.mpr (by omega)) heq
  · refine (nodup_down q (p + 1)).append (nodup_down s (r + 1)) fun i hi hj ↦ ?_
    rw [mem_down] at hi hj
    omega

omit [DecidableEq ι] in
theorem corners_eq : corners reg p q r s = [s, r, q, p].map reg := rfl

omit [DecidableEq ι] in
theorem nodup_corners (hsr : s < r) (hrq : r < q) (hqp : q < p)
    (hreg : Set.InjOn reg (Set.Iic p)) : (corners reg p q r s).Nodup := by
  rw [corners_eq]
  refine List.Nodup.map_on (fun i hi j hj heq ↦ ?_) (by simp; omega)
  simp only [List.mem_cons, List.not_mem_nil, or_false] at hi hj
  exact hreg (Set.mem_Iic.mpr (by omega)) (Set.mem_Iic.mpr (by omega)) heq

omit [DecidableEq ι] in
theorem mem_chain_of_mem_corners (hsr : s < r) (hqp : q < p) :
    ∀ w ∈ corners reg p q r s, w ∈ chain reg p q r s := by
  intro w hw
  rw [corners_eq] at hw
  obtain ⟨i, hi, rfl⟩ := List.mem_map.mp hw
  rw [chain_eq]
  refine List.mem_map_of_mem (List.mem_append.mpr ?_)
  simp only [List.mem_cons, List.not_mem_nil, or_false] at hi
  rw [mem_down, mem_down]
  omega

theorem map_corners (h : (corners reg p q r s).Nodup) {α : Type*} (f : ι → Kind → α)
    (k : Kind × Kind × Kind × Kind) :
    (corners reg p q r s).map (fun w ↦ f w (kindOn reg p q r k w)) =
      [f (reg s) k.2.2.2, f (reg r) k.2.2.1, f (reg q) k.2.1, f (reg p) k.1] := by
  simp only [corners, List.nodup_cons, List.mem_cons, List.not_mem_nil, or_false, not_or,
    not_false_eq_true, List.nodup_nil, and_true] at h
  obtain ⟨⟨hsr, hsq, hsp⟩, ⟨hrq, hrp⟩, hqp⟩ := h
  simp [corners, kindOn, hsr, hsq, hsp, hrq, hrp, hqp]

theorem string_corners (h : (corners reg p q r s).Nodup) (f : Kind → Matrix Bool Bool ℂ)
    (k : Kind × Kind × Kind × Kind) :
    string (fun w ↦ f (kindOn reg p q r k w)) (corners reg p q r s) =
      onWire (reg s) (f k.2.2.2) * (onWire (reg r) (f k.2.2.1) *
        (onWire (reg q) (f k.2.1) * onWire (reg p) (f k.1))) := by
  rw [string, map_corners h fun w k ↦ onWire w (f k)]
  simp

theorem signOf_kinds (h : (corners reg p q r s).Nodup) {i : ℕ} (hi : i ∈ up 1 9) :
    signOf (kindOn reg p q r (kinds i)) (corners reg p q r s) = 1 := by
  obtain ⟨hlow, hhigh⟩ := Reversible.mem_up.mp hi
  rw [signOf, map_corners h fun _ k ↦ k.sign]
  interval_cases i <;> simp [kinds, Kind.sign]

theorem meaning_M (h : (corners reg p q r s).Nodup) {i : ℕ} (hi : i ∈ up 1 9) :
    meaning (M reg p q r s i) =
      string (fun w ↦ (kindOn reg p q r (kinds i) w).before) (corners reg p q r s) := by
  obtain ⟨hlow, hhigh⟩ := Reversible.mem_up.mp hi
  rw [string_corners h Kind.before]
  interval_cases i <;>
    simp only [M, Y_Rx, List.cons_append, List.nil_append, meaning_cons, meaning_nil,
      Gate.operator, kinds, Kind.before, one_mul, mul_assoc]

theorem meaning_Mdagger (h : (corners reg p q r s).Nodup) {i : ℕ} (hi : i ∈ up 1 9) :
    meaning (Mdagger reg p q r s i) =
      string (fun w ↦ (kindOn reg p q r (kinds i) w).after) (corners reg p q r s) := by
  obtain ⟨hlow, hhigh⟩ := Reversible.mem_up.mp hi
  rw [string_corners h Kind.after]
  interval_cases i <;>
    simp only [Mdagger, Y_Rxdagger, List.cons_append, List.nil_append, meaning_cons, meaning_nil,
      Gate.operator, kinds, Kind.after, one_mul, mul_assoc]

omit [DecidableEq ι] in
theorem chain_eq_concat (hsr : s < r) : chain reg p q r s =
    wires reg p q ++ (down (s + 1) (r + 1)).map reg ++ [reg s] := by
  rw [chain, wires_eq_concat hsr.le, List.append_assoc]

theorem meaning_turn (hsr : s < r) (hrq : r < q) (hqp : q < p) (hreg : Set.InjOn reg (Set.Iic p))
    {i : ℕ} (hi : i ∈ up 1 9) (θ : ℝ) :
    meaning (M reg p q r s i ++
      (CNOTLadder reg p (q + 1) ++ [.CNOT (reg q) (reg r)] ++ CNOTLadder reg r (s + 1)) ++
      [.Rz (reg s) θ] ++
      (CNOTLadder reg (s + 1) r ++ [.CNOT (reg q) (reg r)] ++ CNOTLadder reg (q + 1) p) ++
      Mdagger reg p q r s i) = rotation (excitation reg p q r s i) (θ / 2) := by
  have hcorners := nodup_corners hsr hrq hqp hreg
  have hchain := nodup_chain (s := s) hrq hqp hreg
  have hne : chain reg p q r s ≠ [] := by
    rw [chain_eq_concat hsr]
    exact List.concat_ne_nil _ _
  have hlast : (chain reg p q r s).getLast hne = reg s := by
    simp only [chain_eq_concat hsr, List.getLast_append_singleton]
  have hturn := rotates hchain hne hcorners (mem_chain_of_mem_corners hsr hqp)
    (kindOn reg p q r (kinds i)) (signOf_kinds hcorners hi) θ
  rw [hlast] at hturn
  rw [excitation, ← hturn, meaning_between, meaning_M hcorners hi, meaning_Mdagger hcorners hi,
    meaning_ladders hsr hqp, meaning_ladders_back hsr hqp, meaning_cons, meaning_nil, one_mul,
    Gate.operator]

/-- **The eight strings commute**, so that the order of the rotations does not matter. -/
theorem commute_excitation (hsr : s < r) (hrq : r < q) (hqp : q < p)
    (hreg : Set.InjOn reg (Set.Iic p)) {i j : ℕ} (hi : i ∈ up 1 9) (hj : j ∈ up 1 9) :
    Commute (excitation reg p q r s i) (excitation reg p q r s j) := by
  have hcorners := nodup_corners hsr hrq hqp hreg
  exact commute_pauliString (nodup_chain hrq hqp hreg) hcorners (mem_chain_of_mem_corners hsr hqp)
    (signOf_kinds hcorners hi) (signOf_kinds hcorners hj)

theorem meaning_DoubleExcitationOperator (hsr : s < r) (hrq : r < q) (hqp : q < p)
    (hreg : Set.InjOn reg (Set.Iic p)) (Theta_p_q_r_s : ℕ → ℕ → ℕ → ℕ → ℝ) :
    meaning (DoubleExcitationOperator reg Theta_p_q_r_s p q r s) =
      ((up 1 9).reverse.map fun i ↦
        rotation (excitation reg p q r s i) (Theta_p_q_r_s p q r s / 2)).prod := by
  rw [DoubleExcitationOperator, meaning_flatMap, List.map_congr_left fun i hi ↦
    meaning_turn hsr hrq hqp hreg (List.mem_reverse.mp hi) _]

/-- **The operator for four qubits** is the product of eight rotations, in any order, about strings
whose squares are one. -/
theorem DoubleExcitationOperator_rotates (hsr : s < r) (hrq : r < q) (hqp : q < p)
    (hreg : Set.InjOn reg (Set.Iic p)) (Theta_p_q_r_s : ℕ → ℕ → ℕ → ℕ → ℝ) :
    (∀ i, excitation reg p q r s i * excitation reg p q r s i = 1) ∧
      ∀ order : List ℕ, order.Perm (up 1 9) →
        meaning (DoubleExcitationOperator reg Theta_p_q_r_s p q r s) =
          (order.map fun i ↦
            rotation (excitation reg p q r s i) (Theta_p_q_r_s p q r s / 2)).prod := by
  refine ⟨fun i ↦ pauliString_mul_self (nodup_chain hrq hqp hreg) _, fun order hperm ↦ ?_⟩
  rw [meaning_DoubleExcitationOperator hsr hrq hqp hreg]
  refine (((List.reverse_perm _).trans hperm.symm).map _).prod_eq' ?_
  refine List.pairwise_map.mpr (List.pairwise_of_forall_mem_list fun i hi j hj ↦ ?_)
  exact commute_rotation_rotation (commute_excitation hsr hrq hqp hreg (List.mem_reverse.mp hi)
    (List.mem_reverse.mp hj)) _ _

/-- The last four qubits of a register of five. -/
theorem DoubleExcitationOperator_rotates_five :
    meaning (DoubleExcitationOperator id (fun _ _ _ _ ↦ 1) 4 3 2 1) =
      ((up 1 9).map fun i ↦ rotation (excitation id 4 3 2 1 i) (1 / 2)).prod :=
  (DoubleExcitationOperator_rotates (by decide) (by decide) (by decide)
    (Function.injective_id.injOn) fun _ _ _ _ ↦ 1).2 (up 1 9) (List.Perm.refl _)

end Double

/-! ## The operator for two qubits -/

section Single

variable {ι : Type*} [DecidableEq ι] {reg : ℕ → ι} {p q : ℕ}

omit [DecidableEq ι] in
theorem nodup_wires (hreg : Set.InjOn reg (Set.Iic p)) : (wires reg p q).Nodup := by
  refine List.Nodup.map_on (fun i hi j hj heq ↦ ?_) (nodup_down q (p + 1))
  exact hreg (mem_down.mp hi).2 (mem_down.mp hj).2 heq

omit [DecidableEq ι] in
theorem nodup_pair (hqp : q < p) (hreg : Set.InjOn reg (Set.Iic p)) : [reg q, reg p].Nodup := by
  have hne : reg q ≠ reg p := fun heq ↦ hqp.ne (hreg hqp.le (Set.mem_Iic.mpr le_rfl) heq)
  simpa using hne

omit [DecidableEq ι] in
theorem mem_wires_of_mem_pair (hqp : q < p) : ∀ w ∈ [reg q, reg p], w ∈ wires reg p q := by
  refine List.forall_mem_cons.mpr ⟨?_, List.forall_mem_singleton.mpr ?_⟩
  · exact List.mem_map_of_mem (mem_down.mpr ⟨le_rfl, hqp.le⟩)
  · exact List.mem_map_of_mem (mem_down.mpr ⟨hqp.le, le_rfl⟩)

/-- The ladders around a rotation, between changes of basis of one kind. -/
theorem rotates_pair (hqp : q < p) (hreg : Set.InjOn reg (Set.Iic p)) (k : Kind) (θ : ℝ) :
    string (fun _ ↦ k.after) [reg q, reg p] *
        (meaning (CNOTLadder reg (q + 1) p) * meaning [.Rz (reg q) θ] *
          meaning (CNOTLadder reg p (q + 1))) *
        string (fun _ ↦ k.before) [reg q, reg p] =
      rotation (pauliString (fun _ ↦ k) [reg q, reg p] (wires reg p q)) (θ / 2) := by
  have hne : wires reg p q ≠ [] := by
    rw [wires_eq_concat hqp.le]
    exact List.concat_ne_nil _ _
  have hlast : (wires reg p q).getLast hne = reg q := by
    simp only [wires_eq_concat hqp.le, List.getLast_append_singleton]
  have hsign : signOf (fun _ ↦ k) [reg q, reg p] = 1 := by
    cases k <;> simp [signOf, Kind.sign]
  have hturn := rotates (nodup_wires hreg) hne (nodup_pair hqp hreg) (mem_wires_of_mem_pair hqp)
    (fun _ ↦ k) hsign θ
  rw [hlast] at hturn
  rw [← hturn, CNOTLadder_down hqp, CNOTLadder_up hqp, meaning_map_CNOT, meaning_map_CNOT,
    ← forward, ← backward, meaning_cons, meaning_nil, one_mul, Gate.operator]

/-- Two changes of basis one after the other, on both qubits. -/
theorem before_mul_before (hqp : q < p) (hreg : Set.InjOn reg (Set.Iic p)) :
    string (fun _ ↦ Kind.y.before) [reg q, reg p] * string (fun _ ↦ Kind.y.before) [reg q, reg p] =
      -string (fun _ ↦ pauliX) [reg q, reg p] := by
  have hhalf : Kind.y.before * Kind.y.before = Complex.I • pauliX := by
    rw [Kind.before, rotX_mul_rotX, ← rotX_neg_pi]
    congr 1
    push_cast
    ring
  have hfactor : ([reg q, reg p].map fun _ ↦ Complex.I).prod = -1 := by simp
  rw [string_mul (nodup_pair hqp hreg), string_congr fun w _ ↦ hhalf, string_smul, hfactor]
  exact neg_one_smul ℂ (string (fun _ ↦ pauliX) [reg q, reg p])

/-- **The operator for two qubits** is a rotation about a string with the matrix X at its ends,
then one about a string with the matrix Y, and then a flip of both qubits: the last change of basis
is made once more instead of being undone. -/
theorem meaning_SingleExcitationOperator (hqp : q < p) (hreg : Set.InjOn reg (Set.Iic p))
    (Theta_p_q : ℕ → ℕ → ℝ) :
    meaning (SingleExcitationOperator reg Theta_p_q p q) =
      -string (fun _ ↦ pauliX) [reg q, reg p] *
        rotation (pauliString (fun _ ↦ .y) [reg q, reg p] (wires reg p q)) (Theta_p_q p q / 2) *
        rotation (pauliString (fun _ ↦ .x) [reg q, reg p] (wires reg p q)) (Theta_p_q p q / 2) := by
  have hfirst := rotates_pair hqp hreg .x (Theta_p_q p q)
  have hsecond := rotates_pair hqp hreg .y (Theta_p_q p q)
  have hundo : string (fun _ ↦ Kind.y.before) [reg q, reg p] *
      string (fun _ ↦ Kind.y.after) [reg q, reg p] = 1 := by
    rw [string_mul (nodup_pair hqp hreg), string_congr fun w _ ↦ Kind.y.before_mul_after,
      string_one]
  have hH : meaning [.H (reg p), .H (reg q)] = string (fun _ ↦ Kind.x.before) [reg q, reg p] := by
    simp [Gate.operator, Kind.before]
  have hY : meaning (Y_Rx (reg p) ++ Y_Rx (reg q)) =
      string (fun _ ↦ Kind.y.before) [reg q, reg p] := by
    simp [Y_Rx, Gate.operator, Kind.before]
  have hsource : SingleExcitationOperator reg Theta_p_q p q =
      [.H (reg p), .H (reg q)] ++ CNOTLadder reg p (q + 1) ++ [.Rz (reg q) (Theta_p_q p q)] ++
        CNOTLadder reg (q + 1) p ++ [.H (reg p), .H (reg q)] ++
        ((Y_Rx (reg p) ++ Y_Rx (reg q)) ++ CNOTLadder reg p (q + 1) ++
          [.Rz (reg q) (Theta_p_q p q)] ++ CNOTLadder reg (q + 1) p ++
          (Y_Rx (reg p) ++ Y_Rx (reg q))) := by
    simp only [SingleExcitationOperator, List.append_assoc]
  rw [Kind.after, ← Kind.before] at hfirst
  set B := string (fun _ ↦ Kind.y.before) [reg q, reg p]
  set A := string (fun _ ↦ Kind.y.after) [reg q, reg p]
  rw [hsource, meaning_append, meaning_between, meaning_between, hH, hY, hfirst, ← hsecond,
    ← before_mul_before hqp hreg]
  set T := meaning (CNOTLadder reg (q + 1) p) * meaning [.Rz (reg q) (Theta_p_q p q)] *
    meaning (CNOTLadder reg p (q + 1))
  congr 1
  calc B * T * B = B * (B * A) * T * B := by rw [hundo, mul_one]
    _ = B * B * (A * T * B) := by simp only [mul_assoc]

end Single

/-! ## The whole circuit -/

section Main

variable {ι : Type*} [DecidableEq ι] {reg : ℕ → ι} {N p q r s : ℕ}

/-- The qubits of a register of `N` qubits. -/
def register (reg : ℕ → ι) (N : ℕ) : List ι := (up 0 N).map reg

omit [DecidableEq ι] in
theorem mem_register {i : ℕ} (hi : i < N) : reg i ∈ register reg N :=
  List.mem_map_of_mem (Reversible.mem_up.mpr ⟨Nat.zero_le i, hi⟩)

omit [DecidableEq ι] in
theorem nodup_register (hreg : Set.InjOn reg (Set.Iio N)) : (register reg N).Nodup :=
  List.Nodup.map_on (fun _ hi _ hj heq ↦ hreg (Reversible.mem_up.mp hi).2
    (Reversible.mem_up.mp hj).2 heq) List.nodup_range'

omit [DecidableEq ι] in
theorem mem_register_of_mem_wires (hp : p < N) : ∀ w ∈ wires reg p q, w ∈ register reg N := by
  intro w hw
  obtain ⟨i, hi, rfl⟩ := List.mem_map.mp hw
  exact mem_register ((mem_down.mp hi).2.trans_lt hp)

omit [DecidableEq ι] in
theorem injOn_Iic (hreg : Set.InjOn reg (Set.Iio N)) (hp : p < N) : Set.InjOn reg (Set.Iic p) :=
  hreg.mono fun _ hi ↦ Set.mem_Iio.mpr ((Set.mem_Iic.mp hi).trans_lt hp)

theorem commute_DoubleExcitationOperator (hreg : Set.InjOn reg (Set.Iio N)) (hp : p < N)
    (hqp : q < p) (hrq : r < q) (hsr : s < r) (Theta_p_q_r_s : ℕ → ℕ → ℕ → ℕ → ℝ) :
    Commute (string (fun _ ↦ pauliZ) (register reg N))
      (meaning (DoubleExcitationOperator reg Theta_p_q_r_s p q r s)) := by
  have hchain : ∀ w ∈ chain reg p q r s, w ∈ register reg N := fun w hw ↦
    (List.mem_append.mp hw).elim (mem_register_of_mem_wires hp w)
      (mem_register_of_mem_wires ((hrq.trans hqp).trans hp) w)
  have hexcitation : ∀ i, Commute (string (fun _ ↦ pauliZ) (register reg N))
      (excitation reg p q r s i) := fun i ↦
    commute_pauliString_pauliZ (nodup_register hreg) (nodup_chain hrq hqp (injOn_Iic hreg hp))
      hchain (nodup_corners hsr hrq hqp (injOn_Iic hreg hp)) (mem_chain_of_mem_corners hsr hqp)
      ⟨2, rfl⟩ _
  rw [meaning_DoubleExcitationOperator hsr hrq hqp (injOn_Iic hreg hp)]
  refine Commute.list_prod_right _ _ fun A hA ↦ ?_
  obtain ⟨i, -, rfl⟩ := List.mem_map.mp hA
  exact (commute_rotation (hexcitation i).symm _).symm

theorem commute_SingleExcitationOperator (hreg : Set.InjOn reg (Set.Iio N)) (hp : p < N)
    (hqp : q < p) (Theta_p_q : ℕ → ℕ → ℝ) :
    Commute (string (fun _ ↦ pauliZ) (register reg N))
      (meaning (SingleExcitationOperator reg Theta_p_q p q)) := by
  have hpair : [reg q, reg p].Nodup := nodup_pair hqp (injOn_Iic hreg hp)
  have hends : ∀ k : Kind, Commute (string (fun _ ↦ pauliZ) (register reg N))
      (pauliString (fun _ ↦ k) [reg q, reg p] (wires reg p q)) := fun k ↦
    commute_pauliString_pauliZ (nodup_register hreg) (nodup_wires (injOn_Iic hreg hp))
      (mem_register_of_mem_wires hp) hpair (mem_wires_of_mem_pair hqp) even_two _
  have hflip : Commute (string (fun _ ↦ pauliZ) (register reg N))
      (string (fun _ ↦ pauliX) [reg q, reg p]) := by
    have hx : pauliString (fun _ ↦ .x) [reg q, reg p] [reg q, reg p] =
        string (fun _ ↦ pauliX) [reg q, reg p] := string_congr fun _ hw ↦ if_pos hw
    rw [← hx]
    exact commute_pauliString_pauliZ (nodup_register hreg) hpair
      (fun w hw ↦ mem_register_of_mem_wires hp w (mem_wires_of_mem_pair hqp w hw)) hpair
      (fun _ hw ↦ hw) even_two _
  rw [meaning_SingleExcitationOperator hqp (injOn_Iic hreg hp)]
  exact (hflip.neg_right.mul_right (commute_rotation (hends .y).symm _).symm).mul_right
    (commute_rotation (hends .x).symm _).symm

/-- **The circuit keeps the parity** of the number of ones in the register: it has no amplitude
between basis states of different parities. -/
theorem main_keepsParity (hreg : Set.InjOn reg (Set.Iio N)) (Theta_p_q : ℕ → ℕ → ℝ)
    (Theta_p_q_r_s : ℕ → ℕ → ℕ → ℕ → ℝ) {x y : ι → Bool}
    (hxy : (register reg N).countP y % 2 ≠ (register reg N).countP x % 2) :
    meaning (main reg Theta_p_q Theta_p_q_r_s N) (ket x) y = 0 := by
  have hcommute : Commute (string (fun _ ↦ pauliZ) (register reg N))
      (meaning (main reg Theta_p_q Theta_p_q_r_s N)) := by
    rw [main, meaning_append]
    refine Commute.mul_right ?_ ?_
    · refine commute_flatMap fun p hp ↦ commute_flatMap fun q hq ↦ ?_
      exact commute_SingleExcitationOperator hreg (Reversible.mem_up.mp hp).2
        (Reversible.mem_up.mp hq).2 _
    · refine commute_flatMap fun p hp ↦ commute_flatMap fun q hq ↦ commute_flatMap fun r hr ↦
        commute_flatMap fun s hs ↦ ?_
      exact commute_DoubleExcitationOperator hreg (Reversible.mem_up.mp hp).2
        (Reversible.mem_up.mp hq).2 (Reversible.mem_up.mp hr).2 (Reversible.mem_up.mp hs).2 _
  by_contra hne
  exact hxy (countP_mod_two_of_commute hcommute hne)

/-- A register of four qubits, from its first two qubits to its first three. -/
theorem main_keepsParity_four :
    meaning (main id (fun _ _ ↦ 1) (fun _ _ _ _ ↦ 1) 4) (ket fun i ↦ decide (i < 2))
      (fun i ↦ decide (i < 3)) = 0 :=
  main_keepsParity (Function.injective_id.injOn) _ _ (by decide)

end Main

end ScaffCC.VQE
