import ScaffCC.Quantum.Diagonal
import ScaffCC.Quantum.Undo
import ScaffCC.Shors.Qft

/-!
# The divider and its inverse

The program for 512 bits takes its angles from tables, in radians. Its inverse divider is a second
list of calls, and two of them are not the inverses of their counterparts: a controlled addition of
the other constant, and a subtraction where a subtraction has to be undone. The inverse divider
therefore undoes the divider only for tables that make these calls do nothing.
-/

namespace ScaffCC.Divider

open Quantum
open Reversible (up down mem_up mem_down)

/-! ## Gates -/

/-- A gate. The angle of a rotation is in radians. -/
inductive Gate (ι : Type*)
  | H (q : ι)
  | X (q : ι)
  | Rz (q : ι) (angle : ℚ)
  | CNOT (control target : ι)
deriving DecidableEq

structure Tables where
  angle_R : ℕ → ℚ
  angle_A_N : ℕ → ℚ
  angle_A_1 : ℕ → ℚ
  angle_A_dc : ℕ → ℚ

section Source

variable {ι : Type*}

def cRz (ctrl target : ι) (angle : ℚ) : List (Gate ι) :=
  [.Rz target (angle / 2), .CNOT ctrl target, .Rz target (-1 * angle / 2), .CNOT ctrl target]

/-- A loop of controlled negations. -/
def cnots (indices : List ℕ) (control target : ℕ → ι) : List (Gate ι) :=
  indices.flatMap fun i ↦ [.CNOT (control i) (target i)]

namespace Tables

variable (T : Tables) (n : ℕ)

def QFT (x : ℕ → ι) : List (Gate ι) :=
  (up 0 n).flatMap fun i ↦
    .H (x i) :: (up (i + 1) n).flatMap fun j ↦ cRz (x j) (x i) (T.angle_R j)

def iQFT (x : ℕ → ι) : List (Gate ι) :=
  (down 0 n).flatMap fun i ↦
    ((down (i + 1) n).flatMap fun j ↦ cRz (x j) (x i) (-T.angle_R j)) ++ [.H (x i)]

def QFT_2 (x0 x1 : ℕ → ι) : List (Gate ι) :=
  ((up 0 n).flatMap fun i ↦
    .H (x0 i) :: (((up (i + 1) n).flatMap fun j ↦ cRz (x0 j) (x0 i) (T.angle_R j)) ++
      (up 0 n).flatMap fun j ↦ cRz (x1 j) (x0 i) (T.angle_R (j + n)))) ++
  (up 0 n).flatMap fun i ↦
    .H (x1 i) :: (up (i + 1) n).flatMap fun j ↦ cRz (x1 j) (x1 i) (T.angle_R (j + n))

def iQFT_2 (x0 x1 : ℕ → ι) : List (Gate ι) :=
  ((down 0 n).flatMap fun i ↦
    ((down (i + 1) n).flatMap fun j ↦ cRz (x1 j) (x1 i) (-T.angle_R (j + n))) ++ [.H (x1 i)]) ++
  (down 0 n).flatMap fun i ↦
    (((down 0 n).flatMap fun j ↦ cRz (x1 j) (x0 i) (-T.angle_R (j + n))) ++
      (down (i + 1) n).flatMap fun j ↦ cRz (x0 j) (x0 i) (-T.angle_R j)) ++ [.H (x0 i)]

def QADD_2 (R0 R2 : ℕ → ι) : List (Gate ι) :=
  ((up 0 n).flatMap fun j ↦ [.Rz (R0 j) (T.angle_A_N j)]) ++
  (up 0 n).flatMap fun j ↦ [.Rz (R2 j) (T.angle_A_N (j + n))]

def iQADD_2 (R0 R2 : ℕ → ι) : List (Gate ι) :=
  ((down 0 n).flatMap fun j ↦ [.Rz (R2 j) (-T.angle_A_N (j + n))]) ++
  (down 0 n).flatMap fun j ↦ [.Rz (R0 j) (-T.angle_A_N j)]

/-- The controlled addition of a constant, with its table. -/
def CQADD (table : ℕ → ℚ) (n : ℕ) (ctrl : ι) (target : ℕ → ι) : List (Gate ι) :=
  (up 0 n).flatMap fun j ↦ cRz ctrl (target j) (table j)

/-- Its inverse. -/
def iCQADD (table : ℕ → ℚ) (n : ℕ) (ctrl : ι) (target : ℕ → ι) : List (Gate ι) :=
  (down 0 n).flatMap fun j ↦ cRz ctrl (target j) (-table j)

def CQADD_1 (ctrl : ι) (target : ℕ → ι) : List (Gate ι) := CQADD T.angle_A_1 n ctrl target

def iCQADD_1 (ctrl : ι) (target : ℕ → ι) : List (Gate ι) := iCQADD T.angle_A_1 n ctrl target

def CQADD_dc (ctrl : ι) (target : ℕ → ι) : List (Gate ι) := CQADD T.angle_A_dc n ctrl target

def iCQADD_dc (ctrl : ι) (target : ℕ → ι) : List (Gate ι) := iCQADD T.angle_A_dc n ctrl target

def QADDn (a b : ℕ → ι) : List (Gate ι) :=
  (down 0 n).flatMap fun i ↦ (up i n).flatMap fun j ↦ cRz (a i) (b j) (T.angle_R (j - i + 1))

def iQADDn (a b : ℕ → ι) : List (Gate ι) :=
  (up 0 n).flatMap fun i ↦ (down i n).flatMap fun j ↦ cRz (a i) (b j) (-T.angle_R (j - i + 1))

end Tables

end Source

/-- The registers of the divider, those of its caller and its own. -/
inductive Reg
  | Reg00
  | Reg10
  | Reg2
  | Reg3
  | Reg4
  | Reg51
  | Reg6
  | Aqbit
  | anc
deriving DecidableEq

abbrev Qubit := Reg × ℕ

namespace Tables

open Reg

variable (T : Tables) (n : ℕ)

def calls : List (List (Gate Qubit)) := [
    -- Compute
    T.QADDn n (Reg00, ·) (Reg4, ·),
    T.QADDn n (Reg10, ·) (Reg6, ·),
    T.QADDn n (Reg51, ·) (Reg4, ·),
    T.iQFT n (Reg6, ·),
    [.CNOT (Reg6, n - 1) (Aqbit, 0)],
    T.CQADD_1 n (Aqbit, 0) (Reg4, ·),
    T.QFT n (Reg6, ·),
    T.CQADD_dc n (Aqbit, 0) (Reg6, ·),
    T.iQFT n (Reg6, ·),
    T.QFT_2 n (Reg6, ·) (Reg51, ·),
    T.iQFT n (Reg4, ·),
    T.iQFT_2 n (Reg6, ·) (Reg51, ·),
    cnots (up 0 n) (Reg51, ·) (Reg2, n - n + ·),
    T.QFT n (Reg2, ·),
    T.QADDn n (Reg2, ·) (Reg4, ·),
    T.iCQADD_1 n (Aqbit, 0) (Reg2, ·),
    T.iQFT n (Reg2, ·),
    T.QFT_2 n (Reg10, ·) (Reg00, ·),
    cnots (up 0 n) (Reg2, ·) (Reg3, ·),
    T.iQADD_2 n (Reg10, ·) (Reg00, ·),
    T.QFT n (Reg2, ·),
    T.iQFT_2 n (Reg10, ·) (Reg00, ·),
    T.iQFT n (Reg2, ·),
    T.QFT_2 n (Reg10, ·) (Reg00, ·),
    T.QADD_2 n (Reg10, ·) (Reg00, ·),
    [.X (anc, 0)],
    T.iQFT_2 n (Reg10, ·) (Reg00, ·),
    -- UnCompute
    T.QFT n (Reg3, ·),
    T.iQADDn n (Reg3, ·) (Reg4, ·),
    T.CQADD_1 n (Aqbit, 0) (Reg3, ·),
    T.iQFT n (Reg3, ·),
    cnots (up 0 n) (Reg51, ·) (Reg3, ·),
    T.QFT_2 n (Reg6, ·) (Reg51, ·),
    T.iQFT_2 n (Reg6, ·) (Reg51, ·),
    T.QFT n (Reg4, ·),
    T.iCQADD_1 n (Aqbit, 0) (Reg4, ·),
    T.QFT n (Reg6, ·),
    T.iQADDn n (Reg00, ·) (Reg4, ·),
    T.iCQADD_1 n (Aqbit, 0) (Reg6, ·),
    T.QADDn n (Reg10, ·) (Reg6, ·),
    T.iQFT n (Reg6, ·),
    T.iQADDn n (Reg10, ·) (Reg4, ·),
    T.iQFT n (Reg4, ·),
    T.QFT n (Reg4, ·),
    T.iQADDn n (Reg10, ·) (Reg4, ·),
    T.iQFT n (Reg4, ·),
    T.QFT_2 n (Reg10, ·) (Reg00, ·),
    T.iQFT_2 n (Reg10, ·) (Reg00, ·)]

def GMQDIV2 : List (Gate Qubit) := (T.calls n).flatten

/-- The calls of the inverse divider. -/
def icalls : List (List (Gate Qubit)) := [
    -- UnCompute
    T.QFT_2 n (Reg10, ·) (Reg00, ·),
    T.iQFT_2 n (Reg10, ·) (Reg00, ·),
    T.QFT n (Reg4, ·),
    T.QADDn n (Reg10, ·) (Reg4, ·),
    T.iQFT n (Reg4, ·),
    T.QFT n (Reg4, ·),
    T.QADDn n (Reg10, ·) (Reg4, ·),
    T.QFT n (Reg6, ·),
    T.iQADDn n (Reg10, ·) (Reg6, ·),
    T.CQADD_dc n (Aqbit, 0) (Reg6, ·),
    T.QADDn n (Reg00, ·) (Reg4, ·),
    T.iQFT n (Reg6, ·),
    T.CQADD_1 n (Aqbit, 0) (Reg4, ·),
    T.iQFT n (Reg4, ·),
    T.QFT_2 n (Reg6, ·) (Reg51, ·),
    T.iQFT_2 n (Reg6, ·) (Reg51, ·),
    cnots (down 0 n) (Reg51, ·) (Reg3, ·),
    T.QFT n (Reg3, ·),
    T.iCQADD_1 n (Aqbit, 0) (Reg3, ·),
    T.iQADDn n (Reg3, ·) (Reg4, ·),
    T.iQFT n (Reg3, ·),
    -- Compute
    T.QFT_2 n (Reg10, ·) (Reg00, ·),
    [.X (anc, 0)],
    T.iQADD_2 n (Reg10, ·) (Reg00, ·),
    T.iQFT_2 n (Reg10, ·) (Reg00, ·),
    T.QFT n (Reg2, ·),
    T.QFT_2 n (Reg10, ·) (Reg00, ·),
    T.iQFT n (Reg2, ·),
    T.QADD_2 n (Reg10, ·) (Reg00, ·),
    cnots (down 0 n) (Reg2, ·) (Reg3, ·),
    T.iQFT_2 n (Reg10, ·) (Reg00, ·),
    T.QFT n (Reg2, ·),
    T.CQADD_1 n (Aqbit, 0) (Reg2, ·),
    T.iQADDn n (Reg2, ·) (Reg4, ·),
    T.iQFT n (Reg2, ·),
    cnots (down 0 n) (Reg51, ·) (Reg2, n - n + ·),
    T.QFT_2 n (Reg6, ·) (Reg51, ·),
    T.QFT n (Reg4, ·),
    T.iQFT_2 n (Reg6, ·) (Reg51, ·),
    T.QFT n (Reg6, ·),
    T.iCQADD_dc n (Aqbit, 0) (Reg6, ·),
    T.iQFT n (Reg6, ·),
    T.iCQADD_1 n (Aqbit, 0) (Reg4, ·),
    [.CNOT (Reg6, n - 1) (Aqbit, 0)],
    T.QFT n (Reg6, ·),
    T.iQADDn n (Reg51, ·) (Reg4, ·),
    T.iQADDn n (Reg10, ·) (Reg6, ·),
    T.iQADDn n (Reg00, ·) (Reg4, ·)]

def iGMQDIV2 : List (Gate Qubit) := (T.icalls n).flatten

end Tables

/-! ## Meaning -/

section Meaning

variable {ι : Type*} [DecidableEq ι]

noncomputable def Gate.operator : Gate ι → Op ι ℂ
  | H q => onWire q hadamard
  | X q => onWire q pauliX
  | Rz q angle => onWire q (rotZ angle)
  | CNOT c t => flip ℂ t fun x ↦ x c

/-- The operator of a circuit. -/
noncomputable def meaning (C : List (Gate ι)) : Op ι ℂ := compose Gate.operator C

theorem meaning_append (C D : List (Gate ι)) : meaning (C ++ D) = meaning D * meaning C :=
  compose_append C D

/-- The sign with which a rotation turns a bit. -/
def sign (b : Bool) : ℚ := if b then 1 else -1

def controlledAngle (c t : ι) (angle : ℚ) (x : ι → Bool) : ℚ :=
  if x c then sign (x t) * (angle / 2) else 0

/-- **The controlled rotation.** -/
theorem meaning_cRz {c t : ι} (h : c ≠ t) (angle : ℚ) :
    meaning (cRz c t angle) = turns (controlledAngle c t angle) := by
  have hindep : Indep (fun x : ι → Bool ↦ x c) t := fun x b ↦ Function.update_of_ne h b x
  have hflip : flip ℂ t (fun x ↦ x c) * flip ℂ t (fun x ↦ x c) = 1 := flip_mul_self hindep
  simp only [meaning, cRz, compose_cons, compose_nil, one_mul, Gate.operator,
    onWire_rotZ_eq_turns]
  rw [flip_mul_turns, mul_assoc (turns _) (flip ℂ t fun x ↦ x c), hflip, mul_one, turns_mul]
  congr 1
  funext x
  rw [flipWhen, Function.update_self, controlledAngle]
  cases x c <;> cases x t <;> simp [sign] <;> ring

theorem meaning_flatMap_turns {body : ℕ → List (Gate ι)} {φ : ℕ → (ι → Bool) → ℚ} {l : List ℕ}
    (h : ∀ i ∈ l, meaning (body i) = turns (φ i)) :
    meaning (l.flatMap body) = turns fun x ↦ (l.map fun i ↦ φ i x).sum := by
  induction l with
  | nil => exact turns_zero.symm
  | cons i l ih =>
    obtain ⟨hi, hl⟩ := List.forall_mem_cons.mp h
    rw [List.flatMap_cons, meaning_append, hi, ih hl, turns_mul]
    simp only [List.map_cons, List.sum_cons, add_comm]

/-! ## Modules that undo each other -/

theorem cRz_undoes {c t : ι} (h : c ≠ t) (angle : ℚ) :
    Undoes Gate.operator (cRz c t (-angle)) (cRz c t angle) := by
  have hcancel : ∀ angle angle' : ℚ, angle + angle' = 0 →
      meaning (cRz c t angle) * meaning (cRz c t angle') = 1 := by
    intro angle angle' hsum
    rw [meaning_cRz h, meaning_cRz h, turns_mul, turns_eq_one_iff]
    intro x
    obtain rfl := eq_neg_of_add_eq_zero_left hsum
    rw [controlledAngle, controlledAngle]
    split_ifs
    · ring
    · exact add_zero 0
  exact ⟨hcancel _ _ (neg_add_cancel angle), hcancel _ _ (add_neg_cancel angle)⟩

theorem Rz_undoes (q : ι) (angle : ℚ) :
    Undoes Gate.operator [.Rz q (-angle)] [.Rz q angle] := by
  have hcancel : ∀ angle angle' : ℚ, angle + angle' = 0 →
      compose Gate.operator [.Rz q angle] * compose Gate.operator [.Rz q angle'] = 1 := by
    intro angle angle' hsum
    simp only [compose_cons, compose_nil, one_mul, Gate.operator, onWire_rotZ_eq_turns]
    rw [turns_mul, turns_eq_one_iff]
    intro x
    obtain rfl := eq_neg_of_add_eq_zero_left hsum
    split_ifs <;> ring
  exact ⟨hcancel _ _ (neg_add_cancel angle), hcancel _ _ (add_neg_cancel angle)⟩

theorem gate_undoes {g : Gate ι} (h : g.operator * g.operator = 1) :
    Undoes Gate.operator [g] [g] := by
  refine ⟨?_, ?_⟩ <;> simpa using h

theorem H_undoes (q : ι) : Undoes Gate.operator [.H q] [.H q] := gate_undoes <| by
  rw [Gate.operator, onWire_mul, hadamard_mul_self, onWire_one]

theorem X_undoes (q : ι) : Undoes Gate.operator [.X q] [.X q] := gate_undoes <| by
  rw [Gate.operator, onWire_mul, pauliX_mul_self, onWire_one]

theorem CNOT_undoes {c t : ι} (h : c ≠ t) : Undoes Gate.operator [.CNOT c t] [.CNOT c t] :=
  gate_undoes <| flip_mul_self fun x b ↦ Function.update_of_ne h b x

theorem up_undoes {a b : ℕ} {body body' : ℕ → List (Gate ι)}
    (h : ∀ i, a ≤ i → i < b → Undoes Gate.operator (body' i) (body i)) :
    Undoes Gate.operator ((down a b).flatMap body') ((up a b).flatMap body) :=
  .flatMap fun i hi ↦ h i (mem_up.mp hi).1 (mem_up.mp hi).2

theorem down_undoes {a b : ℕ} {body body' : ℕ → List (Gate ι)}
    (h : ∀ i, a ≤ i → i < b → Undoes Gate.operator (body' i) (body i)) :
    Undoes Gate.operator ((up a b).flatMap body') ((down a b).flatMap body) := by
  have hloop := Undoes.flatMap (l := down a b) fun i hi ↦
    h i (mem_down.mp hi).1 (mem_down.mp hi).2
  rwa [down, List.reverse_reverse, ← down] at hloop

theorem cnots_undoes (n : ℕ) {control target : ℕ → ι} (h : ∀ i, control i ≠ target i) :
    Undoes Gate.operator (cnots (down 0 n) control target) (cnots (up 0 n) control target) :=
  up_undoes fun i _ _ ↦ CNOT_undoes (h i)

namespace Tables

variable (T : Tables) (n : ℕ) {x x0 x1 a b R0 R2 target : ℕ → ι} {ctrl : ι}

theorem iQFT_undoes (hx : Function.Injective x) :
    Undoes Gate.operator (T.iQFT n x) (T.QFT n x) :=
  up_undoes fun i _ _ ↦ (H_undoes (x i)).append (up_undoes fun _ hj _ ↦
    cRz_undoes (hx.ne (Nat.ne_of_gt hj)) _)

theorem iQFT_2_undoes (hx0 : Function.Injective x0) (hx1 : Function.Injective x1)
    (h : ∀ i j, x1 j ≠ x0 i) : Undoes Gate.operator (T.iQFT_2 n x0 x1) (T.QFT_2 n x0 x1) := by
  refine .append (up_undoes fun i _ _ ↦ ?_) (up_undoes fun i _ _ ↦ ?_)
  · exact (H_undoes (x0 i)).append
      ((up_undoes fun j hj _ ↦ cRz_undoes (hx0.ne (Nat.ne_of_gt hj)) _).append
        (up_undoes fun j _ _ ↦ cRz_undoes (h i j) _))
  · exact (H_undoes (x1 i)).append (up_undoes fun j hj _ ↦
      cRz_undoes (hx1.ne (Nat.ne_of_gt hj)) _)

theorem iQADD_2_undoes (R0 R2 : ℕ → ι) :
    Undoes Gate.operator (T.iQADD_2 n R0 R2) (T.QADD_2 n R0 R2) :=
  .append (up_undoes fun j _ _ ↦ Rz_undoes (R0 j) _) (up_undoes fun j _ _ ↦ Rz_undoes (R2 j) _)

theorem iCQADD_undoes (table : ℕ → ℚ) (n : ℕ) (h : ∀ j, ctrl ≠ target j) :
    Undoes Gate.operator (iCQADD table n ctrl target) (CQADD table n ctrl target) :=
  up_undoes fun j _ _ ↦ cRz_undoes (h j) _

theorem iQADDn_undoes (h : ∀ i j, a i ≠ b j) :
    Undoes Gate.operator (T.iQADDn n a b) (T.QADDn n a b) :=
  down_undoes fun i _ _ ↦ up_undoes fun j _ _ ↦ cRz_undoes (h i j) _

end Tables

/-! ## Targets -/

/-- The qubit that a gate acts on. -/
def Gate.target : Gate ι → ι
  | H q | X q | Rz q _ | CNOT _ q => q

theorem keeps_operator {w : ι} {g : Gate ι} (h : g.target ≠ w) : Keeps w g.operator := by
  cases g with
  | H q | X q | Rz q _ => exact Keeps.onWire h _
  | CNOT c t => exact Keeps.flip h _

/-- The gates act on no other qubits. -/
def Targets (P : ι → Prop) (C : List (Gate ι)) : Prop := ∀ g ∈ C, P g.target

variable {P : ι → Prop}

omit [DecidableEq ι] in
@[simp] theorem targets_nil : Targets P [] := nofun

omit [DecidableEq ι] in
@[simp] theorem targets_cons {g : Gate ι} {C : List (Gate ι)} :
    Targets P (g :: C) ↔ P g.target ∧ Targets P C := List.forall_mem_cons

omit [DecidableEq ι] in
@[simp] theorem targets_append {C D : List (Gate ι)} :
    Targets P (C ++ D) ↔ Targets P C ∧ Targets P D := List.forall_mem_append

omit [DecidableEq ι] in
theorem targets_flatMap {l : List ℕ} {body : ℕ → List (Gate ι)} (h : ∀ i, Targets P (body i)) :
    Targets P (l.flatMap body) := List.forall_mem_flatMap.mpr fun i _ ↦ h i

omit [DecidableEq ι] in
theorem targets_cRz {c t : ι} {angle : ℚ} (h : P t) : Targets P (cRz c t angle) := by
  simp [cRz, Gate.target, h]

omit [DecidableEq ι] in
theorem targets_flatten {Ls : List (List (Gate ι))} (h : ∀ C ∈ Ls, Targets P C) :
    Targets P Ls.flatten := fun g hg ↦ by
  obtain ⟨C, hC, hgC⟩ := List.mem_flatten.mp hg
  exact h C hC g hgC

theorem Targets.keeps {w : ι} {C : List (Gate ι)} (h : Targets (· ≠ w) C) :
    Keeps w (compose Gate.operator C) :=
  Keeps.compose fun g hg ↦ keeps_operator (h g hg)

end Meaning

/-! ## The parts -/

namespace Tables

open Reg

variable (T : Tables) (n : ℕ)

theorem reg_ne {r r' : Reg} (h : r ≠ r') (i j : ℕ) : (r, i) ≠ (r', j) :=
  fun heq ↦ h (congrArg Prod.fst heq)

theorem undo_QFT (r : Reg) : Undoes Gate.operator (T.iQFT n (r, ·)) (T.QFT n (r, ·)) :=
  T.iQFT_undoes n (Prod.mk_right_injective r)

theorem undo_QFT_2 {r r' : Reg} (h : r' ≠ r) :
    Undoes Gate.operator (T.iQFT_2 n (r, ·) (r', ·)) (T.QFT_2 n (r, ·) (r', ·)) :=
  T.iQFT_2_undoes n (Prod.mk_right_injective r) (Prod.mk_right_injective r') fun i j ↦ reg_ne h j i

theorem undo_QADDn {r r' : Reg} (h : r ≠ r') :
    Undoes Gate.operator (T.iQADDn n (r, ·) (r', ·)) (T.QADDn n (r, ·) (r', ·)) :=
  T.iQADDn_undoes n fun i j ↦ reg_ne h i j

theorem undo_CQADD (table : ℕ → ℚ) {r : Reg} (h : Aqbit ≠ r) :
    Undoes Gate.operator (iCQADD table n (Aqbit, 0) (r, ·)) (CQADD table n (Aqbit, 0) (r, ·)) :=
  iCQADD_undoes table n fun j ↦ reg_ne h 0 j

theorem undo_cnots {r r' : Reg} (h : r ≠ r') (f : ℕ → ℕ) :
    Undoes Gate.operator (cnots (down 0 n) (r, ·) fun i ↦ (r', f i))
      (cnots (up 0 n) (r, ·) fun i ↦ (r', f i)) :=
  cnots_undoes n fun i ↦ reg_ne h i (f i)

theorem undo_before :
    Undoes Gate.operator ((T.icalls n).drop 20).flatten ((T.calls n).take 28).flatten := by
  refine .flatten ?_
  refine .cons (T.undo_QADDn n (by decide)) <| .cons (T.undo_QADDn n (by decide)) <|
    .cons (T.undo_QADDn n (by decide)) <| .cons (T.undo_QFT n Reg6).symm <|
    .cons (CNOT_undoes (reg_ne (by decide) _ _)) <| .cons (undo_CQADD n _ (by decide)) <|
    .cons (T.undo_QFT n Reg6) <| .cons (undo_CQADD n _ (by decide)) <|
    .cons (T.undo_QFT n Reg6).symm <| .cons (T.undo_QFT_2 n (by decide)) <|
    .cons (T.undo_QFT n Reg4).symm <| .cons (T.undo_QFT_2 n (by decide)).symm <|
    .cons (undo_cnots n (by decide) _) <| .cons (T.undo_QFT n Reg2) <|
    .cons (T.undo_QADDn n (by decide)) <| .cons (undo_CQADD n _ (by decide)).symm <|
    .cons (T.undo_QFT n Reg2).symm <| .cons (T.undo_QFT_2 n (by decide)) <|
    .cons (undo_cnots n (by decide) _) <| .cons (T.iQADD_2_undoes n _ _).symm <|
    .cons (T.undo_QFT n Reg2) <| .cons (T.undo_QFT_2 n (by decide)).symm <|
    .cons (T.undo_QFT n Reg2).symm <| .cons (T.undo_QFT_2 n (by decide)) <|
    .cons (T.iQADD_2_undoes n _ _) <| .cons (X_undoes _) <|
    .cons (T.undo_QFT_2 n (by decide)).symm <| .cons (T.undo_QFT n Reg3) .nil

theorem undo_between : Undoes Gate.operator (((T.icalls n).drop 10).take 9).flatten
    (((T.calls n).drop 29).take 9).flatten := by
  refine .flatten ?_
  refine .cons (undo_CQADD n _ (by decide)) <| .cons (T.undo_QFT n Reg3).symm <|
    .cons (undo_cnots n (by decide) _) <| .cons (T.undo_QFT_2 n (by decide)) <|
    .cons (T.undo_QFT_2 n (by decide)).symm <| .cons (T.undo_QFT n Reg4) <|
    .cons (undo_CQADD n _ (by decide)).symm <| .cons (T.undo_QFT n Reg6) <|
    .cons (T.undo_QADDn n (by decide)).symm .nil

theorem undo_after :
    Undoes Gate.operator ((T.icalls n).take 9).flatten ((T.calls n).drop 39).flatten := by
  refine .flatten ?_
  refine .cons (T.undo_QADDn n (by decide)) <| .cons (T.undo_QFT n Reg6).symm <|
    .cons (T.undo_QADDn n (by decide)).symm <| .cons (T.undo_QFT n Reg4).symm <|
    .cons (T.undo_QFT n Reg4) <| .cons (T.undo_QADDn n (by decide)).symm <|
    .cons (T.undo_QFT n Reg4).symm <| .cons (T.undo_QFT_2 n (by decide)) <|
    .cons (T.undo_QFT_2 n (by decide)).symm .nil

section Targets

variable {P : Qubit → Prop} {a b : ℕ → Qubit}

theorem targets_QFT (ha : ∀ i, P (a i)) : Targets P (T.QFT n a) :=
  targets_flatMap fun i ↦ targets_cons.mpr ⟨ha i, targets_flatMap fun _ ↦ targets_cRz (ha i)⟩

theorem targets_iQFT (ha : ∀ i, P (a i)) : Targets P (T.iQFT n a) :=
  targets_flatMap fun i ↦ targets_append.mpr
    ⟨targets_flatMap fun _ ↦ targets_cRz (ha i), targets_cons.mpr ⟨ha i, targets_nil⟩⟩

theorem targets_QFT_2 (ha : ∀ i, P (a i)) (hb : ∀ i, P (b i)) : Targets P (T.QFT_2 n a b) :=
  targets_append.mpr ⟨targets_flatMap fun i ↦ targets_cons.mpr ⟨ha i, targets_append.mpr
      ⟨targets_flatMap fun _ ↦ targets_cRz (ha i), targets_flatMap fun _ ↦ targets_cRz (ha i)⟩⟩,
    targets_flatMap fun i ↦ targets_cons.mpr ⟨hb i, targets_flatMap fun _ ↦ targets_cRz (hb i)⟩⟩

theorem targets_iQFT_2 (ha : ∀ i, P (a i)) (hb : ∀ i, P (b i)) : Targets P (T.iQFT_2 n a b) :=
  targets_append.mpr ⟨targets_flatMap fun i ↦ targets_append.mpr
      ⟨targets_flatMap fun _ ↦ targets_cRz (hb i), targets_cons.mpr ⟨hb i, targets_nil⟩⟩,
    targets_flatMap fun i ↦ targets_append.mpr ⟨targets_append.mpr
        ⟨targets_flatMap fun _ ↦ targets_cRz (ha i), targets_flatMap fun _ ↦ targets_cRz (ha i)⟩,
      targets_cons.mpr ⟨ha i, targets_nil⟩⟩⟩

end Targets

theorem keeps_between : Keeps (Aqbit, 0) (compose Gate.operator
    (((T.calls n).drop 29).take 9).flatten) := by
  have hreg : ∀ {r : Reg}, r ≠ Aqbit → ∀ i, ((r, i) : Qubit) ≠ (Aqbit, 0) :=
    fun h i ↦ reg_ne h i 0
  refine Targets.keeps (targets_flatten ?_)
  have hall : ((T.calls n).drop 29).take 9 = [
      T.CQADD_1 n (Aqbit, 0) (Reg3, ·), T.iQFT n (Reg3, ·), cnots (up 0 n) (Reg51, ·) (Reg3, ·),
      T.QFT_2 n (Reg6, ·) (Reg51, ·), T.iQFT_2 n (Reg6, ·) (Reg51, ·), T.QFT n (Reg4, ·),
      T.iCQADD_1 n (Aqbit, 0) (Reg4, ·), T.QFT n (Reg6, ·), T.iQADDn n (Reg00, ·) (Reg4, ·)] := rfl
  rw [hall]
  simp only [List.forall_mem_cons]
  refine ⟨?_, ?_, ?_, ?_, ?_, ?_, ?_, ?_, ?_, nofun⟩
  · exact targets_flatMap fun i ↦ targets_cRz (hreg (by decide) i)
  · exact T.targets_iQFT n (hreg (by decide))
  · exact targets_flatMap fun i ↦ targets_cons.mpr ⟨hreg (by decide) i, targets_nil⟩
  · exact T.targets_QFT_2 n (hreg (by decide)) (hreg (by decide))
  · exact T.targets_iQFT_2 n (hreg (by decide)) (hreg (by decide))
  · exact T.targets_QFT n (hreg (by decide))
  · exact targets_flatMap fun i ↦ targets_cRz (hreg (by decide) i)
  · exact T.targets_QFT n (hreg (by decide))
  · exact targets_flatMap fun i ↦ targets_flatMap fun j ↦ targets_cRz (hreg (by decide) j)

/-! ## The two calls -/

/-- The angles of the two controlled additions together. -/
def constantAngle (x : Qubit → Bool) : ℚ :=
  ((down 0 n).map fun j ↦ controlledAngle (Aqbit, 0) (Reg6, j) (-T.angle_A_1 j) x).sum +
    ((up 0 n).map fun j ↦ controlledAngle (Aqbit, 0) (Reg6, j) (T.angle_A_dc j) x).sum

def subtractionAngle (x : Qubit → Bool) : ℚ :=
  ((up 0 n).map fun i ↦ ((down i n).map fun j ↦
    controlledAngle (Reg3, i) (Reg4, j) (-T.angle_R (j - i + 1)) x).sum).sum

theorem meaning_constants : meaning (T.iCQADD_1 n (Aqbit, 0) (Reg6, ·) ++
    T.CQADD_dc n (Aqbit, 0) (Reg6, ·)) = turns (T.constantAngle n) := by
  rw [meaning_append, iCQADD_1, CQADD_dc, iCQADD, CQADD,
    meaning_flatMap_turns fun j _ ↦ meaning_cRz (reg_ne (by decide) 0 j) _,
    meaning_flatMap_turns fun j _ ↦ meaning_cRz (reg_ne (by decide) 0 j) _, turns_mul]
  exact congrArg turns (funext fun x ↦ add_comm ..)

theorem meaning_subtraction :
    meaning (T.iQADDn n (Reg3, ·) (Reg4, ·)) = turns (T.subtractionAngle n) :=
  meaning_flatMap_turns fun i _ ↦
    meaning_flatMap_turns fun j _ ↦ meaning_cRz (reg_ne (by decide) i j) _

theorem constantAngle_of_clear {x : Qubit → Bool} (hx : x (Aqbit, 0) = false) :
    T.constantAngle n x = 0 := by
  simp [constantAngle, controlledAngle, hx]

theorem subtractionAngle_update (x : Qubit → Bool) (b : Bool) :
    T.subtractionAngle n (Function.update x (Aqbit, 0) b) = T.subtractionAngle n x := by
  have hne : ∀ {r : Reg} (i : ℕ), r ≠ Aqbit → Function.update x (Aqbit, 0) b (r, i) = x (r, i) :=
    fun i h ↦ Function.update_of_ne (reg_ne h i 0) b x
  simp only [subtractionAngle, controlledAngle, hne _ (by decide : Reg3 ≠ Aqbit),
    hne _ (by decide : Reg4 ≠ Aqbit)]

/-- **What is left**: the inverse undoes the divider exactly if the two calls that are not undone do
nothing. -/
theorem meaning_eq_one_iff : meaning (T.GMQDIV2 n ++ T.iGMQDIV2 n) = 1 ↔
    (∀ x, T.constantAngle n x = 0) ∧ ∀ x, T.subtractionAngle n x = 0 := by
  let sub := T.iQADDn n (Reg3, ·) (Reg4, ·)
  let between := (((T.calls n).drop 29).take 9).flatten
  let between' := (((T.icalls n).drop 10).take 9).flatten
  let one := T.iCQADD_1 n (Aqbit, 0) (Reg6, ·)
  let dc := T.CQADD_dc n (Aqbit, 0) (Reg6, ·)
  have hcalls : T.GMQDIV2 n = ((T.calls n).take 28).flatten ++ (sub ++ between ++ one) ++
      ((T.calls n).drop 39).flatten := by
    have hsplit : T.calls n = (T.calls n).take 28 ++ ([sub] ++ ((T.calls n).drop 29).take 9 ++
      [one]) ++ (T.calls n).drop 39 := rfl
    rw [GMQDIV2, hsplit]
    simp only [List.flatten_append, List.flatten_singleton]
    rfl
  have hicalls : T.iGMQDIV2 n = ((T.icalls n).take 9).flatten ++ ((dc ++ between' ++ sub) ++
      ((T.icalls n).drop 20).flatten) := by
    have hsplit : T.icalls n = (T.icalls n).take 9 ++ (([dc] ++ ((T.icalls n).drop 10).take 9 ++
      [sub]) ++ (T.icalls n).drop 20) := rfl
    rw [iGMQDIV2, hsplit]
    simp only [List.flatten_append, List.flatten_singleton]
    rfl
  have haround : meaning (T.GMQDIV2 n ++ T.iGMQDIV2 n) = 1 ↔
      meaning (sub ++ (between ++ (one ++ dc) ++ between') ++ sub) = 1 := by
    rw [hcalls, hicalls, meaning, (T.undo_after n).compose_cancel, ← meaning]
    have hassoc : ((T.calls n).take 28).flatten ++ (sub ++ between ++ one) ++
        (dc ++ between' ++ sub ++ ((T.icalls n).drop 20).flatten) =
        ((T.calls n).take 28).flatten ++ (sub ++ (between ++ (one ++ dc) ++ between') ++ sub) ++
          ((T.icalls n).drop 20).flatten := by
      simp only [List.append_assoc]
    rw [hassoc]
    exact (T.undo_before n).compose_around_iff _
  have hsub : Undoes Gate.operator sub (T.QADDn n (Reg3, ·) (Reg4, ·)) :=
    T.undo_QADDn n (by decide)
  -- The two subtractions are brought together by a third one and its inverse.
  have htwice : meaning (sub ++ (between ++ (one ++ dc) ++ between') ++ sub) = 1 ↔
      meaning (sub ++ sub ++ (between ++ (one ++ dc) ++ between')) = 1 := by
    rw [meaning, meaning, ← hsub.compose_around_iff (sub ++ sub ++ _), ← List.nil_append (_ ++ sub),
      ← hsub.compose_cancel []]
    simp only [List.nil_append, List.append_assoc]
  have hmeaning : meaning (sub ++ sub ++ (between ++ (one ++ dc) ++ between')) =
      compose Gate.operator between' * turns (T.constantAngle n) * compose Gate.operator between *
        turns fun x ↦ T.subtractionAngle n x + T.subtractionAngle n x := by
    have hconstants : meaning (one ++ dc) = turns (T.constantAngle n) := T.meaning_constants n
    have hsubtraction : meaning sub = turns (T.subtractionAngle n) := T.meaning_subtraction n
    rw [meaning_append (sub ++ sub), meaning_append (between ++ _), meaning_append between,
      hconstants, meaning_append sub, hsubtraction, turns_mul, ← mul_assoc]
    rfl
  rw [haround, htwice, hmeaning, turns, turns, mul_diag_eq_one_iff (T.undo_between n).left
    (T.undo_between n).right (T.keeps_between n)
    (fun x hx ↦ by rw [T.constantAngle_of_clear n hx, radians_zero])
    (fun x b ↦ by rw [T.subtractionAngle_update]), ← turns, ← turns, turns_eq_one_iff,
    turns_eq_one_iff]
  simp only [add_self_eq_zero]

/-! ## The tables -/

omit T in
theorem forall_sum_sign_eq_zero_iff {θ : ℕ → ℚ} :
    (∀ s : ℕ → Bool, ∑ j ∈ Finset.range n, sign (s j) * θ j = 0) ↔ ∀ j < n, θ j = 0 := by
  constructor
  · intro h j hj
    -- Two choices of the signs that differ at one place.
    have hdiff : ∑ k ∈ Finset.range n, (sign true * θ k - sign (decide (k ≠ j)) * θ k) = 0 := by
      rw [Finset.sum_sub_distrib, h fun _ ↦ true, h fun k ↦ decide (k ≠ j), sub_zero]
    rw [Finset.sum_eq_single j] at hdiff
    · simp only [sign, ne_eq, not_true_eq_false, decide_false, if_true, Bool.false_eq_true,
        if_false] at hdiff
      linarith
    · intro k _ hk
      simp [hk]
    · exact fun hj' ↦ absurd (Finset.mem_range.mpr hj) hj'
  · intro h s
    refine Finset.sum_eq_zero fun j hj ↦ ?_
    rw [h j (Finset.mem_range.mp hj), mul_zero]

theorem constantAngle_eq_zero_iff :
    (∀ x, T.constantAngle n x = 0) ↔ ∀ j < n, T.angle_A_1 j = T.angle_A_dc j := by
  have hsum : ∀ x, T.constantAngle n x = if x (Aqbit, 0) then
      ∑ j ∈ Finset.range n, sign (x (Reg6, j)) * ((T.angle_A_dc j - T.angle_A_1 j) / 2) else 0 := by
    intro x
    rw [constantAngle, down, List.map_reverse, List.sum_reverse, Shors.sum_up (Nat.zero_le n),
      Shors.sum_up (Nat.zero_le n), Nat.Ico_zero_eq_range, ← Finset.sum_add_distrib]
    split_ifs with hx
    · refine Finset.sum_congr rfl fun j _ ↦ ?_
      rw [controlledAngle, controlledAngle, if_pos hx, if_pos hx]
      ring
    · refine Finset.sum_eq_zero fun j _ ↦ ?_
      rw [controlledAngle, controlledAngle, if_neg hx, if_neg hx, add_zero]
  have hsign : (∀ x, T.constantAngle n x = 0) ↔ ∀ s : ℕ → Bool,
      ∑ j ∈ Finset.range n, sign (s j) * ((T.angle_A_dc j - T.angle_A_1 j) / 2) = 0 := by
    constructor
    · intro h s
      let x : Qubit → Bool := fun q ↦ if q.1 = Reg6 then s q.2 else true
      have hset : x (Aqbit, 0) = true := rfl
      have hx := h x
      rwa [hsum, if_pos hset] at hx
    · intro h x
      rw [hsum]
      split_ifs
      · exact h fun j ↦ x (Reg6, j)
      · rfl
  rw [hsign, forall_sum_sign_eq_zero_iff]
  refine forall₂_congr fun j _ ↦ ?_
  rw [div_eq_zero_iff, or_iff_left two_ne_zero, sub_eq_zero, eq_comm]

theorem subtractionAngle_eq_zero_iff :
    (∀ x, T.subtractionAngle n x = 0) ↔ ∀ m, 1 ≤ m → m ≤ n → T.angle_R m = 0 := by
  constructor
  · intro h
    rcases Nat.eq_zero_or_pos n with rfl | hn
    · intro m hm hm'
      omega
    -- Only the first bit of the number that is subtracted is set.
    have hfirst : ∀ s : ℕ → Bool,
        ∑ j ∈ Finset.range n, sign (s j) * (-T.angle_R (j + 1) / 2) = 0 := by
      intro s
      let x : Qubit → Bool := fun q ↦ if q.1 = Reg3 then q.2 = 0 else s q.2
      have hzero : ∀ i ∈ Finset.Ico 0 n, i ≠ 0 → ((down i n).map fun j ↦
          controlledAngle (Reg3, i) (Reg4, j) (-T.angle_R (j - i + 1)) x).sum = 0 := by
        intro i _ hi
        refine List.sum_eq_zero fun q hq ↦ ?_
        obtain ⟨j, -, rfl⟩ := List.mem_map.mp hq
        exact if_neg (by simp [x, hi])
      have hx := h x
      rw [subtractionAngle, Shors.sum_up (Nat.zero_le n), Finset.sum_eq_single 0 hzero
        fun h0 ↦ absurd (Finset.mem_Ico.mpr ⟨le_rfl, hn⟩) h0, down, List.map_reverse,
        List.sum_reverse, Shors.sum_up (Nat.zero_le n), Nat.Ico_zero_eq_range] at hx
      rw [← hx]
      refine Finset.sum_congr rfl fun j _ ↦ ?_
      rw [controlledAngle, if_pos (by simp [x])]
      rfl
    intro m hm hmn
    obtain ⟨j, rfl⟩ : ∃ j, m = j + 1 := ⟨m - 1, by omega⟩
    have hj := (forall_sum_sign_eq_zero_iff n).mp hfirst j (by omega)
    linarith
  · intro h x
    refine List.sum_eq_zero fun q hq ↦ ?_
    obtain ⟨i, -, rfl⟩ := List.mem_map.mp hq
    refine List.sum_eq_zero fun q hq ↦ ?_
    obtain ⟨j, hj, rfl⟩ := List.mem_map.mp hq
    obtain ⟨hij, hjn⟩ := mem_down.mp hj
    rw [h (j - i + 1) (by omega) (by omega), controlledAngle]
    simp

/-! ## The result -/

/-- **When the inverse divider undoes the divider**: the two constants have the same angles, and the
angles that the adder uses are zero. -/
theorem iGMQDIV2_undoes_iff : meaning (T.GMQDIV2 n ++ T.iGMQDIV2 n) = 1 ↔
    (∀ j < n, T.angle_A_1 j = T.angle_A_dc j) ∧ ∀ m, 1 ≤ m → m ≤ n → T.angle_R m = 0 := by
  rw [meaning_eq_one_iff, constantAngle_eq_zero_iff, subtractionAngle_eq_zero_iff]

/-- One bit, with the first angles of the program. -/
theorem not_iGMQDIV2_undoes_one :
    ¬ meaning (GMQDIV2 ⟨fun _ ↦ 3.141592, fun _ ↦ 3.141592, fun _ ↦ 3.141592, fun _ ↦ 3.141592⟩ 1 ++
      iGMQDIV2 ⟨fun _ ↦ 3.141592, fun _ ↦ 3.141592, fun _ ↦ 3.141592, fun _ ↦ 3.141592⟩ 1) = 1 := by
  rw [meaning_eq_one_iff, subtractionAngle_eq_zero_iff]
  rintro ⟨-, h⟩
  have hone := h 1 le_rfl le_rfl
  norm_num at hone

end Tables

end ScaffCC.Divider
