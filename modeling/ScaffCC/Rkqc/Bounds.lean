import Mathlib.Data.Int.Range
import ScaffCC.Rkqc.Assign
import ScaffCC.Rkqc.Times

/-!
# Positions of registers

The functions of the reversible library reach the bits of a register by an index that nothing
checks. Here their indices are integers, which can be negative, and the circuits of the other
modules are these with the indices made natural numbers. All of them stay inside the registers,
except the subtractor for registers of one bit and the assignment of a string that is longer than
the register: it stops one character too late.
-/

namespace ScaffCC.Rkqc

open Reversible

/-! ## The source -/

section Source

variable {ι : Type*}

/-- The integers from `a` up to `b - 1`. -/
def upZ (a b : ℤ) : List ℤ := Int.range a b

/-- The integers from `b - 1` down to `a`. -/
def downZ (a b : ℤ) : List ℤ := (upZ a b).reverse

/-- `x` is increased by `y`, with two registers of ancillas. -/
def plusGates (x y zero ancilla : ℤ → ι) (size : ℤ) : List (Gate ι) :=
  (upZ 0 size).flatMap fun i ↦
    [cnot (x i) (ancilla i), cnot (y i) (zero i), cnot (x i) (y i),
      toffoli (y i) (ancilla i) (x i), cnot (zero i) (ancilla i), cnot (zero i) (y i)]

/-- `x` is decreased by `y`. -/
def minusGates (x y : ℤ → ι) (size : ℤ) : List (Gate ι) :=
  (downZ 1 size).flatMap (fun i ↦
    [cnot (y i) (x i), cnot (x i) (y i), cnot (y (i - 1)) (y i)]) ++
  [cnot (y 0) (x 0), cnot (x 0) (y 0), cnot (y 0) (y 1)] ++
  (upZ 2 size).flatMap (fun i ↦
    [toffoli (y (i - 2)) (x (i - 2)) (y (i - 1)), cnot (y (i - 1)) (y i)]) ++
  [toffoli (y (size - 2)) (x (size - 2)) (y (size - 1))] ++
  (downZ 1 size).flatMap (fun i ↦ [toffoli (y (i - 1)) (x (i - 1)) (x i)]) ++
  [cnot (x 0) (y 0)] ++
  (upZ 1 size).flatMap (fun i ↦ [cnot (x (i - 1)) (x i), cnot (x i) (y i)])

def roundGates (a b c : ℤ → ι) (size j : ℤ) : List (Gate ι) :=
  (upZ 1 (size - j)).flatMap (fun i ↦
    [toffoli (b j) (a (size - i)) (c (size - i - j)),
      toffoli (b j) (a (size - i - 1)) (a (size - i))]) ++
  (if j = 0 then [toffoli (b 0) (a 0) (c 0)] else [toffoli (b j) (a j) (c 0)]) ++
  (upZ 0 (size - 1 - j)).flatMap (fun i ↦ [toffoli₃ (b j) (c i) (a (i + j)) (a (i + j + 1))]) ++
  [toffoli₃ (b j) (c (size - 2 - j)) (a (size - 2)) (c (size - 1 - j))] ++
  (downZ (j + 1) (size - 1)).flatMap (fun i ↦
    [toffoli (b j) (c (i - j)) (c (i + 1 - j)),
      toffoli₃ (b j) (c (i - 1 - j)) (a (i - 1)) (c (i - j))]) ++
  [toffoli (b j) (c 0) (c 1), toffoli (b j) (a (0 + j)) (c 0),
    toffoli (b j) (c 0) (a (0 + j))] ++
  (upZ 1 (size - j)).flatMap (fun i ↦
    [toffoli (b j) (c (i - 1)) (c i), toffoli (b j) (a (i + j)) (c i),
      toffoli (b j) (c i) (a (i + j))])

/-- `a` is increased by the product of `b` and `c`. -/
def timesGates (a b c : ℤ → ι) (size : ℤ) : List (Gate ι) :=
  (upZ 0 (size - 1)).flatMap (roundGates a b c size) ++
  [toffoli (b (size - 1)) (a (size - 1)) (c 0), toffoli (b (size - 1)) (a (size - 1)) (c 0),
    toffoli (b (size - 1)) (c 0) (a (size - 1))]

end Source

/-! ## The circuits on natural numbers -/

theorem mem_upZ {a b i : ℤ} : i ∈ upZ a b ↔ a ≤ i ∧ i < b := Int.mem_range_iff

theorem mem_downZ {a b i : ℤ} : i ∈ downZ a b ↔ a ≤ i ∧ i < b := by
  rw [downZ, List.mem_reverse, mem_upZ]

theorem upZ_natCast (a : ℕ) (b : ℤ) : upZ a b = (up a b.toNat).map fun i : ℕ ↦ (i : ℤ) := by
  have hlen : (b - a).toNat = b.toNat - a := by omega
  rw [upZ, Int.range, hlen, up, List.range'_eq_map_range, List.map_map]
  exact List.map_congr_left fun i _ ↦ (Nat.cast_add a i).symm

theorem downZ_natCast (a : ℕ) (b : ℤ) : downZ a b = (down a b.toNat).map fun i : ℕ ↦ (i : ℤ) := by
  rw [downZ, upZ_natCast, down, List.map_reverse]

section NaturalNumbers

variable {ι : Type*} (x y z : ℕ → ι) (n : ℕ)

/-- The indices of a loop are natural numbers if the first one is. -/
theorem flatMap_upZ {a : ℤ} {m : ℕ} (ha : a = m) (b : ℤ) (f : ℤ → List (Gate ι)) :
    (upZ a b).flatMap f = (up m b.toNat).flatMap fun i : ℕ ↦ f i := by
  rw [ha, upZ_natCast, List.flatMap_map]

theorem flatMap_downZ {a : ℤ} {m : ℕ} (ha : a = m) (b : ℤ) (f : ℤ → List (Gate ι)) :
    (downZ a b).flatMap f = (down m b.toNat).flatMap fun i : ℕ ↦ f i := by
  rw [ha, downZ_natCast, List.flatMap_map]

theorem minusGates_toNat :
    minusGates (fun i ↦ x i.toNat) (fun i ↦ y i.toNat) n = aEqAMinusB x y n := by
  have hsub : ∀ m : ℕ, ((m : ℤ) - 1).toNat = m - 1 := by omega
  have hsub' : ∀ m : ℕ, ((m : ℤ) - 2).toNat = m - 2 := by omega
  rw [minusGates, aEqAMinusB, flatMap_downZ (a := 1) (m := 1) rfl,
    flatMap_downZ (a := 1) (m := 1) rfl, flatMap_upZ (a := 2) (m := 2) rfl,
    flatMap_upZ (a := 1) (m := 1) rfl]
  simp only [hsub, hsub', Int.toNat_natCast]
  rfl

theorem plusGates_toNat (x y : ℕ → ℕ) (lines : ℕ) :
    plusGates (fun i ↦ x i.toNat) (fun i ↦ y i.toNat) (fun i ↦ lines + i.toNat)
      (fun i ↦ lines + max 1 n + i.toNat) n = (aEqAPlusB x y n lines).gates := by
  rw [plusGates, aEqAPlusB]
  exact flatMap_upZ (m := 0) rfl _ _

theorem roundGates_toNat (j : ℕ) :
    roundGates (fun i ↦ x i.toNat) (fun i ↦ y i.toNat) (fun i ↦ z i.toNat) n j =
      round x y z n j := by
  have hadd : ∀ i j : ℕ, ((i : ℤ) + j).toNat = i + j := by omega
  have hadd' : ∀ i j : ℕ, ((i : ℤ) + j + 1).toNat = i + j + 1 := by omega
  have hsub : ∀ i j : ℕ, ((i : ℤ) - j).toNat = i - j := by omega
  have hsub' : ∀ i j k : ℕ, ((i : ℤ) - j - k).toNat = i - j - k := by omega
  have hone : ∀ i : ℕ, ((i : ℤ) - 1).toNat = i - 1 := by omega
  have hone' : ∀ i j : ℕ, ((i : ℤ) - j - 1).toNat = i - j - 1 := by omega
  have hone'' : ∀ i j : ℕ, ((i : ℤ) - 1 - j).toNat = i - 1 - j := by omega
  have htwo : ((n : ℤ) - 2).toNat = n - 2 := by omega
  have htwo' : ((n : ℤ) - 2 - j).toNat = n - 2 - j := by omega
  have hmore : ∀ i j : ℕ, ((i : ℤ) + 1 - j).toNat = i + 1 - j := by omega
  have hzero : (0 + (j : ℤ)).toNat = 0 + j := by omega
  rw [roundGates, round, flatMap_upZ (a := 1) (m := 1) rfl, flatMap_upZ (a := 0) (m := 0) rfl,
    flatMap_downZ (a := j + 1) (m := j + 1) (Nat.cast_succ j).symm,
    flatMap_upZ (a := 1) (m := 1) rfl]
  simp only [hadd, hadd', hsub, hsub', hone, hone', hone'', htwo, htwo', hmore, hzero,
    Int.toNat_natCast, Int.natCast_eq_zero]
  rfl

theorem timesGates_toNat :
    timesGates (fun i ↦ x i.toNat) (fun i ↦ y i.toNat) (fun i ↦ z i.toNat) n =
      aEqAPlusBTimesC x y z n := by
  have hsub : ((n : ℤ) - 1).toNat = n - 1 := by omega
  rw [timesGates, aEqAPlusBTimesC, flatMap_upZ (a := 0) (m := 0) rfl, hsub]
  simp only [roundGates_toNat]
  rfl

end NaturalNumbers

/-! ## Accesses -/

inductive Reg
  | a
  | b
  | c
  | zero
  | ancilla
deriving DecidableEq

/-- A position of a register, or a line for a constant. -/
inductive Place
  | entry (r : Reg) (i : ℤ)
  | constant (k : ℕ)
deriving DecidableEq

/-- The position is one of the register's. -/
def Place.InRange (n : ℕ) : Place → Prop
  | entry _ i => 0 ≤ i ∧ i < n
  | constant _ => True

/-- The functions, with a constant for one of them. -/
inductive Call
  | assignString (binary_constant : List Char)
  | assignRegister
  | plus
  | minus
  | times

def Call.gates (size : ℕ) : Call → List (Gate Place)
  | assignString s =>
    (assignValueOfStringToA (fun i ↦ .entry .a i) (fun i ↦ .entry .ancilla i) .constant s
      size).gates
  | assignRegister =>
    assignValueOfBToA (fun i ↦ .entry .a i) (fun i ↦ .entry .ancilla i) (fun i ↦ .entry .b i) size
  | plus => plusGates (.entry .a) (.entry .b) (.entry .zero) (.entry .ancilla) size
  | minus => minusGates (.entry .a) (.entry .b) size
  | times => timesGates (.entry .a) (.entry .b) (.entry .c) size

/-- The positions whose lines get new names. -/
def Call.renamed (size : ℕ) : Call → List Place
  | plus => (upZ 0 size).flatMap fun i ↦
      [.entry .b i, .entry .a i, .entry .zero i, .entry .ancilla i]
  | _ => []

/-- The positions that a call reaches. -/
def Call.places (size : ℕ) (call : Call) : List Place :=
  (call.gates size).flatMap (fun g ↦ g.controls ++ [g.target]) ++ call.renamed size

/-- Each register is reached at its positions only. -/
def InBounds (n : ℕ) (call : Call) : Prop := ∀ p ∈ call.places n, p.InRange n

/-- The calls that stay inside: no string longer than the register, and no subtraction of one
bit. -/
def Call.Fits (n : ℕ) : Call → Prop
  | assignString s => s.length ≤ n
  | minus => 2 ≤ n
  | _ => True

/-! ## Which calls stay inside -/

section Inside

variable {n : ℕ}

/-- The gates are on positions of the registers. -/
def Inside (n : ℕ) (gs : List (Gate Place)) : Prop := ∀ g ∈ gs, g.Within {p | p.InRange n}

@[simp] theorem inside_nil : Inside n [] := nofun

@[simp] theorem inside_cons {g : Gate Place} {gs : List (Gate Place)} :
    Inside n (g :: gs) ↔ g.Within {p | p.InRange n} ∧ Inside n gs := List.forall_mem_cons

@[simp] theorem inside_append {gs hs : List (Gate Place)} :
    Inside n (gs ++ hs) ↔ Inside n gs ∧ Inside n hs := List.forall_mem_append

@[simp] theorem inside_flatMap_upZ {a b : ℤ} {f : ℤ → List (Gate Place)} :
    Inside n ((upZ a b).flatMap f) ↔ ∀ i, a ≤ i → i < b → Inside n (f i) := by
  simp only [Inside, List.mem_flatMap, mem_upZ]
  exact ⟨fun h i ha hb g hg ↦ h g ⟨i, ⟨ha, hb⟩, hg⟩, fun h g ⟨i, hi, hg⟩ ↦ h i hi.1 hi.2 g hg⟩

@[simp] theorem inside_flatMap_downZ {a b : ℤ} {f : ℤ → List (Gate Place)} :
    Inside n ((downZ a b).flatMap f) ↔ ∀ i, a ≤ i → i < b → Inside n (f i) := by
  rw [← inside_flatMap_upZ]
  simp only [Inside, List.mem_flatMap, mem_upZ, mem_downZ]

@[simp] theorem inside_flatMap_up {a b : ℕ} {f : ℕ → List (Gate Place)} :
    Inside n ((up a b).flatMap f) ↔ ∀ i, a ≤ i → i < b → Inside n (f i) := by
  simp only [Inside, List.mem_flatMap, mem_up]
  exact ⟨fun h i ha hb g hg ↦ h g ⟨i, ⟨ha, hb⟩, hg⟩, fun h g ⟨i, hi, hg⟩ ↦ h i hi.1 hi.2 g hg⟩

@[simp] theorem inRange_entry {r : Reg} {i : ℤ} :
    (Place.entry r i).InRange n ↔ 0 ≤ i ∧ i < n := Iff.rfl

@[simp] theorem inRange_constant {k : ℕ} : (Place.constant k).InRange n ↔ True := Iff.rfl

@[simp] theorem within_cnot {c t : Place} :
    (cnot c t).Within {p | p.InRange n} ↔ c.InRange n ∧ t.InRange n := by
  simp [Gate.Within, cnot]

@[simp] theorem within_toffoli {c₁ c₂ t : Place} :
    (toffoli c₁ c₂ t).Within {p | p.InRange n} ↔ c₁.InRange n ∧ c₂.InRange n ∧ t.InRange n := by
  simp [Gate.Within, toffoli, and_assoc]

@[simp] theorem within_toffoli₃ {c₁ c₂ c₃ t : Place} :
    (toffoli₃ c₁ c₂ c₃ t).Within {p | p.InRange n} ↔
      c₁.InRange n ∧ c₂.InRange n ∧ c₃.InRange n ∧ t.InRange n := by
  simp [Gate.Within, toffoli₃, and_assoc]

/-- Nothing is reached but by the gates, and by the new names at the positions of the loop. -/
theorem inBounds_iff_inside {call : Call} : InBounds n call ↔ Inside n (call.gates n) := by
  have hplaces : (∀ p ∈ (call.gates n).flatMap (fun g ↦ g.controls ++ [g.target]), p.InRange n) ↔
      Inside n (call.gates n) := by
    simp only [List.mem_flatMap, List.mem_append, List.mem_singleton]
    constructor
    · exact fun h g hg ↦ ⟨fun c hc ↦ h c ⟨g, hg, .inl hc⟩, h g.target ⟨g, hg, .inr rfl⟩⟩
    · rintro h p ⟨g, hg, hp | rfl⟩
      · exact (h g hg).1 p hp
      · exact (h g hg).2
  rw [InBounds, Call.places, List.forall_mem_append, hplaces, and_iff_left_iff_imp]
  intro _ p hp
  cases call with
  | plus =>
    obtain ⟨i, hi, hp⟩ := List.mem_flatMap.mp hp
    simp only [List.mem_cons, List.not_mem_nil, or_false] at hp
    rcases hp with rfl | rfl | rfl | rfl <;> exact mem_upZ.mp hi
  | _ => exact absurd hp List.not_mem_nil

theorem inside_assignChars_iff {i : ℕ} (used : ℕ) {s : List Char} (hi : i ≤ n) :
    Inside n (assignChars (fun i : ℕ ↦ .entry .a i) (fun i : ℕ ↦ .entry .ancilla i) .constant n i
      used s).gates ↔ i + s.length ≤ n := by
  induction s generalizing i used with
  | nil => simpa [assignChars] using hi
  | cons c s ih =>
    have hclear : Inside n (clear (.entry .a i) (.entry .ancilla i)) ↔ i < n := by simp [clear]
    rw [assignChars, if_neg (Nat.not_lt.mpr hi), List.length_cons]
    rcases hi.lt_or_eq with hlt | rfl
    · split_ifs <;> simp [hclear, hlt, ih _ hlt] <;> omega
    · split_ifs <;> simp [hclear]

theorem inside_minusGates_iff :
    Inside n (minusGates (.entry .a) (.entry .b) n) ↔ 2 ≤ n := by
  simp only [minusGates, inside_append, inside_flatMap_upZ, inside_flatMap_downZ, inside_cons,
    inside_nil, within_cnot, within_toffoli, inRange_entry, and_true]
  constructor
  · omega
  · intro h
    and_intros <;> intros <;> omega

theorem inside_timesGates (hn : 1 ≤ n) :
    Inside n (timesGates (.entry .a) (.entry .b) (.entry .c) n) := by
  have hround : ∀ j : ℤ, 0 ≤ j → j < n - 1 →
      Inside n (roundGates (.entry .a) (.entry .b) (.entry .c) n j) := by
    intro j hj hjn
    have hfirst : Inside n (if j = 0 then [toffoli (.entry .b 0) (.entry .a 0) (.entry .c 0)]
        else [toffoli (.entry .b j) (.entry .a j) (.entry .c 0)]) := by
      split_ifs <;> simp <;> omega
    simp only [roundGates, inside_append, hfirst, inside_flatMap_upZ, inside_flatMap_downZ,
      inside_cons, inside_nil, within_toffoli, within_toffoli₃, inRange_entry, and_true]
    and_intros <;> intros <;> omega
  simp only [timesGates, inside_append, inside_flatMap_upZ, inside_cons, inside_nil, within_toffoli,
    inRange_entry, and_true]
  refine ⟨fun j hj hjn ↦ hround j hj hjn, ?_⟩
  and_intros <;> omega

end Inside

/-- **Which calls stay inside their registers.** -/
theorem inBounds_iff {n : ℕ} (hn : 1 ≤ n) (call : Call) : InBounds n call ↔ call.Fits n := by
  rw [inBounds_iff_inside]
  cases call with
  | assignString s =>
    have hstring : Inside n (Call.gates n (.assignString s)) ↔ 0 + s.length ≤ n :=
      inside_assignChars_iff 0 (Nat.zero_le n)
    rwa [Nat.zero_add] at hstring
  | assignRegister => exact iff_of_true (by simp [Call.gates, assignValueOfBToA, clear]) trivial
  | plus =>
    refine iff_of_true ?_ trivial
    simp only [Call.gates, plusGates, inside_flatMap_upZ, inside_cons, inside_nil, within_cnot,
      within_toffoli, inRange_entry, and_true]
    intros
    omega
  | minus => exact inside_minusGates_iff
  | times => exact iff_of_true (inside_timesGates hn) trivial

/-- The multiplier stays inside registers of one bit. -/
theorem inBounds_times_one : InBounds 1 .times := (inBounds_iff le_rfl .times).mpr trivial

/-- For a string of two characters the position after the only one of the register is reached. -/
theorem not_inBounds_assignString : ¬ InBounds 1 (.assignString ['1', '1']) := by
  intro h
  have hplace := h (.entry .a 1) (by decide)
  exact absurd hplace.2 (by decide)

end ScaffCC.Rkqc
