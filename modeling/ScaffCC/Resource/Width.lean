import Mathlib.Algebra.BigOperators.Group.List.Basic
import ScaffCC.Resource.Count

/-!
# The width of a function

The width column is to hold the largest number of ancillas in use at one time. The pass keeps the
ancillas in use and the width up to now, and at a call it adds the width of the callee to what is in
use in the caller.

This is the peak of the flattened trace of allocations and releases, as long as the pass sees all of
them. It does not see the ancillas of an array of arrays, and a release of a number that is not a
constant counts as one.
-/

namespace ScaffCC.ResourceCount

/-! ## Peaks -/

/-- The largest partial sum of a sequence of changes. -/
def peak : List ℤ → ℤ
  | [] => 0
  | x :: τ => max 0 (x + peak τ)

/-- The levels a sequence of changes runs through. -/
def levels (τ : List ℤ) : Set ℤ := {z | ∃ σ, σ <+: τ ∧ z = σ.sum}

/-- An instruction, with all the dimensions of an array. -/
inductive Inst
  | alloca (ty : QTy) (dims : List ℕ)
  | gate (g : GateCall Operand)
  | call (callee : Ident) (args : List Arg)

/-- The functions of a program. Declarations have no body. -/
abbrev Program := List (Ident × Option (List Inst))

/-- The instruction for the pass, which does not look into an array of arrays. -/
def Inst.seen : Inst → List Instr
  | .alloca ty [] => [.alloca ty 1]
  | .alloca ty [size] => [.alloca ty size]
  | .alloca _ _ => []
  | .gate g => [.gate g]
  | .call callee args => [.call callee args]

/-- The module for the pass. -/
def Program.seen (P : Program) : Module :=
  P.map fun f ↦ ⟨f.1, f.2.map fun b ↦ b.flatMap Inst.seen⟩

/-- The body of the function of the given name, if it has one. -/
def Program.bodyOf (P : Program) (n : Ident) : Option (List Inst) :=
  (P.find? fun f ↦ f.1 == n).bind Prod.snd

theorem Program.bodyOf_seen (P : Program) (n : Ident) :
    P.seen.bodyOf n = (P.bodyOf n).map fun b ↦ b.flatMap Inst.seen := by
  induction P with
  | nil => rfl
  | cons f P ih =>
    rw [Module.bodyOf, Module.getFunction, bodyOf] at *
    rw [seen, List.map_cons, ← seen, List.find?_cons, List.find?_cons]
    dsimp only
    cases f.1 == n with
    | true => rfl
    | false => exact ih

/-! ## Traces -/

/-- `Trace P is τ`: the instructions `is` allocate and release ancillas as in `τ`. A number of
ancillas that is not a constant is not known. -/
inductive Trace (P : Program) : List Inst → List ℤ → Prop
  | nil : Trace P [] []
  | qbits {is : List Inst} {τ : List ℤ} (dims : List ℕ) :
      Trace P is τ → Trace P (.alloca .qbit dims :: is) τ
  | ancillas {is : List Inst} {τ : List ℤ} (dims : List ℕ) :
      Trace P is τ → Trace P (.alloca .abit dims :: is) (dims.prod :: τ)
  | gate {is : List Inst} {τ : List ℤ} (g : GateCall Operand) :
      Trace P is τ → Trace P (.gate g :: is) τ
  | afree {is : List Inst} {τ : List ℤ} {n : Ident} {args : List Arg} {k : ℕ} :
      P.bodyOf n = none → "afree".toList <+: n →
      (∀ v, args[1]? = some (.int (some v)) → k = (v % 2 ^ 32).toNat) →
      Trace P is τ → Trace P (.call n args :: is) (-(k : ℤ) :: τ)
  | call {is b : List Inst} {σ τ : List ℤ} {n : Ident} {args : List Arg} :
      P.bodyOf n = some b → Trace P b σ → Trace P is τ → Trace P (.call n args :: is) (σ ++ τ)
  | declared {is : List Inst} {τ : List ℤ} {n : Ident} {args : List Arg} :
      P.bodyOf n = none → ¬ "afree".toList <+: n → Trace P is τ → Trace P (.call n args :: is) τ

/-- The ancillas in use and the width are these. -/
structure Row.Holds (r : Row) (level width : ℤ) : Prop where
  level : ((r 2).toNat : ℤ) = level
  width : ((r 3).toNat : ℤ) = width

section Step

variable {r c : Row} {a p : ℤ}

theorem Row.Holds.of_eq {r' : Row} (h : r.Holds a p) (h2 : r' 2 = r 2) (h3 : r' 3 = r 3) :
    r'.Holds a p :=
  ⟨h2 ▸ h.level, h3 ▸ h.width⟩

theorem Row.Holds.qbits (h : r.Holds a p) (size : ℕ) : (countAlloca r .qbit size).Holds a p :=
  h.of_eq (Row.bump_of_ne _ (by decide) _) (Row.bump_of_ne _ (by decide) _)

theorem Row.Holds.ancillas (h : r.Holds a p) {size : ℕ} (hlt : a + size < 2 ^ 64) :
    (countAlloca r .abit size).Holds (a + size) (max p (a + size)) := by
  obtain ⟨hlevel, hwidth⟩ := h
  have h2 : ((r.bump 1 (.ofNat size)).bump 2 (.ofNat size)) 2 = r 2 + .ofNat size := by
    rw [Row.bump_self, Row.bump_of_ne _ (by decide)]
  have h3 : ((r.bump 1 (.ofNat size)).bump 2 (.ofNat size)) 3 = r 3 := by
    rw [Row.bump_of_ne _ (by decide), Row.bump_of_ne _ (by decide)]
  have hsum : ((r 2 + .ofNat size).toNat : ℤ) = a + size := by
    rw [UInt64.toNat_add, UInt64.toNat_ofNat', ← hlevel]
    omega
  rw [countAlloca, h2, h3]
  split
  next hless =>
    rw [UInt64.lt_iff_toNat_lt] at hless
    refine ⟨?_, ?_⟩
    · rw [Function.update_of_ne (by decide), h2, hsum]
    · rw [Function.update_self, hsum]
      omega
  next hless =>
    rw [UInt64.lt_iff_toNat_lt] at hless
    refine ⟨by rw [h2, hsum], ?_⟩
    rw [h3]
    omega

theorem Row.Holds.gate (h : r.Holds a p) (g : GateCall Operand) :
    (countGate r (g.name Operand.ty)).Holds a p := by
  have hcol : ∀ k : GateKind, (2 : Fin 15) ≠ k.column ∧ (3 : Fin 15) ≠ k.column := by
    intro k
    cases k <;> decide
  rw [countGate, columnOf_name]
  cases countedAs g with
  | none => exact h.of_eq (Row.bump_of_ne _ (by decide) _) (Row.bump_of_ne _ (by decide) _)
  | some k =>
    refine h.of_eq ?_ ?_
    · exact (Row.bump_of_ne _ (hcol k).1 _).trans (Row.bump_of_ne _ (by decide) _)
    · exact (Row.bump_of_ne _ (hcol k).2 _).trans (Row.bump_of_ne _ (by decide) _)

theorem Row.Holds.afree (h : r.Holds a p) {args : List Arg} {v : ℤ}
    (hv : args[1]? = some (.int (some v))) (hle : ((v % 2 ^ 32).toNat : ℤ) ≤ a) :
    (countFree r args).Holds (a + -((v % 2 ^ 32).toNat : ℤ)) p := by
  obtain ⟨hlevel, hwidth⟩ := h
  have hk : (UInt64.ofNat (v % 2 ^ 32).toNat).toNat = (v % 2 ^ 32).toNat := by
    rw [UInt64.toNat_ofNat']
    omega
  rw [countFree, hv]
  refine ⟨?_, by rw [Function.update_of_ne (by decide), hwidth]⟩
  rw [Function.update_self, UInt64.toNat_sub_of_le]
  · rw [hk]
    omega
  · rw [UInt64.le_iff_toNat_le, hk]
    omega

theorem Row.Holds.call (h : r.Holds a p) {s q : ℤ} (hc : c.Holds s q) (hap : a ≤ p) (hsq : s ≤ q)
    (hlt : a + q < 2 ^ 64) : (countCall r c).Holds (a + s) (max p (a + q)) := by
  obtain ⟨hlevel, hwidth⟩ := h
  obtain ⟨hs, hq⟩ := hc
  have h2 : (r.bump 14 (c 14)) 2 = r 2 := Row.bump_of_ne _ (by decide) _
  have h3 : (r.bump 14 (c 14)) 3 = r 3 := Row.bump_of_ne _ (by decide) _
  have hsum : ((r 2 + c 2).toNat : ℤ) = a + s := by
    rw [UInt64.toNat_add]
    omega
  have hpeak : ((r 2 + c 3).toNat : ℤ) = a + q := by
    rw [UInt64.toNat_add]
    omega
  have hroom : ((r 3 - r 2).toNat : ℤ) = p - a := by
    rw [UInt64.toNat_sub_of_le]
    · omega
    · rw [UInt64.le_iff_toNat_le]
      omega
  rw [countCall, h2, h3]
  split
  next hmore =>
    rw [gt_iff_lt, UInt64.lt_iff_toNat_lt] at hmore
    refine ⟨?_, ?_⟩
    · rw [if_pos ⟨by decide, by decide⟩, Function.update_of_ne (by decide), h2, hsum]
    · rw [if_neg (fun h ↦ h.2 rfl), Function.update_self, hpeak]
      omega
  next hmore =>
    rw [gt_iff_lt, UInt64.lt_iff_toNat_lt] at hmore
    refine ⟨?_, ?_⟩
    · rw [if_pos ⟨by decide, by decide⟩, h2, hsum]
    · rw [if_neg (fun h ↦ h.2 rfl), h3]
      omega

end Step

/-! ## Functions -/

section Function

variable {P : Program}

/-- The row has the width of every trace of the function that fits the counters. -/
def WidthOf (P : Program) (n : Ident) (r : Row) : Prop :=
  ∀ b τ, P.bodyOf n = some b → Trace P b τ → peak τ < 2 ^ 64 → r.Holds τ.sum (peak τ)

/-- The pass sees the ancillas of the instruction, and a function that is called has its row. -/
def Inst.Fits (P : Program) (rows : Ident → Option Row) : Inst → Prop
  | .alloca .qbit _ => True
  | .alloca .abit ds => ds.length ≤ 1
  | .gate _ => True
  | .call c args =>
    ("afree".toList <+: c → P.bodyOf c = none ∧ ∃ v, args[1]? = some (.int (some v))) ∧
      ((P.bodyOf c).isSome → ∃ r, rows c = some r ∧ WidthOf P c r)

theorem exists_trace {order : List Ident} (ho : PostOrder P.seen order) :
    ∀ n ∈ order, ∀ b, P.bodyOf n = some b → ∃ τ, Trace P b τ := by
  have hbody : ∀ is : List Inst, (∀ c args, Inst.call c args ∈ is → ∀ b, P.bodyOf c = some b →
      ∃ σ, Trace P b σ) → ∃ τ, Trace P is τ := by
    intro is
    induction is with
    | nil => exact fun _ ↦ ⟨_, .nil⟩
    | cons i is ih =>
      intro hcalls
      obtain ⟨τ, hτ⟩ := ih fun c args hc ↦ hcalls c args (List.mem_cons_of_mem i hc)
      cases i with
      | alloca ty dims =>
        cases ty with
        | qbit => exact ⟨τ, .qbits dims hτ⟩
        | abit => exact ⟨_, .ancillas dims hτ⟩
      | gate g => exact ⟨τ, .gate g hτ⟩
      | call c args =>
        cases hb : P.bodyOf c with
        | some b =>
          obtain ⟨σ, hσ⟩ := hcalls c args List.mem_cons_self b hb
          exact ⟨_, .call hb hσ hτ⟩
        | none =>
          by_cases hn : "afree".toList <+: c
          · obtain ⟨k, hk⟩ : ∃ k : ℕ, ∀ v, args[1]? = some (.int (some v)) →
                k = (v % 2 ^ 32).toNat := by
              by_cases hv : ∃ v, args[1]? = some (.int (some v))
              · obtain ⟨v, hv⟩ := hv
                refine ⟨(v % 2 ^ 32).toNat, fun w hw ↦ ?_⟩
                have heq := hv.symm.trans hw
                simp only [Option.some_inj, Arg.int.injEq] at heq
                rw [heq]
              · exact ⟨0, fun v h ↦ absurd ⟨v, h⟩ hv⟩
            exact ⟨_, .afree hb hn hk hτ⟩
          · exact ⟨τ, .declared hb hn hτ⟩
  have hprefix : ∀ A B, order = A ++ B → ∀ n ∈ A, ∀ b, P.bodyOf n = some b → ∃ τ, Trace P b τ := by
    intro A
    induction A using List.reverseRecOn with
    | nil => exact fun _ _ n hn ↦ absurd hn List.not_mem_nil
    | append_singleton A m ih =>
      intro B hAB n hn b hb
      rw [List.append_assoc, List.singleton_append] at hAB
      rcases List.mem_append.mp hn with hn | hn
      · exact ih (m :: B) hAB n hn b hb
      · obtain rfl := List.mem_singleton.mp hn
        refine hbody b fun c args hc b' hb' ↦ ih (n :: B) hAB c ?_ b' hb'
        refine ho.callees A n B hAB (b.flatMap Inst.seen) ?_ c args ?_ ?_
        · rw [Program.bodyOf_seen, hb]
          rfl
        · exact List.mem_flatMap.mpr ⟨_, hc, List.mem_singleton_self _⟩
        · rw [Program.bodyOf_seen, hb']
          rfl
  exact hprefix order [] (List.append_nil _).symm

end Function

/-! ## One function -/

end ScaffCC.ResourceCount
