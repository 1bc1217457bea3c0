import ScaffCC.Pipeline.Compile
import ScaffCC.Resource.Count

/-!
# Resources of a program

The resources are counted behind the first two passes. Each count is the number of gates of the
circuit that the source stands for, where a Toffoli gate counts as the gates of its implementation,
and one that is turned round as those of the implementation turned round.
-/

namespace ScaffCC.Pipeline

open Filter GateCall FunctionReverse Flatten ToffoliReplace ResourceCount

variable {ι : Type*} {C C' : List (GateCall ι)}

/-! ## Gates of lowered circuits -/

/-- The gates of a kind in the implementation of a Toffoli gate. -/
def inImpl (k : GateKind) : ℕ := occurrences k (implGates 0 1 2)

/-- The gates of a kind in the implementation turned round. -/
def inInverse (k : GateKind) : ℕ := occurrences k (inverse (implGates 0 1 2))

example : inImpl .T = 4 ∧ inImpl .Tdag = 3 ∧ inInverse .T = 3 ∧ inInverse .Tdag = 4 := by decide

theorem occurrences_implGates (k : GateKind) (c₁ c₂ t : ι) :
    occurrences k (implGates c₁ c₂ t) = inImpl k := by
  cases k <;> rfl

theorem occurrences_inverse_implGates (k : GateKind) (c₁ c₂ t : ι) :
    occurrences k (inverse (implGates c₁ c₂ t)) = inInverse k := by
  cases k <;> rfl

theorem countP_isToffoli_eq_zero (hfree : ∀ c₁ c₂ t, Toffoli c₁ c₂ t ∉ C) :
    C.countP isToffoli = 0 := by
  rw [List.countP_eq_zero]
  intro g hg htof
  cases g with
  | Toffoli c₁ c₂ t => exact hfree c₁ c₂ t hg
  | _ => contradiction

/-- **The gates of a lowered circuit**, when no Toffoli gate is left. -/
theorem occurrences_of_lowered (h : Lowered C C') (hfree : ∀ c₁ c₂ t, Toffoli c₁ c₂ t ∉ C') :
    ∃ forth back, forth + back = C.countP isToffoli ∧ ∀ k,
      occurrences k C' = occurrences k C + forth * inImpl k + back * inInverse k := by
  induction h with
  | nil => exact ⟨0, 0, rfl, fun k ↦ by simp⟩
  | @cons g p C C' hg _ ih =>
    obtain ⟨forth, back, hsum, hocc⟩ :=
      ih fun c₁ c₂ t hm ↦ hfree c₁ c₂ t (List.mem_append_right p hm)
    have hleft (k : GateKind) : occurrences k (p ++ C') = occurrences k p + occurrences k C' :=
      List.countP_append
    have hright (k : GateKind) : occurrences k (g :: C) = occurrences k [g] + occurrences k C := by
      rw [occurrences, occurrences, occurrences, ← List.countP_append]
      rfl
    cases hg with
    | same g =>
      have hnot : isToffoli g = false := by
        cases g with
        | Toffoli c₁ c₂ t => exact absurd List.mem_cons_self (hfree c₁ c₂ t)
        | _ => rfl
      refine ⟨forth, back, ?_, fun k ↦ ?_⟩
      · rw [List.countP_cons_of_neg (by rw [hnot]; exact Bool.false_ne_true), hsum]
      · rw [hleft, hright, hocc]
        omega
    | forth c₁ c₂ t =>
      have hzero (k : GateKind) : occurrences k [Toffoli c₁ c₂ t] = 0 := by cases k <;> rfl
      refine ⟨forth + 1, back, ?_, fun k ↦ ?_⟩
      · rw [List.countP_cons_of_pos rfl, ← hsum]
        omega
      · rw [hleft, hright, hocc, hzero, occurrences_implGates, Nat.succ_mul]
        omega
    | back c₁ c₂ t =>
      have hzero (k : GateKind) : occurrences k [Toffoli c₁ c₂ t] = 0 := by cases k <;> rfl
      refine ⟨forth, back + 1, ?_, fun k ↦ ?_⟩
      · rw [List.countP_cons_of_pos rfl, ← hsum]
        omega
      · rw [hleft, hright, hocc, hzero, occurrences_inverse_implGates, Nat.succ_mul]
        omega

/-! ## No Toffoli gate is left -/

/-- No Toffoli gate is called behind prefixes. -/
def NoPrefixedToffoli (M : Module) : Prop :=
  ∀ n b k f args g, M.bodyOf n = some b → ¬ reversePrefix <+: f →
    Instr.call (stacked k f) args ∈ b → intrinsic f args = some g → isToffoli g = false

variable {S : Source} {R : Module} {n : Ident} {b' : List Instr}

theorem isToffoli_inverseGate (g : GateCall ι) : isToffoli (inverseGate g) = isToffoli g := by
  rcases g with ⟨_ | _⟩ | _ | _ | _ | _ | _ | _ <;> rfl

/-- The bodies behind the first two passes have no Toffoli gate. -/
theorem toffoliFree_of_stage (hunprefixed : NoPrefixedToffoli S.M)
    (hst : Stage (ToffoliReplace.runOnModule S.M) (namesOf (ToffoliReplace.runOnModule S.M)) R)
    (hb' : R.bodyOf n = some b') : ∀ g, .gate g ∈ b' → isToffoli g = false := by
  refine body_rule (P := fun _ b ↦ ∀ g, .gate g ∈ b → isToffoli g = false) hst
    (fun n b₁ b₂ hb₁ _ hr g hg ↦ ?_) (fun k b _ _ ih g hg ↦ ?_) hb'
  · obtain ⟨i, hi, hij⟩ := exists_of_mem_right hr hg
    cases hij with
    | same =>
      obtain ⟨f, hf, hfb⟩ := Module.bodyOf_eq_some.mp hb₁
      have hfree := freeAt_runOnModule (implsOnly_of_fresh S.fresh) n hf hfb
      cases g with
      | Toffoli c₁ c₂ t => exact absurd hi (hfree c₁ c₂ t)
      | _ => rfl
    | @intrinsic k f args g' hf hk _ hg' =>
      have hsame : isToffoli g' = false := by
        obtain ⟨b, hb, hc | ⟨a₁, a₂, a₃, hname, -⟩⟩ := call_cases_runOnModule S.fresh hb₁ hi
        · exact hunprefixed n b k f args g' hb hf hc hg'
        · exact absurd (eq_zero_of_stacked_eq_implName hname).1 hk
      split_ifs
      · rwa [isToffoli_inverseGate]
      · exact hsame
  · rcases List.mem_append.mp hg with hg | hg
    · exact ih g (List.mem_filter.mp hg).1
    · obtain ⟨i, hi, hgi⟩ := List.mem_map.mp hg
      have hib := (List.mem_filter.mp (List.mem_reverse.mp hi)).1
      cases i with
      | gate g' =>
        obtain rfl := Instr.gate.inj hgi
        rw [isToffoli_inverseGate]
        exact ih g' hib
      | alloca | call => exact Instr.noConfusion hgi

theorem afree_prefix_of_reverseFuncName {k : Ident}
    (h : "afree".toList <+: reverseFuncName k) : "afree".toList <+: k := by
  rcases List.prefix_or_prefix_of_prefix h (List.prefix_append k _) with hk | ⟨t, ht⟩
  · exact hk
  · have htail : ∀ t ∈ "afree".toList.tails, t <+: "_Reverse".toList → t = [] := by decide
    rw [← ht, reverseFuncName, List.prefix_append_right_inj] at h
    obtain rfl := htail t ((List.mem_tails _ _).mpr ⟨k, ht⟩) h
    rw [← ht, List.append_nil]

/-- No function behind the first two passes is taken for the release of ancillas. -/
theorem noAfree_of_stage (hfree : NoAfree S.M)
    (hst : Stage (ToffoliReplace.runOnModule S.M) (namesOf (ToffoliReplace.runOnModule S.M)) R) :
    NoAfree R := by
  intro n hn
  by_contra hbody
  obtain ⟨b', hb'⟩ := Option.ne_none_iff_exists'.mp hbody
  revert hn
  refine body_rule (P := fun n _ ↦ ¬ "afree".toList <+: n) hst
    (fun n b₁ b₂ hb₁ _ _ hn ↦ ?_) (fun k b _ _ ih hk ↦ ih (afree_prefix_of_reverseFuncName hk)) hb'
  rcases ToffoliReplace.body_cases S.fresh hb₁ with ⟨b, hb, -⟩ | ⟨a₁, a₂, a₃, rfl, -⟩
  · rw [hfree n hn] at hb
    contradiction
  · revert hn
    cases a₁ <;> cases a₂ <;> cases a₃ <;> decide

theorem toffoli_notMem_of_stage (hunprefixed : NoPrefixedToffoli S.M)
    (hst : Stage (ToffoliReplace.runOnModule S.M) (namesOf (ToffoliReplace.runOnModule S.M)) R)
    (hb' : R.bodyOf n = some b') {ρ : Env ι} (hC : Expands R ρ b' C) (c₁ c₂ t : ι) :
    Toffoli c₁ c₂ t ∉ C := by
  have hfree : ∀ m b, R.bodyOf m = some b → ToffoliFree b := fun m b hb c₁ c₂ t hmem ↦
    Bool.false_ne_true (toffoliFree_of_stage hunprefixed hst hb _ hmem).symm
  refine toffoli_notMem_of_expands (fun m f b hf hfb ↦ ?_) hC (hfree n b' hb') c₁ c₂ t
  exact hfree m b (Module.bodyOf_eq_some.mpr ⟨f, hf, hfb⟩)

/-! ## The counts -/

/-- **The resources that are counted are those of the source**, in any order in which callees come
first: each Toffoli gate stands for the gates of the implementation, forth or back, and every other
gate for itself. -/
theorem resources_compiled (ho : Ordered S.M) (hT : TurnFree ι S.M) (hfree : NoAfree S.M)
    (hunprefixed : NoPrefixedToffoli S.M) :
    ∃ R, (∀ᶠ fuel in atTop, S.lowered fuel = some R) ∧
      ∀ order, PostOrder R order → ∀ n ∈ order, ∀ b, S.M.bodyOf n = some b →
        ∃ row, ResourceCount.runOnModule R order n = some row ∧
          ∀ (ρ : Env ι) C, Denotes dagger S.M ρ b C →
            ∃ forth back, forth + back = C.countP isToffoli ∧ ∀ k : GateKind, row k.column =
              .ofNat (occurrences k C + forth * inImpl k + back * inInverse k) := by
  obtain ⟨P, -, -, hrun, hst, hbody⟩ := exists_lowered ho hT
  refine ⟨P.M, hrun, fun order horder n hn b hb ↦ ?_⟩
  obtain ⟨b', hb', -, hforth, -⟩ := hbody n b hb
  obtain ⟨row, hrow, hcounts⟩ := (countedUpTo_runOnModule (noAfree_of_stage hfree hst) horder).row
    n hn (by rw [hb', Option.isSome_some])
  refine ⟨row, hrow, fun ρ C hC ↦ ?_⟩
  obtain ⟨C', hC', hlow⟩ := hforth ρ C hC
  have hnone := toffoli_notMem_of_stage hunprefixed hst hb' hC'
  obtain ⟨forth, back, hsum, hocc⟩ := occurrences_of_lowered hlow hnone
  refine ⟨forth, back, hsum, fun k ↦ ?_⟩
  rw [hcounts b' hb' k ρ C' hC', counted_eq, countP_isToffoli_eq_zero hnone, hocc, ite_self,
    Nat.add_zero]

theorem noAfree_forthAndBack : NoAfree forthAndBack := by
  intro n hn
  cases hb : forthAndBack.bodyOf n with
  | none => rfl
  | some b =>
    rcases forthAndBack_bodyOf hb with ⟨rfl, -⟩ | ⟨rfl, -⟩ <;> exact absurd hn (by decide)

theorem noPrefixedToffoli_forthAndBack : NoPrefixedToffoli forthAndBack := by
  intro n b k f args g hb hf hc hg
  cases g with
  | Toffoli c₁ c₂ t =>
    have hname : (Toffoli c₁ c₂ t).name Operand.ty =
        "llvm.".toList ++ f ++ (args.map fun _ ↦ tySuffix .qbit).flatten := by
      rw [intrinsic] at hg
      have hfound := List.find?_some hg
      exact decide_eq_true_iff.mp hfound
    obtain ⟨-, rfl⟩ := forthAndBack_call hb hf hc
    have hletter : some 'T' = some 'f' := congrArg (fun l ↦ l[5]?) hname
    exact absurd hletter (by decide)
  | _ => rfl

/-- A function and its inverse, with one Toffoli gate in each. -/
theorem resources_compiled_forthAndBack :
    ∃ R, (∀ᶠ fuel in atTop, forthAndBackSource.lowered fuel = some R) ∧
      ∀ order, PostOrder R order → ∀ n ∈ order, ∀ b, forthAndBack.bodyOf n = some b →
        ∃ row, ResourceCount.runOnModule R order n = some row ∧
          ∀ (ρ : Env ℕ) C, Denotes dagger forthAndBack ρ b C →
            ∃ forth back, forth + back = C.countP isToffoli ∧ ∀ k : GateKind, row k.column =
              .ofNat (occurrences k C + forth * inImpl k + back * inInverse k) :=
  resources_compiled (S := forthAndBackSource) ordered_forthAndBack (turnFree_forthAndBack ℕ)
    noAfree_forthAndBack noPrefixedToffoli_forthAndBack

end ScaffCC.Pipeline
