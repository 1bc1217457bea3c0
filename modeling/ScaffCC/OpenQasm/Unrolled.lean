import ScaffCC.OpenQasm.Modes

/-!
# The unrolled Toffoli gate

The gates that the lines of the unrolled Toffoli gate name, when each line is taken for a statement.
With one more CNOT of the two controls they are the Toffoli gate, and without it they are not, so
semicolons alone would not make the two modes agree.
-/

namespace ScaffCC.OpenQasm

open Quantum GateCall

variable {ι : Type*}

private theorem conj_injective {M : Type*} [Monoid M] {X A B : M} (hX : X * X = 1)
    (h : X * A * X = X * B * X) : A = B := by
  have hundo : ∀ C, X * (X * C * X) * X = C := fun C ↦ by
    calc X * (X * C * X) * X = (X * X) * C * (X * X) := by simp only [mul_assoc]
      _ = C := by rw [hX, one_mul, mul_one]
  rw [← hundo A, h, hundo]

/-- The lines before the second Hadamard. -/
def unrolledPhase (c₁ c₂ t : ι) : List (GateCall ι) :=
  [CNOT c₂ t, gate1 .Tdag t, CNOT c₁ t, gate1 .T t, CNOT c₂ t, gate1 .Tdag t, CNOT c₁ t,
    gate1 .T c₂, gate1 .T t]

/-- The lines after the second Hadamard. -/
def unrolledControls (c₁ c₂ : ι) : List (GateCall ι) :=
  [CNOT c₁ c₂, gate1 .T c₁, gate1 .Tdag c₂]

def unrolledGates (c₁ c₂ t : ι) : List (GateCall ι) :=
  gate1 .H t :: (unrolledPhase c₁ c₂ t ++ gate1 .H t :: unrolledControls c₁ c₂)

variable [DecidableEq ι]

section Distinct

variable {c₁ c₂ t : ι} (h₁₂ : c₁ ≠ c₂) (h₁ : c₁ ≠ t) (h₂ : c₂ ≠ t)
include h₁₂ h₁ h₂

private theorem flips_restore (x : ι → Bool) :
    flipWhen t (· c₂) (flipWhen t (· c₁) (flipWhen t (· c₂) (flipWhen t (· c₁)
      (flipWhen c₂ (· c₁) (flipWhen c₂ (· c₁) x))))) = x := by
  have hindep : ∀ {c : ι}, c ≠ t → Indep (fun x : ι → Bool ↦ x c) t := fun hc x b ↦
    Function.update_of_ne hc ..
  have hindep₁ : Indep (fun x : ι → Bool ↦ x c₁) c₂ := fun x b ↦ Function.update_of_ne h₁₂ ..
  rw [flipWhen_flipWhen hindep₁, flipWhen_comm (hindep h₂) (hindep h₁),
    flipWhen_flipWhen (hindep h₂), flipWhen_flipWhen (hindep h₁)]

/-- With the missing CNOT the gates between and after the Hadamards are the doubly controlled
sign. -/
private theorem compose_unrolledPhase_apply (ψ : Amplitudes ι ℂ) (x : ι → Bool) :
    compose operator (unrolledPhase c₁ c₂ t ++ (unrolledControls c₁ c₂ ++ [CNOT c₁ c₂])) ψ x
      = (if x c₁ && x c₂ && x t then -1 else 1) * ψ x := by
  have hne := omega8_ne_zero
  simp only [unrolledPhase, unrolledControls, List.cons_append, List.nil_append, compose_cons,
    compose_nil, one_mul, operator, Gate1.matrix, Module.End.mul_apply, onWire_phase_apply,
    flip_apply]
  rw [flips_restore h₁₂ h₁ h₂]
  simp only [flipWhen, Function.update_of_ne h₁₂, Function.update_of_ne h₁,
    Function.update_of_ne h₂, Function.update_of_ne h₂.symm, Function.update_self]
  cases x c₁ <;> cases x c₂ <;> cases x t <;> simp [hne]
  -- all three set: the four remaining phases are the half turn
  linear_combination ψ x * omega8_pow_four

/-- **With the missing CNOT the lines are the Toffoli gate.** -/
theorem compose_unrolledGates :
    compose operator (unrolledGates c₁ c₂ t ++ [CNOT c₁ c₂]) = flip ℂ t fun x ↦ x c₁ && x c₂ := by
  have hindep : Indep (fun x : ι → Bool ↦ x c₁ && x c₂) t := fun x b ↦ by
    simp only [Function.update_of_ne h₁, Function.update_of_ne h₂]
  -- the gates on the controls commute with the Hadamard on the target
  have hcnot : Commute (flip ℂ c₂ fun x : ι → Bool ↦ x c₁) (onWire t hadamard) :=
    (commute_onWire_flip h₂.symm (fun x b ↦ Function.update_of_ne h₁ ..) _).symm
  have hcontrols : Commute (compose operator (unrolledControls c₁ c₂ ++ [CNOT c₁ c₂]))
      (onWire t hadamard) :=
    ((((Commute.one_left _).mul_left hcnot).mul_left (commute_onWire h₂ _ _)).mul_left
      (commute_onWire h₁ _ _)).mul_left hcnot
  have h := hadamard_sign_hadamard hindep (compose_unrolledPhase_apply h₁₂ h₁ h₂)
  rw [compose_append] at h
  rw [← h, unrolledGates, List.cons_append, compose_cons, List.append_assoc, compose_append,
    List.cons_append, compose_cons]
  change compose operator _ * onWire t hadamard * _ * onWire t hadamard = _
  rw [hcontrols.eq]
  simp only [mul_assoc]

/-- The Fredkin gate is the Toffoli gate between two CNOTs of its exchanged operands. -/
theorem exchange_eq :
    (exchange ℂ c₂ t fun x : ι → Bool ↦ x c₁)
      = flip ℂ c₂ (fun x ↦ x t) * (flip ℂ t fun x ↦ x c₁ && x c₂) * flip ℂ c₂ fun x ↦ x t := by
  ext ψ x
  simp only [Module.End.mul_apply, flip_apply]
  refine congrArg ψ (funext fun i ↦ ?_)
  simp only [exchangeWhen, comp_swap_eq_update, flipWhen, Function.update_of_ne h₁₂,
    Function.update_of_ne h₂, Function.update_of_ne h₂.symm, Function.update_self]
  by_cases hi₂ : i = c₂
  · subst hi₂
    cases hc : x c₁ <;> cases ha : x i <;> cases hb : x t <;>
      simp [Function.update_of_ne h₂, ha]
  by_cases hi : i = t
  · subst hi
    cases hc : x c₁ <;> cases ha : x c₂ <;> cases hb : x i <;>
      simp [Function.update_of_ne hi₂, hb]
  · cases x c₁ <;> simp [Function.update_of_ne hi₂, Function.update_of_ne hi]

/-- **Without it they are not**, and the Fredkin gate they are used in is another one. -/
theorem compose_unrolled_ne_fredkin :
    compose operator (CNOT t c₂ :: (unrolledGates c₁ c₂ t ++ [CNOT t c₂]))
      ≠ operator (Fredkin c₁ c₂ t) := by
  have hself : (flip ℂ c₂ fun x : ι → Bool ↦ x t) * (flip ℂ c₂ fun x ↦ x t) = 1 :=
    flip_mul_self fun x b ↦ Function.update_of_ne h₂.symm ..
  have htoff := compose_unrolledGates h₁₂ h₁ h₂
  rw [compose_append] at htoff
  change (flip ℂ c₂ fun x ↦ x c₁) * compose operator (unrolledGates c₁ c₂ t) = _ at htoff
  intro h
  rw [compose_cons, compose_append] at h
  change flip ℂ c₂ (fun x ↦ x t) * compose operator (unrolledGates c₁ c₂ t) *
    flip ℂ c₂ (fun x ↦ x t) = exchange ℂ c₂ t fun x ↦ x c₁ at h
  rw [exchange_eq h₁₂ h₁ h₂, ← htoff] at h
  generalize compose operator (unrolledGates c₁ c₂ t) = U at h htoff
  -- the CNOTs on both sides cancel, and the missing one is left
  have hU : U = (flip ℂ c₂ fun x ↦ x c₁) * U := conj_injective hself h
  have htwice : (flip ℂ t fun x : ι → Bool ↦ x c₁ && x c₂) * (flip ℂ t fun x ↦ x c₁ && x c₂) = 1 :=
    flip_mul_self fun x b ↦ by simp only [Function.update_of_ne h₁, Function.update_of_ne h₂]
  have hone : (flip ℂ c₂ fun x : ι → Bool ↦ x c₁) = 1 := by
    rw [← hU] at htoff
    rw [htoff] at hU
    rw [← mul_one (flip ℂ c₂ fun x : ι → Bool ↦ x c₁), ← htwice, ← mul_assoc, ← hU]
  have hid : flipWhen c₂ (fun x : ι → Bool ↦ x c₁) = id := reindex_injective hone
  exact absurd (congrFun (congrFun hid fun _ ↦ true) c₂) (by simp [flipWhen])

end Distinct

/-! ## The lines as statements -/

/-- A text with a semicolon at the end of each line. -/
def terminated (t : List Char) : List Char :=
  t.flatMap fun c ↦ if c = '\n' then [';', '\n'] else [c]

theorem terminated_append (t t' : List Char) :
    terminated (t ++ t') = terminated t ++ terminated t' :=
  List.flatMap_append ..

theorem IsWord.terminated_eq {w : Word} (h : IsWord w) : terminated w = w := by
  have hne : ∀ c ∈ w, c ≠ '\n' := by
    rintro c hc rfl
    exact absurd (h.plain _ hc) (by decide)
  rw [terminated, List.flatMap_congr fun c hc ↦ if_neg (hne c hc), List.flatMap_singleton']

/-- The piece of a gate of the lines. -/
def linePiece : GateCall Word → Piece
  | gate1 g q => .call (nameOf g) [q]
  | CNOT c t => .call "cx".toList [c, t]
  | _ => .call [] []

theorem lexes_terminated_line1 {g : String} {k : Gate1} (hg : terminated g.toList = g.toList)
    (hk : ∀ r, lex (g.toList ++ r) = .word (nameOf k) :: lex r) {q : Word} (hq : IsWord q) :
    Lexes (terminated (line1 g q)) [linePiece (gate1 k q)] := by
  rw [line1, terminated_append, terminated_append, hg, hq.terminated_eq]
  exact lexes_stmt1 hk hq

theorem lexes_terminated_cx {q r : Word} (hq : IsWord q) (hr : IsWord r) :
    Lexes (terminated (line2 "cx " q r)) [linePiece (CNOT q r)] := fun s ↦ by
  rw [line2, terminated_append, terminated_append, terminated_append, terminated_append,
    hq.terminated_eq, hr.terminated_eq, List.append_assoc, List.append_assoc, List.append_assoc,
    List.append_assoc]
  refine (congrArg (Token.word "cx".toList :: ·) (hq.lex_append rfl)).trans ?_
  exact congrArg (Token.word "cx".toList :: Token.word q :: Token.comma :: ·) (hr.lex_append rfl)

theorem lexes_terminated_unrolled {q₀ q₁ q₂ : Word} (h₀ : IsWord q₀) (h₁ : IsWord q₁)
    (h₂ : IsWord q₂) :
    Lexes (terminated (unrolled q₀ q₁ q₂)) ((unrolledGates q₀ q₁ q₂).map linePiece) := by
  simp only [unrolled, terminated_append]
  exact (lexes_terminated_line1 (k := .H) rfl (fun _ ↦ rfl) h₂).append <|
    (lexes_terminated_cx h₁ h₂).append <|
    (lexes_terminated_line1 (k := .Tdag) rfl (fun _ ↦ rfl) h₂).append <|
    (lexes_terminated_cx h₀ h₂).append <|
    (lexes_terminated_line1 (k := .T) rfl (fun _ ↦ rfl) h₂).append <|
    (lexes_terminated_cx h₁ h₂).append <|
    (lexes_terminated_line1 (k := .Tdag) rfl (fun _ ↦ rfl) h₂).append <|
    (lexes_terminated_cx h₀ h₂).append <|
    (lexes_terminated_line1 (k := .T) rfl (fun _ ↦ rfl) h₁).append <|
    (lexes_terminated_line1 (k := .T) rfl (fun _ ↦ rfl) h₂).append <|
    (lexes_terminated_line1 (k := .H) rfl (fun _ ↦ rfl) h₂).append <|
    (lexes_terminated_cx h₀ h₁).append <|
    (lexes_terminated_line1 (k := .T) rfl (fun _ ↦ rfl) h₀).append
    (lexes_terminated_line1 (k := .Tdag) rfl (fun _ ↦ rfl) h₁)

theorem denote_lines {gs : List (GateCall Word)}
    (hgs : ∀ g ∈ gs, (∃ k q, g = gate1 k q) ∨ ∃ c t, g = CNOT c t) :
    ∃ ss, readFrom [] (tokensOf (gs.map linePiece)) = some ss ∧
      ∀ R, denote R ss = some fun m ↦ [(compose operator gs, m)] := by
  induction gs with
  | nil => exact ⟨[], rfl, fun R ↦ rfl⟩
  | cons g gs ih =>
    obtain ⟨hg, htail⟩ := List.forall_mem_cons.mp hgs
    obtain ⟨ss, hss, hden⟩ := ih htail
    obtain ⟨o, ts, hpiece, hplain, ho, hout⟩ : ∃ o ts, linePiece g = .stmt ts ∧
        (Piece.stmt ts).IsPlain ∧ readQop ts = some o ∧ ∀ R, o.outcomes R = some (.ofGate g) := by
      obtain ⟨k, q, rfl⟩ | ⟨c, t, rfl⟩ := hg
      · exact ⟨.gate (nameOf k) [] [q], _, rfl,
          Piece.isPlain_call (by cases k <;> decide) (by cases k <;> decide) (List.cons_ne_nil _ _),
          readQop_call (by cases k <;> decide) (by cases k <;> decide) (List.cons_ne_nil _ _),
          fun R ↦ by cases k <;> rfl⟩
      · exact ⟨.gate "cx".toList [] [c, t], _, rfl,
          Piece.isPlain_call (by decide) (by decide) (List.cons_ne_nil _ _),
          readQop_call (by decide) (by decide) (List.cons_ne_nil _ _), fun R ↦ rfl⟩
    refine ⟨.op o :: ss, ?_, fun R ↦ ?_⟩
    · rw [List.map_cons, hpiece, readFrom_stmt_cons hplain, ho, Option.bind_some, hss]
      rfl
    · have hone : g.outcomes = [g.operator] := by
        obtain ⟨k, q, rfl⟩ | ⟨c, t, rfl⟩ := hg <;> rfl
      rw [denote, Statement.outcomes, hout, hden, Option.bind_some, Option.map_some]
      refine congrArg some (funext fun m ↦ ?_)
      simp [Outcomes.andThen, Outcomes.ofGate, hone]

/-- **The lines, each ended by a semicolon, denote the unrolled gates.** -/
theorem denote_terminated_unrolled {q₀ q₁ q₂ : Word} (h₀ : IsWord q₀) (h₁ : IsWord q₁)
    (h₂ : IsWord q₂) :
    ∃ ss, read (terminated (unrolled q₀ q₁ q₂)) = some ss ∧
      ∀ R, denote R ss = some fun m ↦ [(compose operator (unrolledGates q₀ q₁ q₂), m)] := by
  have hgs : ∀ g ∈ unrolledGates q₀ q₁ q₂, (∃ k q, g = gate1 k q) ∨ ∃ c t, g = CNOT c t := by
    simp [unrolledGates, unrolledPhase, unrolledControls]
  obtain ⟨ss, hss, hden⟩ := denote_lines hgs
  refine ⟨ss, ?_, hden⟩
  have h := lexes_terminated_unrolled h₀ h₁ h₂ []
  rw [List.append_nil] at h
  rw [read, h, ← hss]
  exact congrArg (readFrom []) (List.append_nil _)

end ScaffCC.OpenQasm
