import ScaffCC.OpenQasm.Names

/-!
# Reading a printed program back

A printed program is a sequence of pieces: statements with their semicolon, and two kinds of text
that leave a statement open, a measurement without a destination and the condition of a branch. The
text can be read exactly when every statement is well formed, no measurement is left open, and every
condition stands right before a statement.
-/

namespace ScaffCC.OpenQasm

open Text

/-! ## Pieces -/

/-- A piece of a printed program. -/
inductive Piece
  | stmt (ts : List Token)
  | measure (q : Word)
  | cond (c v : Word)

namespace Piece

def tokens : Piece → List Token
  | stmt ts => ts ++ [.semicolon]
  | measure q => [.word "measure".toList, .word q, .word "->".toList]
  | cond c v => [.word "if".toList, .lparen, .word c, .word "==".toList, .word v, .rparen]

/-- A statement that starts with a word and another token, is neither a declaration nor a
condition, and holds no semicolon. -/
def IsPlain : Piece → Prop
  | stmt ts => ∃ k t ts', ts = .word k :: t :: ts' ∧ k ≠ "if".toList ∧ k ∉ declarations ∧
      Token.semicolon ∉ ts
  | measure _ | cond _ _ => True

/-- Every statement is a quantum operation, and nothing is left open. -/
def Sound : List Piece → Prop
  | [] => True
  | stmt ts :: ps => (readQop ts).isSome ∧ Sound ps
  | cond _ _ :: stmt ts :: ps => (readQop ts).isSome ∧ Sound ps
  | _ :: _ => False

end Piece

theorem readFrom_append {ts : List Token} (hts : Token.semicolon ∉ ts) (acc rest : List Token) :
    readFrom acc (ts ++ rest) = readFrom (acc ++ ts) rest := by
  induction ts generalizing acc with
  | nil => rw [List.nil_append, List.append_nil]
  | cons t ts ih =>
    obtain ⟨ht, hts⟩ := not_or.mp (List.mem_cons.not.mp hts)
    rw [List.cons_append, readFrom, ih hts, List.append_assoc, List.singleton_append]
    exact fun h ↦ ht h.symm

theorem readFrom_stmt {ts : List Token} (hts : Token.semicolon ∉ ts) (acc rest : List Token) :
    readFrom acc (ts ++ .semicolon :: rest)
      = (readStatement (acc ++ ts)).bind fun s ↦ (readFrom [] rest).map (s :: ·) := by
  rw [readFrom_append hts, readFrom]

theorem readStatement_of_ne {k : Word} (hif : k ≠ "if".toList) (hdecl : k ∉ declarations)
    (ts : List Token) : readStatement (.word k :: ts) = (readQop (.word k :: ts)).map .op := by
  unfold readStatement
  dsimp only
  rw [if_neg hif, if_neg hdecl]

/-- The start of a statement that nothing can complete. -/
def Dead (acc : List Token) : Prop :=
  acc ≠ [] ∧ ∀ more, readStatement (acc ++ more) = none

theorem readFrom_of_dead {acc : List Token} (h : Dead acc) (ts : List Token) :
    readFrom acc ts = none := by
  induction ts generalizing acc with
  | nil => rw [readFrom, if_neg h.1]
  | cons t ts ih =>
    by_cases ht : t = .semicolon
    · rw [ht, readFrom, ← List.append_nil acc, h.2, Option.bind_none]
    · rw [readFrom]
      · refine ih ⟨List.append_ne_nil_of_left_ne_nil h.1 _, fun more ↦ ?_⟩
        rw [List.append_assoc]
        exact h.2 _
      · exact ht

/-- A measurement without a destination takes at most one more word. -/
theorem dead_measure (q : Word) (t t' : Token) (ts : List Token) :
    Dead ((Piece.measure q).tokens ++ t :: t' :: ts) :=
  ⟨List.cons_ne_nil _ _, fun _ ↦ by cases t <;> rfl⟩

theorem dead_cond_measure (c v q : Word) (t t' : Token) (ts : List Token) :
    Dead ((Piece.cond c v).tokens ++ ((Piece.measure q).tokens ++ t :: t' :: ts)) :=
  ⟨List.cons_ne_nil _ _, fun _ ↦ by cases t <;> rfl⟩

theorem dead_cond_cond (c v c' v' : Word) :
    Dead ((Piece.cond c v).tokens ++ (Piece.cond c' v').tokens) :=
  ⟨List.cons_ne_nil _ _, fun _ ↦ rfl⟩

theorem Piece.IsPlain.exists_tokens {p : Piece} (h : p.IsPlain) :
    ∃ t t' u v, p.tokens = t :: t' :: u ++ v ∧ Token.semicolon ∉ t :: t' :: u := by
  cases p with
  | stmt ts =>
    obtain ⟨k, t, ts', rfl, -, -, hs⟩ := h
    exact ⟨.word k, t, ts', [.semicolon], rfl, hs⟩
  | measure q => exact ⟨_, _, [.word "->".toList], [], rfl, by simp⟩
  | cond c v =>
    exact ⟨_, _, [.word c, .word "==".toList, .word v, .rparen], [], rfl, by simp⟩

/-- The tokens of a list of pieces. -/
def tokensOf (ps : List Piece) : List Token :=
  ps.flatMap Piece.tokens

@[simp] theorem tokensOf_nil : tokensOf [] = [] := rfl

@[simp] theorem tokensOf_cons (p : Piece) (ps : List Piece) :
    tokensOf (p :: ps) = p.tokens ++ tokensOf ps := rfl

@[simp] theorem tokensOf_append (ps ps' : List Piece) :
    tokensOf (ps ++ ps') = tokensOf ps ++ tokensOf ps' :=
  List.flatMap_append ..

theorem readFrom_measure {acc : List Token}
    (hacc : ∀ q t t' ts, Dead (acc ++ ((Piece.measure q).tokens ++ t :: t' :: ts))) (q : Word)
    {ps : List Piece} (hps : ∀ p ∈ ps, p.IsPlain) :
    readFrom acc ((Piece.measure q).tokens ++ tokensOf ps) = none := by
  rw [readFrom_append (by simp [Piece.tokens])]
  cases ps with
  | nil =>
    rw [tokensOf_nil, readFrom, if_neg]
    exact List.append_ne_nil_of_right_ne_nil _ (List.cons_ne_nil _ _)
  | cons p ps =>
    obtain ⟨t, t', u, v, hp, hs⟩ := (hps p List.mem_cons_self).exists_tokens
    rw [tokensOf_cons, hp, List.append_assoc, readFrom_append hs, List.append_assoc]
    exact readFrom_of_dead (hacc q t t' u) _

theorem readFrom_stmt_cons {ts : List Token} (hts : (Piece.stmt ts).IsPlain) (ps : List Piece) :
    readFrom [] (tokensOf (.stmt ts :: ps))
      = (readQop ts).bind fun o ↦ (readFrom [] (tokensOf ps)).map (.op o :: ·) := by
  obtain ⟨k, t, ts', rfl, hif, hdecl, hs⟩ := hts
  rw [tokensOf_cons, Piece.tokens, List.append_assoc, List.singleton_append, readFrom_stmt hs,
    List.nil_append, readStatement_of_ne hif hdecl]
  cases readQop (.word k :: t :: ts') <;> rfl

theorem readFrom_cond_cons (c v : Word) {ts : List Token} (hts : (Piece.stmt ts).IsPlain)
    (ps : List Piece) :
    readFrom [] (tokensOf (.cond c v :: .stmt ts :: ps))
      = (readQop ts).bind fun o ↦ (readFrom [] (tokensOf ps)).map (.ifEq c v o :: ·) := by
  obtain ⟨k, t, ts', rfl, -, -, hs⟩ := hts
  rw [tokensOf_cons, readFrom_append (by simp [Piece.tokens]), tokensOf_cons, Piece.tokens,
    Piece.tokens, List.append_assoc, List.singleton_append, readFrom_stmt hs]
  have hcond : readStatement ([] ++ (Piece.cond c v).tokens ++ .word k :: t :: ts')
      = (readQop (.word k :: t :: ts')).map (.ifEq c v) := rfl
  refine (congrArg (Option.bind · _) hcond).trans ?_
  cases readQop (.word k :: t :: ts') <;> rfl

theorem readFrom_of_open {p : Piece} {ps : List Piece} (hps : ∀ p' ∈ ps, p'.IsPlain)
    (hne : ∀ ts, p ≠ .stmt ts)
    (hne' : ∀ c v ts ps', p = .cond c v → ps ≠ .stmt ts :: ps') :
    readFrom [] (tokensOf (p :: ps)) = none := by
  rw [tokensOf_cons]
  cases p with
  | stmt ts => exact absurd rfl (hne ts)
  | measure q => exact readFrom_measure (fun q t t' ts ↦ dead_measure q t t' ts) q hps
  | cond c v =>
    rw [readFrom_append (by simp [Piece.tokens]), List.nil_append]
    cases ps with
    | nil => rfl
    | cons p ps =>
      obtain ⟨-, htail⟩ := List.forall_mem_cons.mp hps
      rw [tokensOf_cons]
      cases p with
      | stmt ts => exact absurd rfl (hne' c v ts ps rfl)
      | measure q => exact readFrom_measure (dead_cond_measure c v) q htail
      | cond c' v' =>
        rw [readFrom_append (by simp [Piece.tokens]), readFrom_of_dead (dead_cond_cond c v c' v')]

/-- **The text can be read exactly when the pieces are sound.** -/
theorem isSome_readFrom_iff {ps : List Piece} (hps : ∀ p ∈ ps, p.IsPlain) :
    (readFrom [] (tokensOf ps)).isSome ↔ Piece.Sound ps := by
  induction ps using Piece.Sound.induct with
  | case1 => exact iff_of_true rfl trivial
  | case2 ts ps ih =>
    obtain ⟨hts, hrest⟩ := List.forall_mem_cons.mp hps
    have hih : (readFrom [] (tokensOf ps)).isSome ↔ Piece.Sound ps := ih hrest
    rw [Piece.Sound, ← hih, readFrom_stmt_cons hts]
    cases readQop ts <;> simp
  | case3 c v ts ps ih =>
    obtain ⟨-, hts, hrest⟩ := (List.forall_mem_cons.mp hps).imp_right List.forall_mem_cons.mp
    have hih : (readFrom [] (tokensOf ps)).isSome ↔ Piece.Sound ps := ih hrest
    rw [Piece.Sound, ← hih, readFrom_cond_cons c v hts]
    cases readQop ts <;> simp
  | case4 p ps hne hne' =>
    rw [Piece.Sound.eq_4 p ps hne hne',
      readFrom_of_open (List.forall_mem_cons.mp hps).2 hne fun c v ts ps' ↦ hne' c v ts ps']
    exact iff_of_false Bool.false_ne_true id

/-! ## The pieces of a program -/

def operandTokens : List Word → List Token
  | [] => []
  | [w] => [.word w]
  | w :: ws => .word w :: .comma :: operandTokens ws

def Piece.call (g : Word) (ws : List Word) : Piece :=
  stmt (.word g :: operandTokens ws)

/-- The lines of the unrolled Toffoli gate and the statement after it: what its one semicolon
ends. -/
def unrolledTokens (q₀ q₁ q₂ : Word) : List Token :=
  let h := Token.word "h".toList
  let cx := Token.word "cx".toList
  let t := Token.word "t".toList
  let tdg := Token.word "tdg".toList
  let (c₁, c₂, q) := (Token.word q₀, Token.word q₁, Token.word q₂)
  [h, q, cx, c₂, .comma, q, tdg, q, cx, c₁, .comma, q, t, q, cx, c₂, .comma, q, tdg, q,
    cx, c₁, .comma, q, t, c₂, t, q, h, q, cx, c₁, .comma, c₂, t, c₁, tdg, c₂]

theorem semicolon_notMem_operandTokens (ws : List Word) : Token.semicolon ∉ operandTokens ws := by
  induction ws with
  | nil => exact List.not_mem_nil
  | cons w ws ih => cases ws <;> simp_all [operandTokens]

theorem Piece.isPlain_call {g : Word} (hif : g ≠ "if".toList) (hdecl : g ∉ declarations)
    {ws : List Word} (hne : ws ≠ []) : (Piece.call g ws).IsPlain := by
  have hs := semicolon_notMem_operandTokens ws
  obtain ⟨t, ts, hts⟩ : ∃ t ts, operandTokens ws = t :: ts := by
    obtain ⟨w, ws, rfl⟩ := List.exists_cons_of_ne_nil hne
    cases ws <;> exact ⟨_, _, rfl⟩
  refine ⟨g, t, ts, congrArg _ hts, hif, hdecl, ?_⟩
  exact List.not_mem_cons_of_ne_of_not_mem Token.noConfusion hs

def FnCall.pieces (unrollToff : Bool) (call : FnCall) : List Piece :=
  let q := call.arg
  match formOf call.gate with
  | .meas b =>
    let front := (call.qArgs.head?).elim [] QArg.measureString
    (if b = .x then [.call "h".toList [front]] else []) ++
      match call.rtn with
      | some c => [.stmt [.word "measure".toList, .word front, .word "->".toList,
          .word c.cbitVarString]]
      | none => [.measure front]
  | .prep b =>
    .call "reset".toList [q 0] ::
      ((if call.back.intValue = 1 then [.call "x".toList [q 0]] else []) ++
        if b = .x then [.call "h".toList [q 0]] else [])
  | .fredkin =>
    .call "cx".toList [q 2, q 1] ::
      if unrollToff then [.stmt (unrolledTokens (q 0) (q 1) (q 2) ++
        .word "cx".toList :: operandTokens [q 2, q 1])]
      else [.call "ccx".toList [q 0, q 1, q 2], .call "cx".toList [q 2, q 1]]
  | .rot r =>
    let θ := match call.back with
      | .doubleVal θ => showDouble θ
      | .intVal z => showInt z
      | .reg _ => []
    [.stmt [.word r, .lparen, .word θ, .rparen, .word (q 0)]]
  | .gate g => [.call g (call.qArgs.map QArg.varString)]

theorem FnCall.isPlain_pieces (unrollToff : Bool) (call : FnCall) :
    ∀ p ∈ call.pieces unrollToff, p.IsPlain := by
  have hcall : ∀ g ∈ ["h", "x", "cx", "ccx", "reset"].map String.toList, ∀ ws : List Word, ws ≠ [] →
      (Piece.call g ws).IsPlain := by
    intro g hg ws hne
    have hall : ∀ g ∈ ["h", "x", "cx", "ccx", "reset"].map String.toList,
        g ≠ "if".toList ∧ g ∉ declarations := by decide
    exact Piece.isPlain_call (hall g hg).1 (hall g hg).2 hne
  have hite : ∀ (c : Prop) [Decidable c] (p : Piece), p.IsPlain →
      ∀ p' ∈ if c then [p] else [], p'.IsPlain := by
    intro c _ p hp
    split_ifs
    exacts [List.forall_mem_singleton.mpr hp, List.forall_mem_nil _]
  obtain ⟨g, rtn⟩ := call
  cases g with
  | gate1 g q =>
    exact List.forall_mem_singleton.mpr <|
      Piece.isPlain_call (by cases g <;> decide) (by cases g <;> decide) (List.cons_ne_nil _ _)
  | rot a q θ =>
    exact List.forall_mem_singleton.mpr
      ⟨_, _, _, rfl, by cases a <;> decide, by cases a <;> decide, by simp⟩
  | prep b q v =>
    exact List.forall_mem_cons.mpr ⟨hcall _ (by decide) _ (List.cons_ne_nil _ _),
      List.forall_mem_append.mpr ⟨hite _ _ (hcall _ (by decide) _ (List.cons_ne_nil _ _)),
        hite _ _ (hcall _ (by decide) _ (List.cons_ne_nil _ _))⟩⟩
  | meas b q =>
    refine List.forall_mem_append.mpr
      ⟨hite _ _ (hcall _ (by decide) _ (List.cons_ne_nil _ _)), ?_⟩
    cases rtn with
    | none => exact List.forall_mem_singleton.mpr trivial
    | some c =>
      exact List.forall_mem_singleton.mpr ⟨_, _, _, rfl, by decide, by decide, by simp⟩
  | CNOT c t =>
    exact List.forall_mem_singleton.mpr (hcall _ (by decide) _ (List.cons_ne_nil _ _))
  | Toffoli c₁ c₂ t =>
    exact List.forall_mem_singleton.mpr (hcall _ (by decide) _ (List.cons_ne_nil _ _))
  | Fredkin c a b =>
    refine List.forall_mem_cons.mpr ⟨hcall _ (by decide) _ (List.cons_ne_nil _ _), ?_⟩
    cases unrollToff with
    | false =>
      exact List.forall_mem_cons.mpr ⟨hcall _ (by decide) _ (List.cons_ne_nil _ _),
        List.forall_mem_singleton.mpr (hcall _ (by decide) _ (List.cons_ne_nil _ _))⟩
    | true =>
      exact List.forall_mem_singleton.mpr
        ⟨_, _, _, rfl, by decide, by decide, by simp [unrolledTokens, operandTokens]⟩

/-- The tokens of the text are those of the pieces, whatever comes after it. -/
def Lexes (t : List Char) (ps : List Piece) : Prop :=
  ∀ r, lex (t ++ r) = tokensOf ps ++ lex r

namespace Lexes

variable {t t' : List Char} {ps ps' : List Piece}

theorem nil : Lexes [] [] := fun _ ↦ rfl

theorem append (h : Lexes t ps) (h' : Lexes t' ps') : Lexes (t ++ t') (ps ++ ps') := fun r ↦ by
  rw [List.append_assoc, h, h', tokensOf_append, List.append_assoc]

theorem ite (p : Prop) [Decidable p] (h : Lexes t ps) :
    Lexes (if p then t else []) (if p then ps else []) := by
  split_ifs
  exacts [h, nil]

theorem flatMap {α : Type*} {l : List α} {f : α → List Char} {g : α → List Piece}
    (h : ∀ a ∈ l, Lexes (f a) (g a)) : Lexes (l.flatMap f) (l.flatMap g) := by
  induction l with
  | nil => exact nil
  | cons a l ih =>
    obtain ⟨ha, hl⟩ := List.forall_mem_cons.mp h
    rw [List.flatMap_cons, List.flatMap_cons]
    exact ha.append (ih hl)

end Lexes

theorem lex_operandString {ws : List Word} (hne : ws ≠ []) (hws : ∀ w ∈ ws, IsWord w)
    {r : List Char} (hr : (r.head?.bind separator).isSome) :
    lex (operandString ws ++ r) = operandTokens ws ++ lex r := by
  induction ws with
  | nil => exact absurd rfl hne
  | cons w ws ih =>
    obtain ⟨hw, hws⟩ := List.forall_mem_cons.mp hws
    cases ws with
    | nil => exact hw.lex_append hr
    | cons w' ws =>
      rw [operandString, List.append_assoc, List.append_assoc, hw.lex_append rfl]
      exact congrArg (.word w :: .comma :: ·) (ih (List.cons_ne_nil _ _) hws)
      all_goals exact List.cons_ne_nil _ _

theorem lexes_stmt {g : Word} (hg : IsWord g) {ws : List Word} (hne : ws ≠ [])
    (hws : ∀ w ∈ ws, IsWord w) : Lexes (stmt g ws) [.call g ws] := fun r ↦ by
  simp only [stmt, List.append_assoc, tokensOf_cons, tokensOf_nil, Piece.call, Piece.tokens,
    List.cons_append, List.append_nil]
  rw [hg.lex_append rfl]
  exact congrArg (Token.word g :: ·) (lex_operandString hne hws rfl)

theorem lexes_stmt1 {g : String} {k : Word} (hg : ∀ r, lex (g.toList ++ r) = .word k :: lex r)
    {q : Word} (hq : IsWord q) : Lexes (stmt1 g q) [.call k [q]] := fun r ↦ by
  rw [stmt1, List.append_assoc, List.append_assoc, hg, hq.lex_append rfl]
  rfl

theorem lex_line1 {g : String} {k : Word} (hg : ∀ r, lex (g.toList ++ r) = .word k :: lex r)
    {q : Word} (hq : IsWord q) (r : List Char) :
    lex (line1 g q ++ r) = .word k :: .word q :: lex r := by
  rw [line1, List.append_assoc, List.append_assoc, hg, hq.lex_append rfl]
  rfl

theorem lex_line2 {g : String} {k : Word} (hg : ∀ r, lex (g.toList ++ r) = .word k :: lex r)
    {q q' : Word} (hq : IsWord q) (hq' : IsWord q') (r : List Char) :
    lex (line2 g q q' ++ r) = .word k :: .word q :: .comma :: .word q' :: lex r := by
  rw [line2, List.append_assoc, List.append_assoc, List.append_assoc, List.append_assoc, hg,
    hq.lex_append rfl]
  exact congrArg (Token.word k :: Token.word q :: Token.comma :: ·) (hq'.lex_append rfl)

theorem lex_unrolled {q₀ q₁ q₂ : Word} (h₀ : IsWord q₀) (h₁ : IsWord q₁) (h₂ : IsWord q₂)
    (r : List Char) : lex (unrolled q₀ q₁ q₂ ++ r) = unrolledTokens q₀ q₁ q₂ ++ lex r := by
  simp only [unrolled, List.append_assoc]
  rw [lex_line1 (fun _ ↦ rfl) h₂, lex_line2 (fun _ ↦ rfl) h₁ h₂, lex_line1 (fun _ ↦ rfl) h₂,
    lex_line2 (fun _ ↦ rfl) h₀ h₂, lex_line1 (fun _ ↦ rfl) h₂, lex_line2 (fun _ ↦ rfl) h₁ h₂,
    lex_line1 (fun _ ↦ rfl) h₂, lex_line2 (fun _ ↦ rfl) h₀ h₂, lex_line1 (fun _ ↦ rfl) h₁,
    lex_line1 (fun _ ↦ rfl) h₂, lex_line1 (fun _ ↦ rfl) h₂, lex_line2 (fun _ ↦ rfl) h₀ h₁,
    lex_line1 (fun _ ↦ rfl) h₀, lex_line1 (fun _ ↦ rfl) h₁]
  rfl

/-- No semicolon ends the unrolled Toffoli gate before that of the statement after it. -/
theorem lexes_unrolled {q₀ q₁ q₂ : Word} (h₀ : IsWord q₀) (h₁ : IsWord q₁) (h₂ : IsWord q₂) :
    Lexes (unrolled q₀ q₁ q₂ ++ stmt "cx".toList [q₂, q₁])
      [.stmt (unrolledTokens q₀ q₁ q₂ ++ .word "cx".toList :: operandTokens [q₂, q₁])] := by
  have hcx : Lexes (stmt "cx".toList [q₂, q₁]) [.call "cx".toList [q₂, q₁]] :=
    lexes_stmt (by decide) (List.cons_ne_nil _ _) (by simp [h₁, h₂])
  intro r
  rw [List.append_assoc, lex_unrolled h₀ h₁ h₂, hcx]
  rfl

theorem lex_parens {w : Word} (hw : IsWord w) (r : List Char) :
    lex ("(".toList ++ ((' ' :: (w ++ [' '])) ++ (") ".toList ++ r)))
      = .lparen :: .word w :: .rparen :: lex r := by
  rw [List.cons_append, List.append_assoc]
  exact congrArg (Token.lparen :: ·) (hw.lex_append rfl)

theorem lexes_rot {k θ q : Word} (hk : IsWord k) (hθ : IsWord θ) (hq : IsWord q) :
    Lexes (k ++ ("(".toList ++ ((' ' :: (θ ++ [' '])) ++ (") ".toList ++ (q ++ ";\n".toList)))))
      [.stmt [.word k, .lparen, .word θ, .rparen, .word q]] := fun r ↦ by
  simp only [List.append_assoc]
  rw [hk.lex_append rfl, lex_parens hθ, hq.lex_append rfl]
  rfl

theorem lex_measure {q : Word} (hq : IsWord q) (r : List Char) :
    lex ("measure ".toList ++ (q ++ (" -> ".toList ++ r))) = (Piece.measure q).tokens ++ lex r := by
  have h : lex ("measure ".toList ++ (q ++ (" -> ".toList ++ r)))
      = .word "measure".toList :: lex (q ++ (" -> ".toList ++ r)) := rfl
  rw [h, hq.lex_append rfl]
  rfl

/-- **The tokens of a call are those of its pieces.** -/
theorem lexes_genCall (unrollToff : Bool) (call : FnCall) :
    Lexes (genCall unrollToff call) (call.pieces unrollToff) := by
  have hwords : ∀ as : List QArg, ∀ w ∈ as.map QArg.varString, IsWord w := by
    intro as w hw
    obtain ⟨a, -, rfl⟩ := List.mem_map.mp hw
    exact a.isWord_varString
  obtain ⟨g, rtn⟩ := call
  rw [genCall, form_fToPrint, FnCall.pieces]
  cases g with
  | gate1 g q =>
    exact lexes_stmt (by cases g <;> decide) (List.cons_ne_nil _ _) (hwords [.reg q])
  | rot a q θ =>
    have hname : IsWord (axisName a) := by cases a <;> decide
    exact lexes_rot hname (isWord_showDouble θ) (QArg.isWord_varString (.reg q))
  | prep b q v =>
    have hq := QArg.isWord_varString (.reg q)
    exact (lexes_stmt1 (fun _ ↦ rfl) hq).append
      (((lexes_stmt1 (fun _ ↦ rfl) hq).ite _).append ((lexes_stmt1 (fun _ ↦ rfl) hq).ite _))
  | meas b q =>
    have hq := QArg.isWord_measureString (.reg q)
    refine ((lexes_stmt1 (fun _ ↦ rfl) hq).ite _).append fun r ↦ ?_
    simp only [List.append_assoc]
    refine (lex_measure hq _).trans ?_
    cases rtn with
    | none => rfl
    | some c =>
      simp only [List.append_assoc]
      exact congrArg ((Piece.measure _).tokens ++ ·) (c.isWord_cbitVarString.lex_append rfl)
  | CNOT c t =>
    exact lexes_stmt (by decide) (List.cons_ne_nil _ _) (hwords [.reg c, .reg t])
  | Toffoli c₁ c₂ t =>
    exact lexes_stmt (by decide) (List.cons_ne_nil _ _) (hwords [.reg c₁, .reg c₂, .reg t])
  | Fredkin c a b =>
    have hcx := lexes_stmt (g := "cx".toList) (by decide) (List.cons_ne_nil _ _)
      (hwords [.reg b, .reg a])
    refine hcx.append ?_
    cases unrollToff with
    | false =>
      exact (lexes_stmt (by decide) (List.cons_ne_nil _ _)
        (hwords [.reg c, .reg a, .reg b])).append hcx
    | true =>
      exact lexes_unrolled (QArg.isWord_varString (.reg c)) (QArg.isWord_varString (.reg a))
        (QArg.isWord_varString (.reg b))

end ScaffCC.OpenQasm
