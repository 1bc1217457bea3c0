import ScaffCC.OpenQasm.Meaning
import ScaffCC.OpenQasm.Pieces

/-!
# The two modes of printing

With the Toffoli gate of a Fredkin gate unrolled, its lines end without semicolons, so a program
with a Fredkin gate has no reading. A program without one is printed in the same way in both modes,
and its text is complete if every measurement has a destination and every condition stands before a
call.

The unrolled gates, read line by line, are not the Toffoli gate either: the last CNOT is missing.
-/

namespace ScaffCC.OpenQasm

/-! ## Well formed calls -/

/-- The text of the call is complete in both modes. -/
structure FnCall.Printable (call : FnCall) : Prop where
  not_fredkin : ∀ c a b, call.gate ≠ .Fredkin c a b
  stored : ∀ b q, call.gate = .meas b q → call.rtn ≠ none

/-- The first thing printed for the blocks is a call. -/
def StartsWithCall : List Block → Prop
  | [] => False
  | b :: bs => b.calls ≠ [] ∨ b.cond = none ∧ StartsWithCall bs

/-- After each condition comes a call. -/
def Guarded : List Block → Prop
  | [] => True
  | b :: bs => (b.cond ≠ none → StartsWithCall bs) ∧ Guarded bs

theorem readOperands_operandTokens {ws : List Word} (hne : ws ≠ []) :
    readOperands (operandTokens ws) = some ws := by
  induction ws with
  | nil => exact absurd rfl hne
  | cons w ws ih =>
    cases ws with
    | nil => rfl
    | cons w' ws =>
      rw [operandTokens, readOperands, ih (List.cons_ne_nil _ _)]
      · rfl
      · exact List.cons_ne_nil _ _

theorem readQop_call {g : Word} (hm : g ≠ "measure".toList) (hr : g ≠ "reset".toList)
    {ws : List Word} (hne : ws ≠ []) :
    readQop (.word g :: operandTokens ws) = some (.gate g [] ws) := by
  have h : readCall g (operandTokens ws) = some (.gate g [] ws) := by
    obtain ⟨w, ws, rfl⟩ := List.exists_cons_of_ne_nil hne
    have h := readOperands_operandTokens hne
    cases ws <;> exact congrArg (Option.map (Qop.gate g [])) h
  unfold readQop
  dsimp only
  rw [if_neg hm, if_neg hr, h]

/-- The statement is one of the header's gates, a reset or a measurement, and it means something. -/
def Meaningful (ts : List Token) : Prop :=
  ∃ o, readQop ts = some o ∧ ∀ R, (o.outcomes R).isSome

theorem meaningful_call {g : Word} (hm : g ≠ "measure".toList) (hr : g ≠ "reset".toList)
    {ws : List Word} (hne : ws ≠ []) (hg : ∀ R, (gateCall R g [] ws).isSome) :
    ∃ ts, Piece.call g ws = .stmt ts ∧ Meaningful ts := by
  refine ⟨_, rfl, _, readQop_call hm hr hne, fun R ↦ ?_⟩
  rw [Qop.outcomes, Option.isSome_map]
  exact hg R

theorem FnCall.Printable.meaningful {call : FnCall} (h : call.Printable) {unrollToff : Bool} :
    ∀ p ∈ call.pieces unrollToff, ∃ ts, p = .stmt ts ∧ Meaningful ts := by
  obtain ⟨g, rtn⟩ := call
  have hh : ∀ q, ∃ ts, Piece.call "h".toList [q] = .stmt ts ∧ Meaningful ts := fun q ↦
    meaningful_call (by decide) (by decide) (List.cons_ne_nil _ _) fun R ↦ rfl
  cases g with
  | gate1 g q =>
    refine List.forall_mem_singleton.mpr ?_
    exact meaningful_call (by cases g <;> decide) (by cases g <;> decide) (List.cons_ne_nil _ _)
      fun R ↦ by cases g <;> rfl
  | rot a q θ =>
    refine List.forall_mem_singleton.mpr ⟨_, rfl, ?_⟩
    cases a <;> exact ⟨_, rfl, fun R ↦ rfl⟩
  | prep b q v =>
    rw [FnCall.pieces, formOf]
    refine List.forall_mem_cons.mpr ⟨⟨_, rfl, _, rfl, fun R ↦ rfl⟩,
      List.forall_mem_append.mpr ⟨?_, ?_⟩⟩
    · split_ifs
      · exact List.forall_mem_singleton.mpr <|
          meaningful_call (by decide) (by decide) (List.cons_ne_nil _ _) fun R ↦ rfl
      · exact List.forall_mem_nil _
    · split_ifs
      exacts [List.forall_mem_singleton.mpr (hh _), List.forall_mem_nil _]
  | meas b q =>
    obtain ⟨c, rfl⟩ := Option.ne_none_iff_exists'.mp (h.stored b q rfl)
    rw [FnCall.pieces, formOf]
    refine List.forall_mem_append.mpr ⟨?_, ?_⟩
    · split_ifs
      exacts [List.forall_mem_singleton.mpr (hh _), List.forall_mem_nil _]
    · exact List.forall_mem_singleton.mpr ⟨_, rfl, _, rfl, fun R ↦ rfl⟩
  | CNOT c t =>
    refine List.forall_mem_singleton.mpr ?_
    exact meaningful_call (by decide) (by decide) (List.cons_ne_nil _ _) fun R ↦ rfl
  | Toffoli c₁ c₂ t =>
    refine List.forall_mem_singleton.mpr ?_
    exact meaningful_call (by decide) (by decide) (List.cons_ne_nil _ _) fun R ↦ rfl
  | Fredkin c a b => exact absurd rfl (h.not_fredkin c a b)

theorem FnCall.Printable.exists_pieces {call : FnCall} (h : call.Printable) (unrollToff : Bool) :
    ∃ ts ps, call.pieces unrollToff = .stmt ts :: ps := by
  have hne : call.pieces unrollToff ≠ [] := by
    obtain ⟨g, rtn⟩ := call
    cases g <;> rw [FnCall.pieces, formOf] <;> try exact List.cons_ne_nil _ _
    cases rtn <;> exact List.append_ne_nil_of_right_ne_nil _ (List.cons_ne_nil _ _)
  obtain ⟨p, ps, hps⟩ := List.exists_cons_of_ne_nil hne
  obtain ⟨ts, rfl, -⟩ := h.meaningful p (hps ▸ List.mem_cons_self)
  exact ⟨ts, ps, hps⟩

/-! ## Sound pieces -/

theorem sound_append {ps : List Piece} (hps : ∀ p ∈ ps, ∃ ts, p = .stmt ts ∧ Meaningful ts)
    (rest : List Piece) : Piece.Sound (ps ++ rest) ↔ Piece.Sound rest := by
  induction ps with
  | nil => rfl
  | cons p ps ih =>
    obtain ⟨⟨ts, rfl, o, ho, -⟩, htail⟩ := List.forall_mem_cons.mp hps
    rw [List.cons_append, Piece.Sound, ih htail, ho]
    exact and_iff_right rfl

theorem sound_cond {c v : Word} {ps : List Piece} :
    Piece.Sound (.cond c v :: ps) ↔ (∃ ts ps', ps = .stmt ts :: ps') ∧ Piece.Sound ps := by
  cases ps with
  | nil => simp [Piece.Sound]
  | cons p ps => cases p <;> simp [Piece.Sound]

theorem not_sound_measure {q : Word} {ps : List Piece} : ¬ Piece.Sound (.measure q :: ps) := by
  cases ps <;> exact id

theorem not_sound_of_not_printable {call : FnCall} (h : ¬ call.Printable) (rest : List Piece) :
    ¬ Piece.Sound (call.pieces true ++ rest) := by
  obtain ⟨g, rtn⟩ := call
  cases g with
  | Fredkin c a b => exact fun hs ↦ absurd hs.2.1 Bool.false_ne_true
  | meas b q =>
    cases rtn with
    | none =>
      cases b with
      | x => exact fun hs ↦ not_sound_measure hs.2
      | z => exact not_sound_measure
    | some c => exact absurd ⟨by simp, by simp⟩ h
  | _ => exact absurd ⟨by simp, by simp⟩ h

/-! ## The pieces of the blocks -/

def Block.pieces (unrollToff : Bool) (b : Block) : List Piece :=
  b.calls.flatMap (FnCall.pieces unrollToff) ++
    match b.cond with
    | none => []
    | some (c, v) => [.cond c.cbitArrayString (Text.showInt v)]

theorem lexes_genQASM_block (unrollToff : Bool) (b : Block) :
    Lexes (genQASM_block unrollToff b) (b.pieces unrollToff) := by
  refine (Lexes.flatMap fun call _ ↦ lexes_genCall unrollToff call).append ?_
  cases b.cond with
  | none => exact .nil
  | some cv =>
    obtain ⟨c, v⟩ := cv
    intro r
    have h : lex (" ==".toList ++ (' ' :: (Text.showInt v ++ [' ']) ++ (") ".toList ++ r)))
        = .word "==".toList :: .word (Text.showInt v) :: .rparen :: lex r := by
      rw [List.cons_append, List.append_assoc]
      exact congrArg (Token.word "==".toList :: ·) ((isWord_showInt v).lex_append rfl)
    simp only [List.append_assoc, QArg.valString]
    refine (congrArg (Token.word "if".toList :: Token.lparen :: ·)
      (c.isWord_cbitArrayString.lex_append rfl)).trans ?_
    rw [h]
    rfl

def AllPrintable (bs : List Block) : Prop :=
  ∀ b ∈ bs, ∀ call ∈ b.calls, call.Printable

theorem sound_calls {calls : List FnCall} (h : ∀ call ∈ calls, call.Printable) (unrollToff : Bool)
    (rest : List Piece) :
    Piece.Sound (calls.flatMap (FnCall.pieces unrollToff) ++ rest) ↔ Piece.Sound rest :=
  sound_append (fun p hp ↦ by
    obtain ⟨call, hcall, hp⟩ := List.mem_flatMap.mp hp
    exact (h call hcall).meaningful p hp) rest

theorem not_sound_calls {calls : List FnCall} (h : ¬ ∀ call ∈ calls, call.Printable)
    (rest : List Piece) : ¬ Piece.Sound (calls.flatMap (FnCall.pieces true) ++ rest) := by
  induction calls with
  | nil => exact absurd (List.forall_mem_nil _) h
  | cons call calls ih =>
    rw [List.flatMap_cons, List.append_assoc]
    by_cases hcall : call.Printable
    · rw [sound_append fun p hp ↦ hcall.meaningful p hp]
      exact ih fun hcalls ↦ h (List.forall_mem_cons.mpr ⟨hcall, hcalls⟩)
    · exact not_sound_of_not_printable hcall _

theorem startsWithCall_iff {bs : List Block} (h : AllPrintable bs) (unrollToff : Bool) :
    (∃ ts ps, bs.flatMap (Block.pieces unrollToff) = .stmt ts :: ps) ↔ StartsWithCall bs := by
  induction bs with
  | nil => simp [StartsWithCall]
  | cons b bs ih =>
    obtain ⟨hb, hbs⟩ := List.forall_mem_cons.mp h
    rw [List.flatMap_cons, Block.pieces, StartsWithCall]
    cases hcalls : b.calls with
    | nil =>
      cases b.cond with
      | none => simpa using ih hbs
      | some cv => simp
    | cons call calls =>
      have hcall : call.Printable := hb call (hcalls ▸ List.mem_cons_self)
      obtain ⟨ts, ps, hps⟩ := hcall.exists_pieces unrollToff
      simp [hps]

/-- **The blocks are sound when every call is printable and every condition guards one.** -/
theorem sound_blocks {bs : List Block} (h : AllPrintable bs) (unrollToff : Bool) :
    Piece.Sound (bs.flatMap (Block.pieces unrollToff)) ↔ Guarded bs := by
  induction bs with
  | nil => exact Iff.rfl
  | cons b bs ih =>
    obtain ⟨hb, hbs⟩ := List.forall_mem_cons.mp h
    rw [List.flatMap_cons, Block.pieces, List.append_assoc, sound_calls hb, Guarded, ← ih hbs]
    cases b.cond with
    | none => simp
    | some cv =>
      rw [List.singleton_append, sound_cond, startsWithCall_iff hbs]
      simp

theorem not_sound_blocks {bs : List Block} (h : ¬ AllPrintable bs) :
    ¬ Piece.Sound (bs.flatMap (Block.pieces true)) := by
  induction bs with
  | nil => exact absurd (List.forall_mem_nil _) h
  | cons b bs ih =>
    rw [List.flatMap_cons, Block.pieces, List.append_assoc]
    by_cases hb : ∀ call ∈ b.calls, call.Printable
    · have hbs := ih fun hbs ↦ h (List.forall_mem_cons.mpr ⟨hb, hbs⟩)
      rw [sound_calls hb]
      cases b.cond with
      | none => exact hbs
      | some cv => exact fun hs ↦ hbs (sound_cond.mp hs).2
    · exact not_sound_calls hb _

/-! ## The declarations -/

def declared (ds : List (Word × Word)) : List Piece :=
  ds.map fun d ↦ .stmt [.word d.1, .word d.2]

def Declares (t : List Char) : Prop :=
  ∃ ds : List (Word × Word), (∀ d ∈ ds, d.1 ∈ declarations) ∧ Lexes t (declared ds)

namespace Declares

theorem nil : Declares [] := ⟨[], List.forall_mem_nil _, .nil⟩

theorem append {t t' : List Char} (h : Declares t) (h' : Declares t') : Declares (t ++ t') := by
  obtain ⟨ds, hds, hl⟩ := h
  obtain ⟨ds', hds', hl'⟩ := h'
  refine ⟨ds ++ ds', List.forall_mem_append.mpr ⟨hds, hds'⟩, ?_⟩
  rw [declared, List.map_append]
  exact hl.append hl'

theorem flatMap {α : Type*} {l : List α} {f : α → List Char} (h : ∀ a ∈ l, Declares (f a)) :
    Declares (l.flatMap f) := by
  induction l with
  | nil => exact nil
  | cons a l ih =>
    obtain ⟨ha, hl⟩ := List.forall_mem_cons.mp h
    exact ha.append (ih hl)

end Declares

theorem declares_word {keyword : String} {k : Word} (hk : k ∈ declarations)
    (hkw : ∀ r, lex (keyword.toList ++ r) = .word k :: lex r) {w : Word} (hw : IsWord w) :
    Declares (keyword.toList ++ (w ++ ";\n".toList)) := by
  refine ⟨[(k, w)], List.forall_mem_singleton.mpr hk, fun r ↦ ?_⟩
  rw [List.append_assoc, hkw, List.append_assoc, hw.lex_append rfl]
  rfl

theorem isWord_declared (name : RegName) (count : List ℤ) (size : ℕ) :
    IsWord (replaceDots name.val ++ ((count.flatMap fun i ↦ 'x' :: Text.showInt i) ++
      '[' :: (Text.showInt size ++ [']']))) :=
  (isWord_replaceDots name.isWord).append_left fun _ ↦ plain_index

theorem declares_qreg (name : RegName) (count : List ℤ) (size : ℕ) :
    Declares (declaration "qreg " name.val count size) :=
  declares_word (k := "qreg".toList) (by decide) (fun _ ↦ rfl) (isWord_declared name count size)

theorem declares_creg (name : RegName) (count : List ℤ) (size : ℕ) :
    Declares (declaration "creg " name.val count size) :=
  declares_word (k := "creg".toList) (by decide) (fun _ ↦ rfl) (isWord_declared name count size)

theorem declares_genQregs (r : Register) (n : ℕ) (s : List ℤ × ℤ) : Declares (genQregs r n s) := by
  induction n generalizing s with
  | zero => exact .nil
  | succ n ih =>
    obtain ⟨count, j⟩ := s
    rw [genQregs]
    split_ifs
    · exact (declares_qreg r.name _ _).append (ih _)
    · exact (declares_qreg r.name _ _).append (ih _)

theorem declares_genCregs (r : Register) (n : ℕ) (s : List ℤ × ℤ) : Declares (genCregs r n s) := by
  induction n generalizing s with
  | zero => exact .nil
  | succ n ih => exact (declares_creg r.name _ _).append (ih _)

theorem declares_genReg (r : Register) : Declares (genReg r) := by
  rw [genReg]
  split_ifs
  · exact declares_genQregs r _ _
  · exact declares_creg r.name _ _
  · exact declares_genCregs r _ _

theorem declares_header (P : Program) :
    Declares ("OPENQASM 2.0;\n".toList ++ ("include \"qelib1.inc\";\n".toList ++
      P.registers.flatMap genReg)) := by
  have hversion : Declares "OPENQASM 2.0;\n".toList :=
    ⟨[("OPENQASM".toList, "2.0".toList)], by decide, fun _ ↦ rfl⟩
  have hinclude : Declares "include \"qelib1.inc\";\n".toList :=
    ⟨[("include".toList, "\"qelib1.inc\"".toList)], by decide, fun _ ↦ rfl⟩
  exact hversion.append (hinclude.append (.flatMap fun r _ ↦ declares_genReg r))

theorem readFrom_declared {ds : List (Word × Word)} (hds : ∀ d ∈ ds, d.1 ∈ declarations)
    (ts : List Token) :
    readFrom [] (tokensOf (declared ds) ++ ts)
      = (readFrom [] ts).map (ds.map (fun d ↦ .declare d.1 d.2) ++ ·) := by
  induction ds with
  | nil => exact Option.map_id'.symm
  | cons d ds ih =>
    obtain ⟨hd, htail⟩ := List.forall_mem_cons.mp hds
    have hif : d.1 ≠ "if".toList := by
      rintro h
      rw [h] at hd
      exact absurd hd (by decide)
    have hread : readStatement [.word d.1, .word d.2] = some (.declare d.1 d.2) := by
      unfold readStatement
      dsimp only
      rw [if_neg hif, if_pos hd]
    have hcons : tokensOf (declared (d :: ds)) ++ ts
        = [.word d.1, .word d.2] ++ .semicolon :: (tokensOf (declared ds) ++ ts) := rfl
    rw [hcons, readFrom_stmt (by simp), List.nil_append, hread, ih htail, Option.bind_some,
      Option.map_map]
    rfl

/-! ## The two modes -/

theorem isPlain_blocks (unrollToff : Bool) (bs : List Block) :
    ∀ p ∈ bs.flatMap (Block.pieces unrollToff), p.IsPlain := by
  intro p hp
  obtain ⟨b, -, hp⟩ := List.mem_flatMap.mp hp
  rcases List.mem_append.mp hp with hp | hp
  · obtain ⟨call, -, hp⟩ := List.mem_flatMap.mp hp
    exact call.isPlain_pieces unrollToff p hp
  · cases hc : b.cond with
    | none =>
      rw [hc] at hp
      exact absurd hp List.not_mem_nil
    | some cv =>
      rw [hc] at hp
      obtain rfl := List.mem_singleton.mp hp
      trivial

theorem read_runOnModule (P : Program) :
    ∃ ds : List (Word × Word), ∀ unrollToff, read (runOnModule unrollToff P)
      = (readFrom [] (tokensOf (P.blocks.flatMap (Block.pieces unrollToff)))).map
        (ds.map (fun d ↦ .declare d.1 d.2) ++ ·) := by
  obtain ⟨ds, hds, hl⟩ := declares_header P
  refine ⟨ds, fun unrollToff ↦ ?_⟩
  have hblocks : Lexes (P.blocks.flatMap (genQASM_block unrollToff))
      (P.blocks.flatMap (Block.pieces unrollToff)) :=
    .flatMap fun b _ ↦ lexes_genQASM_block unrollToff b
  have hprogram : Lexes (runOnModule unrollToff P)
      (declared ds ++ P.blocks.flatMap (Block.pieces unrollToff)) := by
    have h := hl.append hblocks
    rw [List.append_assoc, List.append_assoc] at h
    exact h
  have h := hprogram []
  rw [List.append_nil, tokensOf_append, List.append_assoc] at h
  rw [read, h, readFrom_declared hds]
  exact congrArg (fun ts ↦ (readFrom [] ts).map _) (List.append_nil _)

theorem pieces_eq {bs : List Block} (h : AllPrintable bs) :
    bs.flatMap (Block.pieces true) = bs.flatMap (Block.pieces false) := by
  refine List.flatMap_congr fun b hb ↦ congrArg (· ++ _) (List.flatMap_congr fun call hcall ↦ ?_)
  have hprint := h b hb call hcall
  obtain ⟨g, rtn⟩ := call
  cases g with
  | Fredkin c a b => exact absurd rfl (hprint.not_fredkin c a b)
  | _ => rfl

/-- Each statement of a program that can be read is a statement of one of its pieces. -/
theorem isSome_outcomes {ps : List Piece} (hps : ∀ p ∈ ps, p.IsPlain)
    (hm : ∀ ts, .stmt ts ∈ ps → Meaningful ts) {ss : List Statement}
    (h : readFrom [] (tokensOf ps) = some ss) (R : Reading) : (denote R ss).isSome := by
  have hcons : ∀ {ts : List Token} {o : Qop} {s : Statement} {ss : List Statement},
      Meaningful ts → readQop ts = some o → ((o.outcomes R).isSome → (s.outcomes R).isSome) →
      (denote R ss).isSome → (denote R (s :: ss)).isSome := by
    rintro ts o s ss ⟨o', ho', hsome⟩ ho hs hss
    obtain rfl := Option.some_injective _ (ho.symm.trans ho')
    obtain ⟨f, hf⟩ := Option.isSome_iff_exists.mp (hs (hsome R))
    obtain ⟨g, hg⟩ := Option.isSome_iff_exists.mp hss
    rw [denote, hf, hg]
    rfl
  induction ps using Piece.Sound.induct generalizing ss with
  | case1 =>
    obtain rfl := Option.some_injective _ h
    rfl
  | case2 ts ps ih =>
    obtain ⟨hts, hrest⟩ := List.forall_mem_cons.mp hps
    rw [readFrom_stmt_cons hts] at h
    obtain ⟨o, ho, h⟩ := Option.bind_eq_some_iff.mp h
    obtain ⟨ss, hss, rfl⟩ := Option.map_eq_some_iff.mp h
    exact hcons (hm ts List.mem_cons_self) ho id
      (ih hrest (fun ts' h' ↦ hm ts' (List.mem_cons_of_mem _ h')) hss)
  | case3 c v ts ps ih =>
    obtain ⟨-, hts, hrest⟩ := (List.forall_mem_cons.mp hps).imp_right List.forall_mem_cons.mp
    rw [readFrom_cond_cons c v hts] at h
    obtain ⟨o, ho, h⟩ := Option.bind_eq_some_iff.mp h
    obtain ⟨ss, hss, rfl⟩ := Option.map_eq_some_iff.mp h
    refine hcons (hm ts (List.mem_cons_of_mem _ List.mem_cons_self)) ho
      (fun h ↦ (Option.isSome_map ..).trans h) (ih hrest (fun ts' h' ↦ ?_) hss)
    exact hm ts' (List.mem_cons_of_mem _ (List.mem_cons_of_mem _ h'))
  | case4 p ps hne hne' =>
    rw [readFrom_of_open (List.forall_mem_cons.mp hps).2 hne fun c v ts ps' ↦ hne' c v ts ps'] at h
    exact absurd h.symm (Option.some_ne_none _)

theorem isSome_denote_declare (R : Reading) (ds : List (Word × Word)) (ss : List Statement) :
    (denote R (ds.map (fun d ↦ .declare d.1 d.2) ++ ss)).isSome = (denote R ss).isSome := by
  induction ds with
  | nil => rfl
  | cons d ds ih =>
    rw [List.map_cons, List.cons_append, denote, Statement.outcomes, Option.bind_some,
      Option.isSome_map, ih]

theorem meaningful_blocks {bs : List Block} (h : AllPrintable bs) {unrollToff : Bool}
    {ts : List Token} (hts : .stmt ts ∈ bs.flatMap (Block.pieces unrollToff)) : Meaningful ts := by
  obtain ⟨b, hb, hts⟩ := List.mem_flatMap.mp hts
  rcases List.mem_append.mp hts with hts | hts
  · obtain ⟨call, hcall, hts⟩ := List.mem_flatMap.mp hts
    obtain ⟨ts', heq, hm⟩ := (h b hb call hcall).meaningful _ hts
    obtain rfl := Piece.stmt.inj heq
    exact hm
  · cases hc : b.cond <;> rw [hc] at hts <;> simp at hts

/-- The two texts of a program agree: both can be read, and they denote the same operation. -/
def ModesAgree (P : Program) : Prop :=
  ∃ ss ss', read (runOnModule true P) = some ss ∧ read (runOnModule false P) = some ss' ∧
    ∀ R, ∃ f, denote R ss = some f ∧ denote R ss' = some f

/-- **The two modes agree exactly on complete programs without a Fredkin gate.** -/
theorem modesAgree_iff (P : Program) :
    ModesAgree P ↔ AllPrintable P.blocks ∧ Guarded P.blocks := by
  obtain ⟨ds, hread⟩ := read_runOnModule P
  constructor
  · rintro ⟨ss, -, hss, -, -⟩
    rw [hread] at hss
    obtain ⟨ss', hss', -⟩ := Option.map_eq_some_iff.mp hss
    have hsound := (isSome_readFrom_iff (isPlain_blocks true P.blocks)).mp
      (Option.isSome_iff_exists.mpr ⟨ss', hss'⟩)
    have hall : AllPrintable P.blocks := not_not.mp fun h ↦ not_sound_blocks h hsound
    exact ⟨hall, (sound_blocks hall true).mp hsound⟩
  · rintro ⟨hall, hguard⟩
    have hsound := (sound_blocks hall true).mpr hguard
    obtain ⟨ss, hss⟩ := Option.isSome_iff_exists.mp
      ((isSome_readFrom_iff (isPlain_blocks true P.blocks)).mpr hsound)
    have htrue := (hread true).trans (congrArg _ hss)
    have hfalse := (hread false).trans ((pieces_eq hall) ▸ congrArg _ hss)
    refine ⟨_, _, htrue, hfalse, fun R ↦ ?_⟩
    have hsome : (denote R (ds.map (fun d ↦ .declare d.1 d.2) ++ ss)).isSome := by
      rw [isSome_denote_declare]
      exact isSome_outcomes (isPlain_blocks true P.blocks) (fun ts ↦ meaningful_blocks hall) hss R
    obtain ⟨f, hf⟩ := Option.isSome_iff_exists.mp hsome
    exact ⟨f, hf, hf⟩

def regQ : RegName := ⟨['q'], List.cons_ne_nil _ _, List.forall_mem_singleton.mpr (.inl rfl)⟩

/-- The qubit `q[i]`. -/
def qubit (i : ℤ) : DataRepresentation := ⟨regQ, .qbit, false, [i]⟩

/-- A `main` with one Fredkin gate on the three qubits of a register. -/
def fredkinMain : Program where
  registers := [⟨regQ, true, false, [], 3, by decide⟩]
  blocks := [⟨[⟨.Fredkin (qubit 0) (qubit 1) (qubit 2), none⟩], none⟩]

/-- The text with the Toffoli gate unrolled cannot be read. -/
theorem not_modesAgree_fredkinMain : ¬ ModesAgree fredkinMain := by
  have hnone : read (runOnModule true fredkinMain) = none := by decide +kernel
  rintro ⟨ss, -, hss, -⟩
  exact absurd (hnone.symm.trans hss).symm (Option.some_ne_none ss)

end ScaffCC.OpenQasm
