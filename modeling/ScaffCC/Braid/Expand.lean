import Mathlib.Algebra.Group.Nat.Defs
import Mathlib.Data.List.Basic
import Mathlib.Data.List.Range
import Mathlib.Tactic.Common
import ScaffCC.Braid.Mesh

/-!
# Expanding the gates that use magic states

The braid simulator reads the gates of a module, moves their qubits to the mesh with the factories,
and replaces each `S` and `T` by a gadget that interacts with the closest magic state. The gadgets
are collected and put behind all other gates, and then the replaced gates are taken out.

So the list that is simulated has on each qubit the gates that stay first and the gates of gadgets
after them. It is the list with the gadgets in place exactly when no gate that stays comes after a
gadget on a common qubit.
-/

namespace ScaffCC.Braid

/-! ## Gates -/

/-- The gates that are read, with their qubits. -/
inductive Op
  | CNOT (src dest : ℕ)
  | H (q : ℕ)
  | T (q : ℕ)
  | Tdag (q : ℕ)
  | S (q : ℕ)
  | Sdag (q : ℕ)
  deriving DecidableEq, Repr

/-- A gate with its sequence number. -/
structure Gate where
  seq : ℕ
  op : Op
  deriving DecidableEq, Repr

/-- The qubits of an operation. -/
def Op.qid : Op → List ℕ
  | .CNOT src dest => [src, dest]
  | .H q | .T q | .Tdag q | .S q | .Sdag q => [q]

/-- The operation on other qubits. -/
def Op.map (f : ℕ → ℕ) : Op → Op
  | .CNOT src dest => .CNOT (f src) (f dest)
  | .H q => .H (f q)
  | .T q => .T (f q)
  | .Tdag q => .Tdag (f q)
  | .S q => .S (f q)
  | .Sdag q => .Sdag (f q)

def Gate.qid (g : Gate) : List ℕ := g.op.qid

/-- Whether a gate is replaced by a gadget. -/
def Gate.isMagic (g : Gate) : Bool :=
  match g.op with
  | .S _ | .Sdag _ | .T _ | .Tdag _ => true
  | _ => false

/-- The gates of a module. They are numbered from 1 as they are read. -/
structure ModuleGates where
  gates : List Gate
  seq_eq : gates.map Gate.seq = List.range' 1 gates.length

/-! ## The mesh -/

/-- The loop that goes on to the cell of a data qubit, with the number of cells it may look at. The
result has the cell and the number of data qubits before it. -/
def dataCell (blocks : List ℕ) (arg : ℕ) : ℕ → ℕ → ℕ → ℕ × ℕ
  | 0, new_arg, data_counter => (new_arg, data_counter)
  | cells + 1, new_arg, data_counter =>
    if data_counter = arg then (new_arg, data_counter)
    else if new_arg ∈ blocks then dataCell blocks arg cells (new_arg + 1) data_counter
    else dataCell blocks arg cells (new_arg + 1) (data_counter + 1)

private theorem countP_succ_lt {n : ℕ} {l : List ℕ} (h : n ∈ l) :
    l.countP (fun b ↦ n + 1 ≤ b) < l.countP (fun b ↦ n ≤ b) := by
  have hle : ∀ l : List ℕ, l.countP (fun b ↦ n + 1 ≤ b) ≤ l.countP (fun b ↦ n ≤ b) := by
    refine fun l ↦ List.countP_mono_left fun b _ hb ↦ ?_
    rw [decide_eq_true_eq] at hb ⊢
    omega
  induction l with
  | nil => cases h
  | cons b l ih =>
    have hb := hle l
    rw [List.countP_cons, List.countP_cons]
    rcases List.mem_cons.mp h with rfl | h
    · simp only [decide_eq_true_eq]
      split_ifs <;> omega
    · have hlt := ih h
      simp only [decide_eq_true_eq]
      split_ifs <;> omega

/-- The loop ends: no more cells are looked at than there are data qubits to pass and cells of
factories. -/
theorem dataCell_snd (blocks : List ℕ) (arg cells new_arg data_counter : ℕ)
    (hle : data_counter ≤ arg)
    (hcells : arg - data_counter + blocks.countP (fun b ↦ new_arg ≤ b) ≤ cells) :
    (dataCell blocks arg cells new_arg data_counter).2 = arg := by
  induction cells generalizing new_arg data_counter with
  | zero =>
    rw [dataCell]
    omega
  | succ cells ih =>
    rw [dataCell]
    split_ifs with hdc hblock
    · exact hdc
    · have hlt := countP_succ_lt hblock
      exact ih _ _ hle (by omega)
    · have hle' : blocks.countP (fun b ↦ new_arg + 1 ≤ b)
          ≤ blocks.countP (fun b ↦ new_arg ≤ b) := by
        refine List.countP_mono_left fun b _ hb ↦ ?_
        rw [decide_eq_true_eq] at hb ⊢
        omega
      exact ih _ _ (by omega) (by omega)

/-- The cell of a qubit on the mesh with the factories. -/
def newArg (L : Layout) (arg : ℕ) : ℕ :=
  (dataCell L.factory_block_set arg (arg + L.factory_block_set.length) 0 0).1

/-- The distance of two cells. -/
def manhattan_cost (L : Layout) (src dest : ℕ) : ℕ :=
  let row_dist := max (src / L.num_cols) (dest / L.num_cols) -
    min (src / L.num_cols) (dest / L.num_cols)
  let col_dist := max (src % L.num_cols) (dest % L.num_cols) -
    min (src % L.num_cols) (dest % L.num_cols)
  row_dist + col_dist

/-- The first of the closest magic states, and the cell 0 if there are none. -/
def find_closest_magic (L : Layout) (data_qid : ℕ) (magic_qids : List ℕ) : ℕ :=
  (magic_qids.foldl (fun (best : ℕ × ℕ) m ↦
    let d := manhattan_cost L data_qid m
    if d < best.1 then (d, m) else best) (2 ^ 32 - 1, 0)).2

/-! ## The expansion -/

/-- The gadget of a gate on the mesh. Its gates get the numbers after `seq`. -/
def gadget (L : Layout) (seq : ℕ) (g : Gate) : List Gate :=
  match g.op with
  | .S q | .Sdag q =>
    let closest_Y := find_closest_magic L q L.Y_state_ids
    [⟨seq + 1, .CNOT q closest_Y⟩, ⟨seq + 2, .H closest_Y⟩, ⟨seq + 3, .CNOT q closest_Y⟩,
      ⟨seq + 4, .H closest_Y⟩]
  | .T q | .Tdag q =>
    let closest_A := find_closest_magic L q L.A_state_ids
    [⟨seq + 1, .CNOT closest_A q⟩, ⟨seq + 2, .CNOT q closest_A⟩, ⟨seq + 3, .CNOT closest_A q⟩,
      ⟨seq + 4, .CNOT q closest_A⟩]
  | _ => []

/-- A gate moved to the mesh. -/
def remap (L : Layout) (g : Gate) : Gate := ⟨g.seq, g.op.map (newArg L)⟩

/-- The loop over the gates: each is moved to the mesh, and its gadget is collected. -/
def collect (L : Layout) : ℕ → List Gate → List Gate × List Gate
  | _, [] => ([], [])
  | seq, g :: gs =>
    let g := remap L g
    let to_push := gadget L seq g
    let (module_gates, to_push_gates) := collect L (seq + to_push.length) gs
    (g :: module_gates, to_push ++ to_push_gates)

/-- The list that is simulated: the gadgets are added at the end, and what they replace is taken
out. -/
def expand (L : Layout) (M : ModuleGates) : List Gate :=
  let (module_gates, to_push_gates) := collect L M.gates.length M.gates
  (module_gates ++ to_push_gates).filter fun g ↦ !g.isMagic

/-- The list with each gadget in the place of the gate it replaces. -/
def inPlace (L : Layout) : ℕ → List Gate → List Gate
  | _, [] => []
  | seq, g :: gs =>
    let g := remap L g
    let to_push := gadget L seq g
    (if g.isMagic then to_push else [g]) ++ inPlace L (seq + to_push.length) gs

/-- The gates that use a qubit, in order. -/
def onQubit (q : ℕ) (gs : List Gate) : List Gate := gs.filter fun g ↦ q ∈ g.qid

/-! ## Stable partitions -/

/-- Taking the elements with a property to the front changes nothing exactly when none of them comes
after one without it. -/
theorem filter_append_filter_not_eq_iff {α : Type*} (p : α → Bool) (l : List α) :
    l.filter p ++ l.filter (fun a ↦ !p a) = l ↔ l.Pairwise fun a b ↦ p b → p a := by
  induction l with
  | nil => simp
  | cons a l ih =>
    rw [List.pairwise_cons]
    cases ha : p a with
    | true =>
      rw [List.filter_cons_of_pos ha, List.filter_cons_of_neg (by simp [ha]), List.cons_append,
        List.cons.injEq, eq_self, true_and, ih]
      exact ⟨fun h ↦ ⟨fun _ _ _ ↦ rfl, h⟩, And.right⟩
    | false =>
      rw [List.filter_cons_of_neg (by simp [ha]), List.filter_cons_of_pos (by simp [ha])]
      -- the first element has to stay in front, so nothing may be moved before it
      cases hl : l.filter p with
      | nil =>
        have hnone : ∀ b ∈ l, p b → false = true := by
          intro b hb hpb
          exact absurd hpb (List.filter_eq_nil_iff.mp hl b hb)
        have hall : l.filter (fun a ↦ !p a) = l := by
          refine List.filter_eq_self.mpr fun b hb ↦ ?_
          rw [Bool.not_eq_true', Bool.eq_false_iff]
          exact List.filter_eq_nil_iff.mp hl b hb
        have hpair : l.Pairwise fun a b ↦ p b → p a :=
          List.pairwise_of_forall_mem_list fun a _ b hb hpb ↦ absurd (hnone b hb hpb) (by decide)
        rw [List.nil_append, hall]
        exact iff_of_true rfl ⟨hnone, hpair⟩
      | cons b m =>
        have hb := List.mem_filter.mp (hl ▸ List.mem_cons_self : b ∈ l.filter p)
        refine iff_of_false (fun h ↦ ?_) fun h ↦ absurd (h.1 b hb.1 hb.2) (by decide)
        rw [List.cons_append, List.cons.injEq] at h
        rw [h.1, ha] at hb
        exact absurd hb.2 (by decide)

/-! ## Gadgets out of place -/

variable {L : Layout} {n seq q : ℕ} {g : Gate} {gs : List Gate}

def gadgetCells (L : Layout) (g : Gate) : List ℕ := (gadget L 0 g).flatMap Gate.qid

theorem isMagic_remap : (remap L g).isMagic = g.isMagic := by
  rcases g with ⟨_, _ | _⟩ <;> rfl

theorem gadget_eq_nil (h : g.isMagic = false) : gadget L seq g = [] := by
  rcases g with ⟨_, _ | _⟩ <;> first | rfl | cases h

theorem seq_lt_of_mem_gadget {h : Gate} (hh : h ∈ gadget L seq g) : seq < h.seq := by
  rcases g with ⟨_, _ | _⟩ <;>
    simp only [gadget, List.not_mem_nil, List.mem_cons, or_false] at hh <;>
    rcases hh with rfl | rfl | rfl | rfl <;> simp

theorem isMagic_of_mem_gadget {h : Gate} (hh : h ∈ gadget L seq g) : h.isMagic = false := by
  rcases g with ⟨_, _ | _⟩ <;>
    simp only [gadget, List.not_mem_nil, List.mem_cons, or_false] at hh <;>
    rcases hh with rfl | rfl | rfl | rfl <;> rfl

theorem mem_gadgetCells : q ∈ gadgetCells L g ↔ ∃ h ∈ gadget L seq g, q ∈ h.qid := by
  rw [gadgetCells, List.mem_flatMap]
  rcases g with ⟨_, _ | _⟩ <;> simp [gadget, Gate.qid]

/-- Of the list in place, the gates that are read are those that stay, and the others those that are
put behind. -/
theorem collect_eq (hn : ∀ g ∈ gs, g.seq ≤ n) (hseq : n ≤ seq) :
    (collect L seq gs).1.filter (fun g ↦ !g.isMagic) =
        (inPlace L seq gs).filter (fun g ↦ decide (g.seq ≤ n)) ∧
      (collect L seq gs).2 = (inPlace L seq gs).filter (fun g ↦ !decide (g.seq ≤ n)) ∧
      (collect L seq gs).2.filter (fun g ↦ !g.isMagic) = (collect L seq gs).2 := by
  induction gs generalizing seq with
  | nil => exact ⟨rfl, rfl, rfl⟩
  | cons g gs ih =>
    obtain ⟨hg, hgs⟩ := List.forall_mem_cons.mp hn
    have hlt : ∀ h ∈ gadget L seq (remap L g), ¬ h.seq ≤ n := fun h hh ↦
      not_le.mpr (hseq.trans_lt (seq_lt_of_mem_gadget hh))
    obtain ⟨hstay, hpush, hplain⟩ :=
      ih hgs (hseq.trans (Nat.le_add_right seq (gadget L seq (remap L g)).length))
    have hgad : (gadget L seq (remap L g)).filter (fun g ↦ decide (g.seq ≤ n)) = [] :=
      List.filter_eq_nil_iff.mpr fun h hh ↦ by simpa using hlt h hh
    have hgad' : (gadget L seq (remap L g)).filter (fun g ↦ !decide (g.seq ≤ n)) =
        gadget L seq (remap L g) :=
      List.filter_eq_self.mpr fun h hh ↦ by simpa using hlt h hh
    have hgad'' : (gadget L seq (remap L g)).filter (fun g ↦ !g.isMagic) =
        gadget L seq (remap L g) :=
      List.filter_eq_self.mpr fun h hh ↦ by simp [isMagic_of_mem_gadget hh]
    simp only [collect, inPlace, List.filter_append, hgad'']
    refine ⟨?_, ?_, by rw [hplain]⟩
    · cases hmagic : (remap L g).isMagic with
      | true => simp [hmagic, hgad, hstay]
      | false =>
        have hle : (remap L g).seq ≤ n := hg
        simp [hmagic, hle, hstay]
    · cases hmagic : (remap L g).isMagic with
      | true => simp [hgad', hpush]
      | false =>
        have hle : (remap L g).seq ≤ n := hg
        rw [gadget_eq_nil hmagic] at hpush ⊢
        simpa [hle] using hpush

theorem exists_of_mem_inPlace {h : Gate} (hseq : n ≤ seq) (hmem : h ∈ inPlace L seq gs)
    (hh : h.seq ≤ n) : ∃ g ∈ gs, g.isMagic = false ∧ h = remap L g := by
  induction gs generalizing seq with
  | nil => cases hmem
  | cons g gs ih =>
    rw [inPlace] at hmem
    rcases List.mem_append.mp hmem with hmem | hmem
    · split_ifs at hmem with hmagic
      · exact absurd hh (not_le.mpr (hseq.trans_lt (seq_lt_of_mem_gadget hmem)))
      · rw [Bool.not_eq_true, isMagic_remap] at hmagic
        exact ⟨g, List.mem_cons_self, hmagic, List.mem_singleton.mp hmem⟩
    · obtain ⟨g', hg', hrest⟩ := ih (hseq.trans (Nat.le_add_right ..)) hmem
      exact ⟨g', List.mem_cons_of_mem _ hg', hrest⟩

theorem mem_inPlace {g : Gate} (hg : g ∈ gs) (hmagic : g.isMagic = false) :
    remap L g ∈ inPlace L seq gs := by
  induction gs generalizing seq with
  | nil => cases hg
  | cons g' gs ih =>
    rw [inPlace, List.mem_append]
    rcases List.mem_cons.mp hg with rfl | hg
    · rw [isMagic_remap, hmagic]
      exact .inl (List.mem_singleton_self _)
    · exact .inr (ih hg)

/-- No gate that stays comes after a gate whose gadget uses a cell in common. -/
def Undisturbed (L : Layout) (gs : List Gate) : Prop :=
  gs.Pairwise fun g h ↦ g.isMagic → h.isMagic = false →
    ∀ q ∈ (remap L h).qid, q ∉ gadgetCells L (remap L g)

/-- What stands in the place of a gate is before a gate that stays, on no qubit in common unless it
stays itself. -/
theorem forall_block_iff (hg : g.seq ≤ n) (hn : ∀ g ∈ gs, g.seq ≤ n) (hseq : n ≤ seq)
    {seq' : ℕ} (hseq' : n ≤ seq') :
    (∀ q, ∀ a ∈ onQubit q (if (remap L g).isMagic then gadget L seq (remap L g) else [remap L g]),
        ∀ b ∈ onQubit q (inPlace L seq' gs), b.seq ≤ n → a.seq ≤ n) ↔
      ∀ h ∈ gs, g.isMagic → h.isMagic = false → ∀ q ∈ (remap L h).qid,
        q ∉ gadgetCells L (remap L g) := by
  rw [isMagic_remap]
  cases hmagic : g.isMagic with
  | false =>
    refine iff_of_true (fun q a ha b hb _ ↦ ?_) fun h _ hfalse ↦ absurd hfalse (by decide)
    rw [List.mem_singleton.mp (List.mem_filter.mp ha).1]
    exact hg
  | true =>
    have hmem : ∀ q, q ∈ gadgetCells L (remap L g) ↔ ∃ a ∈ gadget L seq (remap L g), q ∈ a.qid :=
      fun _ ↦ mem_gadgetCells
    constructor
    · intro hblock h hh _ hstay q hq hcell
      obtain ⟨a, ha, haq⟩ := (hmem q).mp hcell
      have hle : a.seq ≤ n := by
        refine hblock q a (List.mem_filter.mpr ⟨ha, decide_eq_true haq⟩) (remap L h)
          (List.mem_filter.mpr ⟨mem_inPlace hh hstay, decide_eq_true hq⟩) (hn h hh)
      exact absurd hle (not_le.mpr (hseq.trans_lt (seq_lt_of_mem_gadget ha)))
    · intro hcells q a ha b hb hbn
      obtain ⟨ha, haq⟩ := List.mem_filter.mp ha
      obtain ⟨hb, hbq⟩ := List.mem_filter.mp hb
      obtain ⟨h, hh, hstay, rfl⟩ := exists_of_mem_inPlace hseq' hb hbn
      exact absurd ((hmem q).mpr ⟨a, ha, of_decide_eq_true haq⟩)
        (hcells h hh rfl hstay q (of_decide_eq_true hbq))

/-- In the list in place, no gate that stays comes after a gadget on any qubit. -/
theorem undisturbed_iff (hn : ∀ g ∈ gs, g.seq ≤ n) (hseq : n ≤ seq) :
    (∀ q, (onQubit q (inPlace L seq gs)).Pairwise fun a b ↦ b.seq ≤ n → a.seq ≤ n) ↔
      Undisturbed L gs := by
  induction gs generalizing seq with
  | nil => simp [inPlace, onQubit, Undisturbed]
  | cons g gs ih =>
    obtain ⟨hg, hgs⟩ := List.forall_mem_cons.mp hn
    have hseq' := hseq.trans (Nat.le_add_right seq (gadget L seq (remap L g)).length)
    rw [Undisturbed, List.pairwise_cons, ← Undisturbed, ← ih hgs hseq',
      ← forall_block_iff hg hgs hseq hseq', ← forall_and]
    refine forall_congr' fun q ↦ ?_
    -- within what stands in the place of one gate, either all gates stay or none does
    have hself : (onQubit q (if (remap L g).isMagic then gadget L seq (remap L g)
        else [remap L g])).Pairwise fun a b ↦ b.seq ≤ n → a.seq ≤ n := by
      refine List.Pairwise.filter _ ?_
      split_ifs
      · refine List.pairwise_of_forall_mem_list fun a _ b hb hbn ↦ ?_
        exact absurd hbn (not_le.mpr (hseq.trans_lt (seq_lt_of_mem_gadget hb)))
      · exact List.pairwise_singleton ..
    rw [inPlace, onQubit, List.filter_append, List.pairwise_append]
    exact ⟨fun h ↦ ⟨h.2.2, h.2.1⟩, fun h ↦ ⟨hself, h.2, h.1⟩⟩

/-! ## Order on qubits -/

/-- A data qubit is a cell that a gate of the module uses. -/
def IsData (L : Layout) (M : ModuleGates) (q : ℕ) : Prop := ∃ g ∈ M.gates, q ∈ (remap L g).qid

theorem ModuleGates.seq_le (M : ModuleGates) : ∀ g ∈ M.gates, g.seq ≤ M.gates.length := by
  intro g hg
  have hmem := List.mem_map_of_mem (f := Gate.seq) hg
  rw [M.seq_eq, List.mem_range'_1] at hmem
  omega

/-- **The list that is simulated has the gadgets in place, on every data qubit, exactly when no gate
that stays comes after a gadget that uses a cell in common.** -/
theorem expandsInPlace_iff (L : Layout) (M : ModuleGates) :
    (∀ q, IsData L M q →
        onQubit q (expand L M) = onQubit q (inPlace L M.gates.length M.gates)) ↔
      Undisturbed L M.gates := by
  obtain ⟨hstay, hpush, hplain⟩ := collect_eq (L := L) M.seq_le le_rfl
  rw [← undisturbed_iff M.seq_le le_rfl]
  refine forall_congr' fun q ↦ ?_
  have hexpand : expand L M =
      (inPlace L M.gates.length M.gates).filter (fun g ↦ decide (g.seq ≤ M.gates.length)) ++
        (inPlace L M.gates.length M.gates).filter
          (fun g ↦ !decide (g.seq ≤ M.gates.length)) := by
    rw [expand]
    dsimp only
    rw [List.filter_append, hplain, hstay, hpush]
  have hqubit : onQubit q (expand L M) =
      (onQubit q (inPlace L M.gates.length M.gates)).filter
          (fun g ↦ decide (g.seq ≤ M.gates.length)) ++
        (onQubit q (inPlace L M.gates.length M.gates)).filter
          (fun g ↦ !decide (g.seq ≤ M.gates.length)) := by
    rw [hexpand]
    simp only [onQubit, List.filter_append, List.filter_filter, Bool.and_comm]
  rw [hqubit, filter_append_filter_not_eq_iff]
  simp only [decide_eq_true_eq]
  refine ⟨fun h ↦ ?_, fun h _ ↦ h⟩
  by_cases hq : IsData L M q
  · exact h hq
  · -- on a cell that is no data qubit nothing stays
    refine List.pairwise_of_forall_mem_list fun a _ b hb hbn ↦ ?_
    obtain ⟨hb, hbq⟩ := List.mem_filter.mp hb
    obtain ⟨g, hg, -, rfl⟩ := exists_of_mem_inPlace le_rfl hb hbn
    exact absurd ⟨g, hg, of_decide_eq_true hbq⟩ hq

/-- A gate that is replaced, one after it, and a third qubit. -/
def thenCNOT : ModuleGates := ⟨[⟨1, .T 0⟩, ⟨2, .CNOT 0 1⟩, ⟨3, .H 2⟩], rfl⟩

/-- The mesh of three data qubits. The magic states come out at the fourth cell. -/
def threeCells : Layout := innerLayout ⟨0, 1, 1⟩ ⟨0, 1, 1⟩ 3

theorem not_expandsInPlace_thenCNOT :
    ¬ ∀ q, IsData threeCells thenCNOT q → onQubit q (expand threeCells thenCNOT) =
      onQubit q (inPlace threeCells thenCNOT.gates.length thenCNOT.gates) := by
  intro h
  have hdata : IsData threeCells thenCNOT 0 := ⟨⟨2, .CNOT 0 1⟩, by decide, by decide +kernel⟩
  exact absurd (h 0 hdata) (by decide +kernel)

end ScaffCC.Braid
