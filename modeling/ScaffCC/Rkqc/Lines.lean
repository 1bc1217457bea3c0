import Mathlib.Data.List.Forall2
import Mathlib.Data.List.ReduceOption
import Mathlib.Logic.Function.Basic
import ScaffCC.Text.Numeral
import ScaffCC.Transition.Supply

/-!
# Registers and their lines

The reversible library gives every bit of a register a line of the circuit and a name, and declares
the name in a file. Lines and names come from counters that all constructors share. The constructors
for three kinds of ancillas take a line for the register itself, put it at position 0 and then fill
the positions from 0 on with new bits, all but the last: a register of several bits has no last one.
-/

open Supply

namespace ScaffCC.Rkqc

/-! ## The source -/

abbrev Name := List Char

/-- The kinds of ancillas. -/
inductive Classifier
  | zero_to_garbage
  | zero_to_zero
  | one_to_garbage
  | one_to_one
deriving DecidableEq, Repr

namespace Classifier

/-- What the names of a kind begin with. -/
def input : Classifier → Name
  | zero_to_garbage => ['I', '0', 'g', 'I']
  | zero_to_zero => ['I', '0', '0', 'I']
  | one_to_garbage => ['I', '1', 'g', 'I']
  | one_to_one => ['I', '1', '1', 'I']

/-- The file in which names of a kind are declared. -/
def title : Classifier → Name
  | zero_to_garbage => "ancilla_0g.txt".toList
  | zero_to_zero => "ancilla_00.txt".toList
  | one_to_garbage => "ancilla_1g.txt".toList
  | one_to_one => "ancilla_11.txt".toList

end Classifier

structure Bit where
  id : ℕ
  name : Name
deriving DecidableEq, Repr

/-- The counters of the circuit, and the names that have been declared, each with its file. -/
structure Circuit where
  lines : ℕ
  workers : List Name
  anc : Classifier → List Name
  lines_to_inputs : List (ℕ × Name)
  signals : List (Name × Name)

namespace Circuit

def global_circuit : Circuit := ⟨0, [], fun _ ↦ [], [], []⟩

/-- A number as text. -/
def lexicalCast (n : ℕ) : Name := Nat.toDigits 10 n

def printSignal (circ : Circuit) (title name : Name) : Circuit :=
  { circ with signals := circ.signals ++ [(title, name)] }

def initializeWorker (circ : Circuit) : Bit × Circuit :=
  let name := 'w' :: lexicalCast circ.workers.length
  (⟨circ.lines, name⟩,
    { circ with
      workers := circ.workers ++ [name]
      lines_to_inputs := (circ.lines, name) :: circ.lines_to_inputs
      lines := circ.lines + 1 })

def initializeAncilla (classifier : Classifier) (circ : Circuit) : Bit × Circuit :=
  let input := classifier.input ++ lexicalCast (circ.anc classifier).length
  (⟨circ.lines, input⟩,
    printSignal
      { circ with
        lines_to_inputs := (circ.lines, input) :: circ.lines_to_inputs
        lines := circ.lines + 1
        anc := Function.update circ.anc classifier (circ.anc classifier ++ [input]) }
      classifier.title input)

def qbit (circ : Circuit) : Bit × Circuit :=
  let (bit, circ) := circ.initializeWorker
  (bit, circ.printSignal "workers.txt".toList bit.name)

/-- An element of `qbit(num)`: a worker that gets the name of the register with its index. -/
def qbitElement ( reg_prefix : Name) (i : ℕ) (circ : Circuit) : Bit × Circuit :=
  let (bit, circ) := circ.initializeWorker
  let reg_bit_name := reg_prefix ++ 'I' :: lexicalCast i
  ({ bit with name := reg_bit_name },
    printSignal
      { circ with
        workers := circ.workers.set (circ.workers.length - 1) reg_bit_name
        lines_to_inputs := (bit.id, reg_bit_name) :: circ.lines_to_inputs }
      "workers.txt".toList reg_bit_name)

/-- The elements from index `i` on. -/
def qbitElements ( reg_prefix : Name) : ℕ → ℕ → Circuit → List Bit × Circuit
  | _, 0, circ => ([], circ)
  | i, n + 1, circ =>
    let (bit, circ) := qbitElement reg_prefix i circ
    let (bits, circ) := qbitElements reg_prefix (i + 1) n circ
    (bit :: bits, circ)

/-- `qbit(num)`: element 0, and the others as long as there are less than `num`. -/
def qbits (num : ℕ) (circ : Circuit) : List (Option Bit) × Circuit :=
  let reg_prefix := circ.initializeWorker.1.name
  let (bit, circ) := qbitElement reg_prefix 0 circ
  let (bits, circ) := qbitElements reg_prefix 1 (num - 1) circ
  ((bit :: bits).map some, circ)

def newAncillas (classifier : Classifier) : ℕ → Circuit → List Bit × Circuit
  | 0, circ => ([], circ)
  | n + 1, circ =>
    let (bit, circ) := initializeAncilla classifier circ
    let (bits, circ) := newAncillas classifier n circ
    (bit :: bits, circ)

/-- `zero_to_garbage(num)`: element 0, and the others as long as there are less than `num`. -/
def zeroToGarbage (num : ℕ) (circ : Circuit) : List (Option Bit) × Circuit :=
  let (bit, circ) := initializeAncilla .zero_to_garbage circ
  let (bits, circ) := newAncillas .zero_to_garbage (num - 1) circ
  ((bit :: bits).map some, circ)

/-- `reg[i] = new ...` for the next `n` positions from `i` on. -/
def fill (classifier : Classifier) :
    ℕ → ℕ → List (Option Bit) → Circuit → List (Option Bit) × Circuit
  | _, 0, reg, circ => (reg, circ)
  | i, n + 1, reg, circ =>
    let (bit, circ) := initializeAncilla classifier circ
    fill classifier (i + 1) n (reg.set i (some bit)) circ

/-- The constructors for arrays of the other kinds: an array of null pointers, the register itself
at position 0, and new bits from position 0 on. -/
def ancillas (classifier : Classifier) (num : ℕ) (circ : Circuit) :
    List (Option Bit) × Circuit :=
  let (bit, circ) := initializeAncilla classifier circ
  let reg := (List.replicate num none).set 0 (some bit)
  fill classifier 0 (reg.length - 1) reg circ

end Circuit

/-- A call of a constructor, for one bit or for an array. -/
inductive Construction
  | qbit
  | qbits (num : ℕ) (pos : 1 ≤ num)
  | ancilla (classifier : Classifier)
  | ancillas (classifier : Classifier) (num : ℕ) (pos : 1 ≤ num)

namespace Construction

def size : Construction → ℕ
  | qbit | ancilla _ => 1
  | qbits num _ | ancillas _ num _ => num

/-- The register that a constructor makes. -/
def construct : Construction → Circuit → List (Option Bit) × Circuit
  | qbit, circ =>
    let (bit, circ) := circ.qbit
    ([some bit], circ)
  | qbits num _, circ => circ.qbits num
  | ancilla classifier, circ =>
    let (bit, circ) := circ.initializeAncilla classifier
    ([some bit], circ)
  | ancillas .zero_to_garbage num _, circ => circ.zeroToGarbage num
  | ancillas classifier num _, circ => circ.ancillas classifier num

end Construction

/-- The registers of some constructions, one after the other. -/
def constructAll : List Construction → Circuit → List (List (Option Bit)) × Circuit
  | [], circ => ([], circ)
  | k :: ks, circ =>
    let (reg, circ) := k.construct circ
    let (regs, circ) := constructAll ks circ
    (reg :: regs, circ)

/-- The bits that are there in a register. -/
def entries (reg : List (Option Bit)) : List Bit := reg.reduceOption

/-- The registers are complete, no two bits share a line or a name, and each name is declared
once. -/
structure Constructed (ks : List Construction) (regs : List (List (Option Bit))) (circ : Circuit) :
    Prop where
  complete : List.Forall₂ (fun k reg ↦ reg.length = k.size ∧ ∀ e ∈ reg, e ≠ none) ks regs
  ids : ((regs.flatMap entries).map Bit.id).Nodup
  names : ((regs.flatMap entries).map Bit.name).Nodup
  declared : ∀ bit ∈ regs.flatMap entries, (circ.signals.map Prod.snd).count bit.name = 1

/-- The registers are in order after these constructions. -/
def ConstructsRight (ks : List Construction) : Prop :=
  let (regs, circ) := constructAll ks .global_circuit
  Constructed ks regs circ

/-! ## Names -/

/-- What a name is made of: the number of a worker, with an index in an array, or the number of an
ancilla of a kind. -/
inductive Label
  | worker (k : ℕ) (i : Option ℕ)
  | ancilla (classifier : Classifier) (k : ℕ)

namespace Label

/-- The name. -/
def render : Label → Name
  | worker k none => 'w' :: Circuit.lexicalCast k
  | worker k (some i) => 'w' :: Circuit.lexicalCast k ++ 'I' :: Circuit.lexicalCast i
  | ancilla classifier k => classifier.input ++ Circuit.lexicalCast k

theorem lexicalCast_injective : Function.Injective Circuit.lexicalCast := by
  intro m n h
  rw [← Nat.ofDigitChars_ten_toDigits (n := m), ← Nat.ofDigitChars_ten_toDigits (n := n)]
  exact congrArg (Nat.ofDigitChars 10 · 0) h

theorem notMem_lexicalCast (n : ℕ) : 'I' ∉ Circuit.lexicalCast n := fun h ↦
  absurd (Nat.isDigit_of_mem_toDigits (by decide) le_rfl h) (by decide)

/-- **Names tell their labels.** -/
theorem render_injective : Function.Injective render := by
  have hinput : ∀ {k k' : Classifier} {s s' : Name}, k.input ++ s = k'.input ++ s' →
      k = k' ∧ s = s' := by
    intro k k' s s' h
    obtain ⟨hk, hs⟩ := List.append_inj h (by cases k <;> cases k' <;> rfl)
    exact ⟨by revert hk; cases k <;> cases k' <;> decide, hs⟩
  have hworker : ∀ {k : ℕ} {i : Option ℕ} {c : Classifier} {k' : ℕ},
      render (worker k i) ≠ render (ancilla c k') := by
    intro k i c k' h
    cases i <;> cases c <;> exact absurd (List.cons.inj h).1 (by decide)
  rintro (⟨k, i⟩ | ⟨c, k⟩) (⟨k', i'⟩ | ⟨c', k'⟩) h
  · cases i with
    | none =>
      cases i' with
      | none => rw [lexicalCast_injective (List.cons.inj h).2]
      | some i' =>
        have hmem : 'I' ∈ Circuit.lexicalCast k := by
          rw [(List.cons.inj h).2]
          simp
        exact absurd hmem (notMem_lexicalCast k)
    | some i =>
      cases i' with
      | none =>
        have hmem : 'I' ∈ Circuit.lexicalCast k' := by
          rw [← (List.cons.inj h).2]
          simp
        exact absurd hmem (notMem_lexicalCast k')
      | some i' =>
        obtain ⟨hk, -, hi⟩ := (List.append_cons_inj_of_notMem (notMem_lexicalCast k)
          (notMem_lexicalCast i)).mp (List.cons.inj h).2
        rw [lexicalCast_injective hk, lexicalCast_injective hi]
  · exact absurd h hworker
  · exact absurd h.symm hworker
  · obtain ⟨rfl, hk⟩ := hinput h
    rw [lexicalCast_injective hk]

end Label

/-! ## What a constructor takes from the counters -/

/-- The label is below the counters. -/
def Circuit.Old (circ : Circuit) : Label → Prop
  | .worker k _ => k < circ.workers.length
  | .ancilla classifier k => k < (circ.anc classifier).length

/-- The names that have been declared. -/
def Circuit.declared (circ : Circuit) : List Name := circ.signals.map Prod.snd

/-- Some bits are made: they have new lines and new names, and all the names are declared. -/
structure Made (circ circ' : Circuit) (bits : List Bit) (ls : List Label) : Prop where
  lines : Gives (fun (c : Circuit) (id : ℕ) ↦ id < c.lines) circ circ' (bits.map Bit.id)
  labels : Gives Circuit.Old circ circ' ls
  names : bits.map Bit.name = ls.map Label.render
  declared : circ'.declared = circ.declared ++ bits.map Bit.name

variable {circ circ' circ'' : Circuit} {bits bits' : List Bit} {ls ls' : List Label}

theorem Made.refl (circ : Circuit) : Made circ circ [] [] :=
  ⟨.refl circ, .refl circ, rfl, (List.append_nil _).symm⟩

theorem Made.append (h : Made circ circ' bits ls) (h' : Made circ' circ'' bits' ls') :
    Made circ circ'' (bits ++ bits') (ls ++ ls') := by
  refine ⟨?_, h.labels.append h'.labels, ?_, ?_⟩
  · rw [List.map_append]
    exact h.lines.append h'.lines
  · rw [List.map_append, List.map_append, h.names, h'.names]
  · rw [h'.declared, h.declared, List.map_append, List.append_assoc]

theorem made_singleton {bit : Bit} {l : Label} (hid : bit.id = circ.lines)
    (hname : bit.name = l.render) (hlines : circ'.lines = circ.lines + 1) (hfresh : ¬ circ.Old l)
    (hold : circ'.Old l) (hmono : ∀ l, circ.Old l → circ'.Old l)
    (hdeclared : circ'.declared = circ.declared ++ [bit.name]) : Made circ circ' [bit] [l] where
  lines := by
    refine ⟨List.nodup_singleton _, ?_, ?_, fun id hid' ↦ ?_⟩
    · simp [hid]
    · simp [hid, hlines]
    · rw [hlines]
      exact Nat.lt_succ_of_lt hid'
  labels := ⟨List.nodup_singleton _, by simpa using hfresh, by simpa using hold, hmono⟩
  names := congrArg (fun name ↦ [name]) hname
  declared := hdeclared

theorem made_qbit (circ : Circuit) :
    Made circ circ.qbit.2 [circ.qbit.1] [.worker circ.workers.length none] := by
  have hworkers : circ.qbit.2.workers.length = circ.workers.length + 1 := List.length_append
  refine made_singleton rfl rfl rfl (lt_irrefl _) ?_ (fun l hl ↦ ?_) ?_
  · show circ.workers.length < circ.qbit.2.workers.length
    omega
  · cases l with
    | worker k i =>
      have hlt : k < circ.workers.length := hl
      show k < circ.qbit.2.workers.length
      omega
    | ancilla classifier k => exact hl
  · exact List.map_append

theorem made_initializeAncilla (classifier : Classifier) (circ : Circuit) :
    Made circ (circ.initializeAncilla classifier).2 [(circ.initializeAncilla classifier).1]
      [.ancilla classifier (circ.anc classifier).length] := by
  have hsame : ((circ.initializeAncilla classifier).2.anc classifier).length =
      (circ.anc classifier).length + 1 := by
    show (Function.update circ.anc classifier _ classifier).length = _
    rw [Function.update_self, List.length_append]
    rfl
  refine made_singleton rfl rfl rfl (lt_irrefl _) ?_ (fun l hl ↦ ?_) ?_
  · show (circ.anc classifier).length <
      ((circ.initializeAncilla classifier).2.anc classifier).length
    omega
  · cases l with
    | worker k i => exact hl
    | ancilla classifier' k =>
      have hlt : k < (circ.anc classifier').length := hl
      show k < ((circ.initializeAncilla classifier).2.anc classifier').length
      rcases eq_or_ne classifier' classifier with rfl | hne
      · omega
      · rwa [show (circ.initializeAncilla classifier).2.anc classifier' = circ.anc classifier' from
          Function.update_of_ne hne ..]
  · exact List.map_append

theorem made_newAncillas (classifier : Classifier) (n : ℕ) (circ : Circuit) :
    ∃ ls, Made circ (circ.newAncillas classifier n).2 (circ.newAncillas classifier n).1 ls ∧
      (circ.newAncillas classifier n).1.length = n := by
  induction n generalizing circ with
  | zero => exact ⟨[], .refl circ, rfl⟩
  | succ n ih =>
    obtain ⟨labels, hmade, hlen⟩ := ih (circ.initializeAncilla classifier).2
    exact ⟨_, (made_initializeAncilla classifier circ).append hmade, congrArg Nat.succ hlen⟩

/-- The elements of an array of workers have the number of the first one and their indices. -/
theorem qbitElements_spec ( reg_prefix : Name) (i n : ℕ) (circ : Circuit) :
    (circ.qbitElements reg_prefix i n).1.map Bit.id = List.range' circ.lines n ∧
      (circ.qbitElements reg_prefix i n).2.lines = circ.lines + n ∧
      (circ.qbitElements reg_prefix i n).1.map Bit.name =
        (List.range' i n).map (fun j ↦ reg_prefix ++ 'I' :: Circuit.lexicalCast j) ∧
      (circ.qbitElements reg_prefix i n).2.workers.length = circ.workers.length + n ∧
      (circ.qbitElements reg_prefix i n).2.anc = circ.anc ∧
      (circ.qbitElements reg_prefix i n).2.declared =
        circ.declared ++ (circ.qbitElements reg_prefix i n).1.map Bit.name := by
  induction n generalizing i circ with
  | zero => exact ⟨rfl, rfl, rfl, rfl, rfl, (List.append_nil _).symm⟩
  | succ n ih =>
    obtain ⟨hids, hlines, hnames, hworkers, hanc, hdeclared⟩ :=
      ih (i + 1) (circ.qbitElement reg_prefix i).2
    have hfirst : (circ.qbitElement reg_prefix i).2.workers.length = circ.workers.length + 1 := by
      show (List.set _ _ _).length = _
      rw [List.length_set]
      exact List.length_append
    refine ⟨?_, ?_, ?_, ?_, ?_, ?_⟩
    · exact congrArg (circ.lines :: ·) hids
    · exact hlines.trans (by show circ.lines + 1 + n = _; omega)
    · exact congrArg (( reg_prefix ++ 'I' :: Circuit.lexicalCast i) :: ·) hnames
    · exact hworkers.trans (by rw [hfirst]; omega)
    · exact hanc
    · refine hdeclared.trans ?_
      show (circ.signals ++ [(_, _)]).map Prod.snd ++ _ = _
      rw [List.map_append, List.append_assoc]
      rfl

theorem made_qbits {num : ℕ} (pos : 1 ≤ num) (circ : Circuit) :
    ∃ bits ls, (circ.qbits num).1 = bits.map some ∧ bits.length = num ∧
      Made circ (circ.qbits num).2 bits ls := by
  obtain ⟨n, rfl⟩ : ∃ n, num = n + 1 := ⟨num - 1, by omega⟩
  have hspec := qbitElements_spec circ.initializeWorker.1.name 0 (n + 1) circ
  have hqbits : circ.qbits (n + 1) =
      ((circ.qbitElements circ.initializeWorker.1.name 0 (n + 1)).1.map some,
        (circ.qbitElements circ.initializeWorker.1.name 0 (n + 1)).2) := rfl
  rw [hqbits]
  generalize circ.qbitElements circ.initializeWorker.1.name 0 (n + 1) = made at hspec
  obtain ⟨hids, hlines, hnames, hworkers, hanc, hdeclared⟩ := hspec
  refine ⟨made.1,
    (List.range' 0 (n + 1)).map fun j ↦ .worker circ.workers.length (some j), rfl, ?_, ?_⟩
  · rw [← List.length_map (f := Bit.id), hids, List.length_range']
  refine ⟨?_, ⟨?_, ?_, ?_, fun l hl ↦ ?_⟩, ?_, hdeclared⟩
  · rw [hids]
    refine ⟨List.nodup_range', fun id hid ↦ ?_, fun id hid ↦ ?_, fun id hid ↦ ?_⟩
    · exact Nat.not_lt.mpr (List.mem_range'_1.mp hid).1
    · rw [hlines]
      exact (List.mem_range'_1.mp hid).2
    · rw [hlines]
      exact Nat.lt_add_right _ hid
  · exact (List.nodup_range' (s := 0)).map fun j j' h ↦ Option.some.inj (Label.worker.inj h).2
  · rw [List.forall_mem_map]
    exact fun _ _ ↦ lt_irrefl _
  · rw [List.forall_mem_map]
    intro j _
    show circ.workers.length < _
    rw [hworkers]
    omega
  · cases l with
    | worker k i =>
      have hlt : k < circ.workers.length := hl
      show k < _
      rw [hworkers]
      omega
    | ancilla classifier k =>
      show k < (made.2.anc classifier).length
      rw [hanc]
      exact hl
  · rw [hnames, List.map_map]
    rfl

theorem fill_eq (classifier : Classifier) (i n : ℕ) (reg : List (Option Bit)) (circ : Circuit)
    (h : i + n ≤ reg.length) :
    circ.fill classifier i n reg =
      (reg.take i ++ (circ.newAncillas classifier n).1.map some ++ reg.drop (i + n),
        (circ.newAncillas classifier n).2) := by
  induction n generalizing i reg circ with
  | zero => simp [Circuit.fill, Circuit.newAncillas]
  | succ n ih =>
    have hlen : (reg.take i).length = i := by rw [List.length_take]; omega
    have hset : reg.set i (some (circ.initializeAncilla classifier).1) =
        reg.take i ++ some (circ.initializeAncilla classifier).1 :: reg.drop (i + 1) := by
      rw [List.set_eq_take_append_cons_drop, if_pos (by omega)]
    have htake : (reg.set i (some (circ.initializeAncilla classifier).1)).take (i + 1) =
        reg.take i ++ [some (circ.initializeAncilla classifier).1] := by
      rw [hset, List.take_append, hlen, List.take_of_length_le (by omega), Nat.add_sub_cancel_left]
      rfl
    have hdrop : (reg.set i (some (circ.initializeAncilla classifier).1)).drop (i + 1 + n) =
        reg.drop (i + (n + 1)) := by
      rw [List.drop_set_of_lt (by omega), show i + 1 + n = i + (n + 1) by omega]
    refine (ih (i + 1) (reg.set i (some (circ.initializeAncilla classifier).1))
      (circ.initializeAncilla classifier).2 (by rw [List.length_set]; omega)).trans ?_
    rw [htake, hdrop, List.append_assoc (reg.take i)]
    rfl

/-- **What is left out**: after the new bits, the last position has what it had before, the register
itself if it is position 0 and nothing otherwise. -/
theorem ancillas_eq (classifier : Classifier) (n : ℕ) (circ : Circuit) :
    circ.ancillas classifier (n + 1) =
      ((Circuit.newAncillas classifier n (circ.initializeAncilla classifier).2).1.map some ++
          [if n = 0 then some (circ.initializeAncilla classifier).1 else none],
        (Circuit.newAncillas classifier n (circ.initializeAncilla classifier).2).2) := by
  have hdrop : ((List.replicate (n + 1) none).set 0
      (some (circ.initializeAncilla classifier).1)).drop n =
      [if n = 0 then some (circ.initializeAncilla classifier).1 else none] := by
    cases n with
    | zero => rfl
    | succ n =>
      rw [List.drop_set_of_lt (Nat.succ_pos n), List.drop_replicate, Nat.add_sub_cancel_left,
        if_neg (Nat.succ_ne_zero n)]
      rfl
  have hlen : ((List.replicate (n + 1) none).set 0
      (some (circ.initializeAncilla classifier).1)).length = n + 1 := by
    rw [List.length_set, List.length_replicate]
  have hfill := fill_eq classifier 0 n ((List.replicate (n + 1) none).set 0
    (some (circ.initializeAncilla classifier).1)) (circ.initializeAncilla classifier).2 (by omega)
  rw [List.take_zero, List.nil_append, Nat.zero_add, hdrop] at hfill
  rw [← hfill]
  exact congrArg (fun len ↦ Circuit.fill classifier 0 (len - 1) _ _) hlen

/-! ## Registers -/

theorem entries_append (reg reg' : List (Option Bit)) :
    entries (reg ++ reg') = entries reg ++ entries reg' :=
  List.filterMap_append

theorem entries_map_some (bits : List Bit) : entries (bits.map some) = bits := by
  rw [entries, List.reduceOption, List.filterMap_map]
  exact List.filterMap_some

theorem ne_none_of_mem_map_some (bits : List Bit) : ∀ e ∈ bits.map some, e ≠ none := by
  rw [List.forall_mem_map]
  exact fun bit _ ↦ Option.some_ne_none bit

/-- The array has all of its entries: it is not one of several ancillas of the last three kinds. -/
def Construction.Whole (k : Construction) : Prop :=
  ∀ classifier num pos, k = ancillas classifier num pos → classifier ≠ .zero_to_garbage → num = 1

/-- What one constructor makes: the entries of the register are among the new bits. -/
theorem construct_spec (k : Construction) (circ : Circuit) :
    (k.construct circ).1.length = k.size ∧
      ((∀ e ∈ (k.construct circ).1, e ≠ none) ↔ k.Whole) ∧
      ∃ bits ls, Made circ (k.construct circ).2 bits ls ∧
        (entries (k.construct circ).1).Sublist bits := by
  -- A register whose entries are all the new bits.
  have full : ∀ (bits : List Bit) {ls : List Label}, k.Whole →
      (k.construct circ).1 = bits.map some → bits.length = k.size →
      Made circ (k.construct circ).2 bits ls → (k.construct circ).1.length = k.size ∧
        ((∀ e ∈ (k.construct circ).1, e ≠ none) ↔ k.Whole) ∧
        ∃ bits ls, Made circ (k.construct circ).2 bits ls ∧
          (entries (k.construct circ).1).Sublist bits := by
    intro bits ls hwhole hreg hlen hmade
    refine ⟨by rw [hreg, List.length_map, hlen],
      iff_of_true (hreg ▸ ne_none_of_mem_map_some bits) hwhole, bits, ls, hmade, ?_⟩
    rw [hreg, entries_map_some]
  -- the register of `ancillas` is filled up for `zero_to_garbage` only
  by_cases hk : ∃ classifier num pos, k = .ancillas classifier num pos ∧
      classifier ≠ .zero_to_garbage
  · obtain ⟨classifier, num, pos, rfl, hne⟩ := hk
    obtain ⟨n, rfl⟩ : ∃ n, num = n + 1 := ⟨num - 1, by omega⟩
    have hconstruct : (Construction.ancillas classifier (n + 1) pos).construct circ =
        circ.ancillas classifier (n + 1) := by
      cases classifier with
      | zero_to_garbage => exact absurd rfl hne
      | zero_to_zero | one_to_garbage | one_to_one => rfl
    obtain ⟨ls, hmade, hlen⟩ := made_newAncillas classifier n (circ.initializeAncilla classifier).2
    have hall := (made_initializeAncilla classifier circ).append hmade
    rw [hconstruct, ancillas_eq]
    refine ⟨?_, ⟨fun hnone ↦ ?_, fun hwhole ↦ ?_⟩, _, _, hall, ?_⟩
    · rw [List.length_append, List.length_map, hlen]
      rfl
    · rintro _ _ _ ⟨⟩ -
      by_contra hn
      exact hnone none (List.mem_append_right _ (by simpa using hn)) rfl
    · obtain rfl : n = 0 := Nat.succ.inj (hwhole _ _ _ rfl hne)
      rw [List.eq_nil_of_length_eq_zero hlen]
      exact ne_none_of_mem_map_some [_]
    · rw [entries_append, entries_map_some]
      cases n with
      | zero =>
        rw [List.eq_nil_of_length_eq_zero hlen]
        exact .refl _
      | succ n =>
        rw [if_neg (Nat.succ_ne_zero n)]
        exact (List.append_nil _).symm ▸ List.sublist_cons_self _ _
  have hwhole : k.Whole := fun classifier num pos h hne ↦
    absurd ⟨classifier, num, pos, h, hne⟩ hk
  cases k with
  | qbit => exact full [circ.qbit.1] hwhole rfl rfl (made_qbit circ)
  | qbits num pos =>
    obtain ⟨bits, ls, hreg, hlen, hmade⟩ := made_qbits pos circ
    exact full bits hwhole hreg hlen hmade
  | ancilla classifier =>
    exact full [(circ.initializeAncilla classifier).1] hwhole rfl rfl
      (made_initializeAncilla classifier circ)
  | ancillas classifier num pos =>
    have hzero : classifier = .zero_to_garbage := by
      by_contra hne
      exact hk ⟨classifier, num, pos, rfl, hne⟩
    subst hzero
    obtain ⟨ls, hmade, hlen⟩ := made_newAncillas .zero_to_garbage num circ
    obtain ⟨n, rfl⟩ : ∃ n, num = n + 1 := ⟨num - 1, by omega⟩
    exact full _ hwhole rfl hlen hmade

theorem constructAll_spec (ks : List Construction) (circ : Circuit) :
    (List.Forall₂ (fun k reg ↦ reg.length = k.size ∧ ∀ e ∈ reg, e ≠ none) ks
        (constructAll ks circ).1 ↔ ∀ k ∈ ks, k.Whole) ∧
      ∃ bits ls, Made circ (constructAll ks circ).2 bits ls ∧
        ((constructAll ks circ).1.flatMap entries).Sublist bits := by
  induction ks generalizing circ with
  | nil => exact ⟨by simp [constructAll], [], [], .refl circ, .slnil⟩
  | cons k ks ih =>
    obtain ⟨hlength, hwhole, bits, ls, hmade, hsub⟩ := construct_spec k circ
    obtain ⟨hall, bits', ls', hmade', hsub'⟩ := ih (k.construct circ).2
    refine ⟨?_, bits ++ bits', ls ++ ls', hmade.append hmade', hsub.append hsub'⟩
    rw [List.forall_mem_cons, ← hwhole, ← hall]
    exact List.forall₂_cons.trans (and_congr_left fun _ ↦ and_iff_right hlength)

/-- **Which registers are in order**: all, unless there is an array of more than one ancilla of the
last three kinds. -/
theorem constructsRight_iff (ks : List Construction) :
    ConstructsRight ks ↔ ∀ k ∈ ks, k.Whole := by
  obtain ⟨hwhole, bits, ls, hmade, hsub⟩ := constructAll_spec ks .global_circuit
  have hnames : (bits.map Bit.name).Nodup := by
    rw [hmade.names]
    exact hmade.labels.nodup.map Label.render_injective
  have hdeclared : (constructAll ks .global_circuit).2.signals.map Prod.snd =
      bits.map Bit.name := hmade.declared
  refine ⟨fun h ↦ hwhole.mp h.complete, fun h ↦ ⟨hwhole.mpr h, ?_, ?_, fun bit hbit ↦ ?_⟩⟩
  · exact (hmade.lines.nodup).sublist (hsub.map _)
  · exact hnames.sublist (hsub.map _)
  · rw [hdeclared]
    exact List.count_eq_one_of_mem hnames (List.mem_map_of_mem (hsub.subset hbit))

/-- An array of two ancillas has one. -/
theorem not_constructsRight_zero_to_zero :
    ¬ ConstructsRight [.ancillas .zero_to_zero 2 (by decide)] := by
  intro h
  have hcomplete := h.complete
  rw [List.forall₂_cons] at hcomplete
  exact hcomplete.1.2 none (by decide) rfl

end ScaffCC.Rkqc
