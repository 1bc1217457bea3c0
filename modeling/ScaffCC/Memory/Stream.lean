import ScaffCC.Memory.Bytes

/-!
# Reading what was written

A reader takes a value off the front of a stream of bytes. `Reads r bytes a` says that it takes
exactly the given bytes for a value, whatever comes after them; readers in sequence take the bytes
of their parts in sequence.
-/

namespace Memory

abbrev Reader := StateT (List UInt8) Option

variable {α β : Type}

def readBytes (k : ℕ) : Reader (List UInt8) := fun stream ↦
  if k ≤ stream.length then some (stream.take k, stream.drop k) else none

/-- The next number of `k` bytes. -/
def readLe (k : ℕ) : Reader ℕ := fun stream ↦
  (readBytes k stream).map fun (bytes, rest) ↦ (leValue bytes, rest)

/-- The next values, one after the other. -/
def readMany (r : Reader α) : ℕ → Reader (List α)
  | 0 => pure []
  | n + 1 => do
    let a ← r
    let as ← readMany r n
    return a :: as

/-- The reader takes the bytes for the value. -/
def Reads (r : Reader α) (bytes : List UInt8) (a : α) : Prop :=
  ∀ rest, r (bytes ++ rest) = some (a, rest)

namespace Reads

theorem pure (a : α) : Reads (Pure.pure a) [] a := fun _ ↦ rfl

theorem bind_apply {r : Reader α} {bytes : List UInt8} {a : α} (h : Reads r bytes a)
    (f : α → Reader β) (rest : List UInt8) : (r >>= f) (bytes ++ rest) = f a rest := by
  change (r (bytes ++ rest)).bind (fun p ↦ f p.1 p.2) = _
  rw [h rest]
  rfl

theorem bind {r : Reader α} {f : α → Reader β} {bytes bytes' : List UInt8} {a : α} {b : β}
    (h : Reads r bytes a) (h' : Reads (f a) bytes' b) : Reads (r >>= f) (bytes ++ bytes') b := by
  intro rest
  rw [List.append_assoc, h.bind_apply]
  exact h' rest

theorem readBytes (bytes : List UInt8) : Reads (readBytes bytes.length) bytes bytes := by
  intro rest
  rw [Memory.readBytes, if_pos (by rw [List.length_append]; exact Nat.le_add_right _ _),
    List.take_left, List.drop_left]

theorem readLe (k n : ℕ) : Reads (readLe k) (leBytes k n) (n % 256 ^ k) := by
  intro rest
  have hbytes := readBytes (leBytes k n) rest
  rw [length_leBytes] at hbytes
  rw [Memory.readLe, hbytes]
  exact congrArg (fun value ↦ some (value, rest)) (leValue_leBytes k n)

theorem readMany {r : Reader α} {write : α → List UInt8} (as : List α)
    (h : ∀ a ∈ as, Reads r (write a) a) : Reads (readMany r as.length) (as.flatMap write) as := by
  induction as with
  | nil => exact pure []
  | cons a as ih =>
    obtain ⟨ha, has⟩ := List.forall_mem_cons.mp h
    have hrest := (ih has).bind (f := fun as ↦ Pure.pure (a :: as)) (pure (a :: as))
    rw [List.append_nil] at hrest
    exact ha.bind hrest

theorem run {r : Reader α} {bytes : List UInt8} {a : α} (h : Reads r bytes a) :
    r.run' bytes = some a := by
  have hrest := h []
  rw [List.append_nil] at hrest
  change (r bytes).map _ = _
  rw [hrest]
  rfl

end Reads

/-! ## What every value that is read satisfies -/

/-- Each value that the reader returns satisfies the condition. -/
def Yields (r : Reader α) (p : α → Prop) : Prop :=
  ∀ ⦃stream a rest⦄, r stream = some (a, rest) → p a

namespace Yields

theorem pure {p : α → Prop} {a : α} (h : p a) : Yields (Pure.pure a) p := by
  intro stream b rest hread
  obtain ⟨rfl, -⟩ := Prod.mk.inj (Option.some.inj hread)
  exact h

theorem bind {r : Reader α} {f : α → Reader β} {p : α → Prop} {q : β → Prop} (h : Yields r p)
    (h' : ∀ a, p a → Yields (f a) q) : Yields (r >>= f) q := by
  intro stream b rest hread
  obtain ⟨⟨a, stream'⟩, hfirst, hnext⟩ := Option.bind_eq_some_iff.mp hread
  exact h' a (h hfirst) hnext

theorem trivial (r : Reader α) : Yields r fun _ ↦ True := fun _ _ _ _ ↦ True.intro

theorem readMany {r : Reader α} {p : α → Prop} (h : Yields r p) (n : ℕ) :
    Yields (readMany r n) fun as ↦ as.length = n ∧ ∀ a ∈ as, p a := by
  induction n with
  | zero => exact pure ⟨rfl, fun _ ha ↦ absurd ha List.not_mem_nil⟩
  | succ n ih =>
    refine h.bind fun a ha ↦ ih.bind fun as has ↦ pure ⟨congrArg (· + 1) has.1, ?_⟩
    exact List.forall_mem_cons.mpr ⟨ha, has.2⟩

end Yields

end Memory
