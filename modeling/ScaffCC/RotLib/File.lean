import ScaffCC.Memory.Stream
import ScaffCC.RotLib.Codec

/-!
# Library files

`RotLib::save` writes the fields of a library one after the other and `RotLib::load` reads them in
the same order. The target precision and the storage bound of a library are held by pointers, and
the pointers are what is written: the file has two addresses of the process that wrote it.

`concatenate` is what a library is used for. It reads the precision through the pointer, so it
answers as before only in a process that has the same values at the saved addresses.
-/

namespace ScaffCC.RotLib

open Memory (Reader Reads Yields leBytes readLe readMany)

/-! ## Libraries in a process -/

/-- An integer of the machine. -/
abbrev CInt := BitVec 32

abbrev Addr := BitVec 64

structure Pre where
  base : CInt
  digits : CInt
  epsilon : Float

/-- A storage bound, with a pointer to the name of its unit. -/
structure Sto where
  unit : Addr
  size : CInt

/-- What the memory of a process has at its addresses. -/
structure Process where
  pre : Addr → Option Pre
  sto : Addr → Option Sto
  chars : Addr → Option (List Char)

/-- The unit and the size of a storage bound. -/
def Process.bound (mem : Process) (s : Addr) : Option (List Char × CInt) := do
  let sto ← mem.sto s
  let unit ← mem.chars sto.unit
  return (unit, sto.size)

/-- A sequence of gates, for the angle `c * pi / basis ^ k`. -/
structure Seq where
  l : CInt
  s : CInt
  c : CInt
  k : CInt
  word : List Byte
deriving DecidableEq

/-- A `RotLib`, a library of rotations. -/
structure Library where
  libP : Addr
  libS : Addr
  basis : CInt
  phase : Bool
  seqs : List Seq
deriving DecidableEq

/-! ## Files -/

/-- The first bytes of a file, with the zero at the end. -/
def header : List UInt8 :=
  "Gridsynth Rotation Library".toList.map (fun c ↦ UInt8.ofNat c.toNat) ++ [0]

def writeInt (x : CInt) : List UInt8 := leBytes 4 x.toNat

def writeBool (b : Bool) : List UInt8 := leBytes 1 b.toNat

def writePointer (p : Addr) : List UInt8 := leBytes 8 p.toNat

def readInt : Reader CInt := do
  let n ← readLe 4
  return BitVec.ofNat 32 n

def readBool : Reader Bool := do
  let n ← readLe 1
  return n != 0

def readPointer : Reader Addr := do
  let n ← readLe 8
  return BitVec.ofNat 64 n

def readChar : Reader Byte := do
  let n ← readLe 1
  return BitVec.ofNat 8 n

def saveSeq (si : Seq) : List UInt8 :=
  writeInt si.l ++ (writeInt si.s ++ (writeInt si.c ++ (writeInt si.k ++
    (writeInt (BitVec.ofNat 32 si.word.length) ++ si.word.flatMap fun ci ↦ leBytes 1 ci.toNat))))

/-- The bytes that `RotLib::save` writes. -/
def save (lib : Library) : List UInt8 :=
  header ++ (writeInt lib.basis ++ (writeBool lib.phase ++ (writePointer lib.libP ++
    (writePointer lib.libS ++ (writeInt (BitVec.ofNat 32 lib.seqs.length) ++
      lib.seqs.flatMap saveSeq)))))

def loadSeq : Reader Seq := do
  let ls ← readInt
  let ss ← readInt
  let cs ← readInt
  let ks ← readInt
  let codeBytes ← readInt
  let words ← readMany readChar codeBytes.toInt.toNat
  return ⟨ls, ss, cs, ks, words⟩

/-- What `RotLib::load` makes of a file, nothing for another header. -/
def load : Reader Library := do
  let check ← Memory.readBytes header.length
  if check = header then
    let basis ← readInt
    let phase ← readBool
    let libP ← readPointer
    let libS ← readPointer
    let total ← readInt
    let seqs ← readMany loadSeq total.toInt.toNat
    return ⟨libP, libS, basis, phase, seqs⟩
  else failure

/-! ## Angles -/

/-- A rotation, with the precision that it points to. -/
structure Rz where
  length : ℤ
  gates : List Char
  theta : List Char
  p : Option Pre

/-- The loop of `range_zero_two` for negative angles. -/
def addTwos : ℕ → Float → Option Float
  | 0, _ => none
  | fuel + 1, radian => if radian < 0 then addTwos fuel (radian + 2) else some radian

/-- The loop of `range_zero_two` for large angles. -/
def subTwos : ℕ → Float → Option Float
  | 0, _ => none
  | fuel + 1, radian => if 2 ≤ radian then subTwos fuel (radian - 2) else some radian

def rangeZeroTwo (fuel : ℕ) (radian : Float) : Option Float := do
  let radian ← addTwos fuel radian
  subTwos fuel radian

def epsilonClose (a b epsilon : Float) : Bool :=
  let big := if b < a then a else b
  let small := if a ≤ b then a else b
  big - small < epsilon

/-- How often `bj` fits into an angle, and what is left of it. -/
def takeDigit (bj : Float) : ℕ → Float → ℕ → Option (ℕ × Float)
  | 0, _, _ => none
  | fuel + 1, radian, c =>
    if 0 ≤ radian - bj then takeDigit bj fuel (radian - bj) (c + 1) else some (c, radian)

/-- The digits of an angle, zeros from the place on where it is close to zero. -/
def takeDigits (fuel : ℕ) (basis epsilon : Float) : ℕ → Float → Float → Option (List ℕ)
  | 0, _, _ => some []
  | places + 1, radian, bj =>
    if epsilonClose radian 0 epsilon then some (List.replicate (places + 1) 0)
    else do
      let (c, radian) ← takeDigit bj fuel radian 0
      let cs ← takeDigits fuel basis epsilon places radian (bj / basis)
      return c :: cs

/-- The sequence for each digit that is not zero, nothing when there is none. -/
def indicesFrom (basis size : ℤ) : ℤ → List ℕ → Option (List ℕ)
  | _, [] => some []
  | k, c :: cs => do
    let ids ← indicesFrom basis size (k + 1) cs
    let id := (basis - 1) * (k - 1) + c
    if c = 0 then some ids
    else if 0 ≤ id ∧ id < size then some (id.toNat :: ids)
    else none

/-- The sequences are appended from left to right. -/
def seqCombine (lib : Library) : List ℕ → Option (ℤ × List Char)
  | [] => some (0, [])
  | ii :: indices => do
    let seqi ← lib.seqs[ii]?
    let gates ← decode lib.phase (CharBits.ofCode seqi.word)
    let (length, rest) ← seqCombine lib indices
    return (seqi.l.toInt + length, gates ++ rest)

/-- The number of places of an angle: a division of unsigned numbers of 64 bits, made an integer.
Nothing when the basis is one, and when the array of the digits has no place. -/
def places (basis : ℤ) (size : ℕ) : Option ℕ :=
  let divisor := ((basis - 1) % 2 ^ 64).toNat
  let quotient := (BitVec.ofNat 32 (size / divisor)).toInt
  if divisor = 0 ∨ quotient < 0 then none else some quotient.toNat

def factorPi (radian : Float) (factor : List Char) : Option Float :=
  if 10 ≤ factor.length then none
  else if factor.map Char.toLower = ['p', 'i'] then some radian
  else if factor = [] then some (radian / 3.1415926535897)
  else none

/-- The rotation that `concatenate` makes of the one it is given. `print` is how a double is
printed. -/
def concatenate (print : Float → List Char) (fuel : ℕ) (mem : Process) (lib : Library)
    (output : Rz) (radian : Float) (factor : List Char) : Option Rz := do
  let turns ← factorPi radian factor
  let angle ← rangeZeroTwo fuel turns
  let J ← places lib.basis.toInt lib.seqs.length
  let basis := Float.ofInt lib.basis.toInt
  let whole := if 1 ≤ angle then [0] else []
  let fraction := if 1 ≤ angle then angle - 1 else angle
  let pre ← mem.pre lib.libP
  let epsilon := Float.pow (Float.ofInt pre.base.toInt) (Float.ofInt (-pre.digits.toInt))
  let cs ← takeDigits fuel basis epsilon J fraction (1 / basis)
  let ids ← indicesFrom lib.basis.toInt lib.seqs.length 1 cs
  if output.length ≠ 0 then none
  else do
    let (length, gates) ← seqCombine lib (whole ++ ids)
    return ⟨output.length + length, gates, print angle ++ "*pi".toList, some pre⟩

/-! ## What is read -/

private theorem reads_bitVec {w k : ℕ} (hw : 2 ^ w = 256 ^ k) (x : BitVec w) :
    Reads (do let n ← readLe k; return BitVec.ofNat w n) (leBytes k x.toNat) x := by
  have h := (Reads.readLe k x.toNat).bind (f := fun n ↦ pure (BitVec.ofNat w n)) (Reads.pure _)
  rwa [List.append_nil, ← hw, Nat.mod_eq_of_lt x.isLt, BitVec.ofNat_toNat, BitVec.setWidth_eq] at h

theorem reads_int (x : CInt) : Reads readInt (writeInt x) x :=
  reads_bitVec (k := 4) rfl x

theorem reads_bool (b : Bool) : Reads readBool (writeBool b) b := by
  have h := (Reads.readLe 1 b.toNat).bind (f := fun n ↦ pure (n != 0)) (Reads.pure _)
  rw [List.append_nil] at h
  cases b <;> exact h

theorem reads_pointer (p : Addr) : Reads readPointer (writePointer p) p :=
  reads_bitVec (k := 8) rfl p

theorem reads_char (c : Byte) : Reads readChar (leBytes 1 c.toNat) c :=
  reads_bitVec (k := 1) rfl c

theorem toNat_toInt_ofNat {n : ℕ} (h : n < 2 ^ 31) : (BitVec.ofNat 32 n).toInt.toNat = n := by
  have hnat : (BitVec.ofNat 32 n).toNat = n := Nat.mod_eq_of_lt (by omega)
  rw [BitVec.toInt_eq_toNat_of_lt (by omega), hnat, Int.toNat_natCast]

theorem toNat_toInt_lt (x : CInt) : x.toInt.toNat < 2 ^ 31 := by
  have h := x.toInt_lt
  omega

theorem reads_seq {si : Seq} (h : si.word.length < 2 ^ 31) : Reads loadSeq (saveSeq si) si := by
  have hword := Reads.readMany si.word fun c _ ↦ reads_char c
  rw [← toNat_toInt_ofNat h] at hword
  have hrest := hword.bind (f := fun words ↦ pure (⟨si.l, si.s, si.c, si.k, words⟩ : Seq))
    (Reads.pure _)
  rw [List.append_nil] at hrest
  exact (reads_int si.l).bind <| (reads_int si.s).bind <| (reads_int si.c).bind <|
    (reads_int si.k).bind <| (reads_int _).bind hrest

theorem yields_loadSeq : Yields loadSeq fun si ↦ si.word.length < 2 ^ 31 := by
  refine (Yields.trivial _).bind fun _ _ ↦ (Yields.trivial _).bind fun _ _ ↦
    (Yields.trivial _).bind fun _ _ ↦ (Yields.trivial _).bind fun _ _ ↦
      (Yields.trivial _).bind fun codeBytes _ ↦ ?_
  refine ((Yields.trivial readChar).readMany _).bind fun words hwords ↦ Yields.pure ?_
  rw [hwords.1]
  exact toNat_toInt_lt codeBytes

/-- The fields before the sequences are read back, whatever the sequences are. -/
theorem load_save (lib : Library) :
    load (save lib) = (do
      let seqs ← readMany loadSeq (BitVec.ofNat 32 lib.seqs.length).toInt.toNat
      return ⟨lib.libP, lib.libS, lib.basis, lib.phase, seqs⟩ : Reader Library)
        (lib.seqs.flatMap saveSeq) := by
  rw [load, save, (Reads.readBytes header).bind_apply, if_pos rfl, (reads_int _).bind_apply,
    (reads_bool _).bind_apply, (reads_pointer _).bind_apply, (reads_pointer _).bind_apply,
    (reads_int _).bind_apply]

/-! ## What is restored -/

/-- A loaded library has the values of the saved one and answers as it does. -/
structure Restored (mem mem' : Process) (lib lib' : Library) : Prop where
  basis : lib'.basis = lib.basis
  phase : lib'.phase = lib.phase
  seqs : lib'.seqs = lib.seqs
  precision : mem'.pre lib'.libP = mem.pre lib.libP
  bound : mem'.bound lib'.libS = mem.bound lib.libS
  answers : ∀ print fuel output radian factor,
    concatenate print fuel mem' lib' output radian factor =
      concatenate print fuel mem lib output radian factor

/-- The answers depend on the values, not on the addresses. -/
theorem concatenate_congr {mem mem' : Process} {lib lib' : Library}
    (hbasis : lib'.basis = lib.basis) (hphase : lib'.phase = lib.phase)
    (hseqs : lib'.seqs = lib.seqs) (hpre : mem'.pre lib'.libP = mem.pre lib.libP)
    (print : Float → List Char) (fuel : ℕ) (output : Rz) (radian : Float) (factor : List Char) :
    concatenate print fuel mem' lib' output radian factor =
      concatenate print fuel mem lib output radian factor := by
  have hcombine : seqCombine lib' = seqCombine lib := by
    funext indices
    induction indices with
    | nil => rfl
    | cons ii indices ih => rw [seqCombine, seqCombine, ih, hseqs, hphase]
  rw [concatenate, concatenate, hbasis, hseqs, hpre, hcombine]

/-- **Saving and loading**: the library is restored exactly when its numbers of sequences and bytes
are integers of the machine and the new process has, at the addresses in the file, the precision
and the bound that the saved library points to. -/
theorem restored_iff (mem mem' : Process) (lib : Library) :
    (∃ lib', load.run' (save lib) = some lib' ∧ Restored mem mem' lib lib') ↔
      lib.seqs.length < 2 ^ 31 ∧ (∀ si ∈ lib.seqs, si.word.length < 2 ^ 31) ∧
        mem'.pre lib.libP = mem.pre lib.libP ∧ mem'.bound lib.libS = mem.bound lib.libS := by
  constructor
  · rintro ⟨lib', hload, hlib'⟩
    rw [StateT.run'_eq, StateT.run, load_save] at hload
    obtain ⟨⟨_, rest⟩, hread, rfl⟩ := Option.map_eq_some_iff.mp hload
    obtain ⟨⟨seqs, _⟩, hseqs, hrest⟩ := Option.bind_eq_some_iff.mp hread
    obtain ⟨rfl, -⟩ := Prod.mk.inj (Option.some.inj hrest)
    obtain ⟨hlength, hwords⟩ := yields_loadSeq.readMany _ hseqs
    have heq : seqs = lib.seqs := hlib'.seqs
    subst heq
    exact ⟨hlength ▸ toNat_toInt_lt _, hwords, hlib'.precision, hlib'.bound⟩
  · rintro ⟨hlength, hwords, hpre, hbound⟩
    have hseqs := Reads.readMany lib.seqs fun si hsi ↦ reads_seq (hwords si hsi)
    rw [← toNat_toInt_ofNat hlength] at hseqs
    have hlib := hseqs.bind
      (f := fun seqs ↦ pure (⟨lib.libP, lib.libS, lib.basis, lib.phase, seqs⟩ : Library))
      (Reads.pure lib) []
    rw [List.append_nil, List.append_nil] at hlib
    exact ⟨lib, congrArg (Option.map Prod.fst) ((load_save lib).trans hlib), rfl, rfl, rfl, hpre,
      hbound, concatenate_congr rfl rfl rfl hpre⟩

/-- The process that saves a library has its precision and its bound in memory. -/
def saving : Process where
  pre a := if a = 0x1000 then some ⟨2, 3, 0.125⟩ else none
  sto a := if a = 0x1020 then some ⟨0x2000, 100⟩ else none
  chars a := if a = 0x2000 then some ['b'] else none

/-- A process with an empty memory. -/
def fresh : Process := ⟨fun _ ↦ none, fun _ ↦ none, fun _ ↦ none⟩

/-- The gate `S` for the angle pi over two, with a precision and a bound in memory. -/
def halfTurn : Library := ⟨0x1000, 0x1020, 2, true, [⟨1, 6, 1, 1, [0x28]⟩]⟩

theorem not_restored_fresh :
    ¬ ∃ lib', load.run' (save halfTurn) = some lib' ∧ Restored saving fresh halfTurn lib' := by
  rintro ⟨lib', -, hlib'⟩
  have hpre : (none : Option Pre) = some ⟨2, 3, 0.125⟩ := hlib'.precision
  exact nomatch hpre

end ScaffCC.RotLib
