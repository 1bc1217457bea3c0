import Mathlib.Algebra.Order.Group.Nat
import Mathlib.Data.List.Basic

/-!
# The bit buffer

A buffer of bytes that is written bit by bit. The first byte holds four bits only: its upper half is
for the number of bits of the last byte that are not used. A mask has the next free bit set and is
zero when there is none.
-/

namespace ScaffCC.RotLib

/-! ## The source -/

/-- An unsigned character. -/
abbrev Byte := BitVec 8

structure CharBits where
  buffer : List Byte
  mask : Byte
deriving DecidableEq

/-- An empty buffer. -/
def CharBits.new : CharBits := ⟨[0x00], 0x08⟩

/-- A buffer with the bytes of a code. -/
def CharBits.ofCode (old : List Byte) : CharBits :=
  let tmp := (old.headD 0) >>> 4
  ⟨old, if tmp = 0 then 0 else 1#8 <<< (tmp.toNat - 1)⟩

def CharBits.allocByte (d : CharBits) : CharBits :=
  if d.mask = 0 then ⟨d.buffer ++ [0x00], 0x80⟩ else d

def CharBits.writeBit (d : CharBits) (bit : Char) : CharBits :=
  let d := d.allocByte
  let buffer := if bit = '1' then
    d.buffer.dropLast ++ [d.buffer.getLastD 0 ||| d.mask] else d.buffer
  ⟨buffer, d.mask >>> 1⟩

def CharBits.writeBits (d : CharBits) (bits : List Char) : CharBits :=
  bits.foldl CharBits.writeBit d

/-- The bits of a byte from a mask up to another one, nothing when it is not reached. -/
def readByte (byte stop : Byte) : ℕ → Byte → Option (List Char)
  | 0, _ => none
  | fuel + 1, readMask =>
    if readMask = stop then some []
    else (readByte byte stop fuel (readMask >>> 1)).map
      ((if byte &&& readMask ≠ 0 then '1' else '0') :: ·)

/-- The bits of bytes, the first of which is read from a mask. -/
def readBytes (mask : Byte) : Byte → List Byte → Option (List Char)
  | _, [] => some []
  | start, byte :: bytes => do
    let bits ← readByte byte (if bytes = [] then mask else 0) 9 start
    let rest ← readBytes mask 0x80 bytes
    return bits ++ rest

def CharBits.readBits (d : CharBits) : Option (List Char) :=
  readBytes d.mask 0x08 d.buffer

/-- The number of shifts that make a mask zero. -/
def countUnused : ℕ → Byte → Byte
  | 0, _ => 0
  | fuel + 1, mask => if mask ≠ 0 then countUnused fuel (mask >>> 1) + 1 else 0

/-- The bytes of a buffer, with the number of unused bits. -/
def CharBits.flushCode (d : CharBits) : List Byte :=
  d.buffer.modifyHead (· ||| countUnused 8 d.mask <<< 4)

/-! ## Masks -/

/-- The mask when `k` bits are left. -/
def maskOf (k : ℕ) : Byte := BitVec.ofNat 8 (2 ^ k / 2)

theorem maskOf_eq_zero {k : ℕ} (hk : k ≤ 8) : maskOf k = 0 ↔ k = 0 := by
  decide +revert

theorem maskOf_inj {k l : ℕ} (hk : k ≤ 8) (hl : l ≤ 8) : maskOf k = maskOf l ↔ k = l := by
  have hall : ∀ k ≤ 8, ∀ l ≤ 8, (maskOf k = maskOf l ↔ k = l) := by decide
  exact hall k hk l hl

theorem maskOf_succ_shiftRight {k : ℕ} (hk : k < 8) : maskOf (k + 1) >>> 1 = maskOf k := by
  decide +revert

theorem maskOf_succ {k : ℕ} (hk : k < 8) : maskOf (k + 1) = BitVec.twoPow 8 k := by
  decide +revert

theorem countUnused_maskOf {k : ℕ} (hk : k ≤ 8) : countUnused 8 (maskOf k) = BitVec.ofNat 8 k := by
  decide +revert

/-- The bits of a byte from position `k + m` down to position `k`, the first one left out. -/
def byteBits (byte : Byte) (k : ℕ) : ℕ → List Char
  | 0 => []
  | m + 1 => (if byte.getLsbD (k + m) then '1' else '0') :: byteBits byte k m

theorem readByte_eq (byte : Byte) (k m fuel : ℕ) (hk : k + m ≤ 8) (hfuel : m < fuel) :
    readByte byte (maskOf k) fuel (maskOf (k + m)) = some (byteBits byte k m) := by
  induction m generalizing fuel with
  | zero =>
    obtain ⟨fuel, rfl⟩ := Nat.exists_eq_succ_of_ne_zero (Nat.ne_zero_of_lt hfuel)
    exact if_pos rfl
  | succ m ih =>
    obtain ⟨fuel, rfl⟩ := Nat.exists_eq_succ_of_ne_zero (Nat.ne_zero_of_lt hfuel)
    have hlt : k + m < 8 := by omega
    have hne : maskOf (k + m + 1) ≠ maskOf k := by
      rw [Ne, maskOf_inj hlt (by omega)]
      omega
    have hbit : byte &&& maskOf (k + m + 1) ≠ 0 ↔ byte.getLsbD (k + m) = true := by
      have hpow : BitVec.twoPow 8 (k + m) ≠ 0 := by
        rw [← maskOf_succ hlt, Ne, maskOf_eq_zero hlt]
        exact Nat.succ_ne_zero _
      rw [maskOf_succ hlt, BitVec.and_twoPow]
      split_ifs with h
      · exact iff_of_true hpow h
      · exact iff_of_false (not_not.mpr rfl) h
    rw [← Nat.add_assoc, readByte, if_neg hne, maskOf_succ_shiftRight hlt,
      ih _ (Nat.le_of_lt hlt) (Nat.lt_of_succ_lt_succ hfuel), byteBits, Option.map_some]
    simp only [hbit]

/-! ## What a buffer holds -/

def wholeBits (bytes : List Byte) : List Char := bytes.flatMap fun byte ↦ byteBits byte 0 8

/-- A buffer holds some bits: its last byte has `k` free bits, which are clear. The first byte,
which may be the last one, gives only four bits. -/
inductive Holds : CharBits → ℕ → List Char → Prop
  | first {byte : Byte} {k : ℕ} (hk : k ≤ 4) (hfree : ∀ i < k, byte.getLsbD i = false)
      (hupper : byte >>> 4 = 0) : Holds ⟨[byte], maskOf k⟩ k (byteBits byte k (4 - k))
  | more {head last : Byte} {bytes : List Byte} {k : ℕ} (hk : k ≤ 8)
      (hfree : ∀ i < k, last.getLsbD i = false) (hupper : head >>> 4 = 0) :
      Holds ⟨head :: (bytes ++ [last]), maskOf k⟩ k
        (byteBits head 0 4 ++ wholeBits bytes ++ byteBits last k (8 - k))

theorem holds_new : Holds CharBits.new 4 [] :=
  @Holds.first 0 4 (Nat.le_refl 4) (fun _ _ ↦ BitVec.getLsbD_zero) rfl

/-- The byte with a free bit written. -/
private def withBit (byte : Byte) (k : ℕ) (bit : Char) : Byte :=
  if bit = '1' then byte ||| maskOf (k + 1) else byte

private theorem getLsbD_withBit {byte : Byte} {k : ℕ} (hk : k < 8) (bit : Char) (i : ℕ) :
    (withBit byte k bit).getLsbD i
      = (byte.getLsbD i || (decide (bit = '1') && decide (k = i))) := by
  rw [withBit]
  split_ifs with h
  · rw [maskOf_succ hk, BitVec.getLsbD_or, BitVec.getLsbD_twoPow]
    simp [h, hk]
  · simp [h]

private theorem byteBits_congr {byte byte' : Byte} {k m : ℕ}
    (h : ∀ i, k ≤ i → i < k + m → byte.getLsbD i = byte'.getLsbD i) :
    byteBits byte k m = byteBits byte' k m := by
  induction m with
  | zero => rfl
  | succ m ih =>
    rw [byteBits, byteBits, h (k + m) (Nat.le_add_right k m) (Nat.lt_succ_self _),
      ih fun i hi hlt ↦ h i hi (Nat.lt_succ_of_lt hlt)]

private theorem byteBits_succ_left (byte : Byte) (k m : ℕ) :
    byteBits byte k (m + 1) =
      byteBits byte (k + 1) m ++ [if byte.getLsbD k then '1' else '0'] := by
  induction m with
  | zero => rfl
  | succ m ih =>
    rw [byteBits, ih, byteBits, List.cons_append, show k + 1 + m = k + (m + 1) by omega]

private theorem byteBits_withBit {byte : Byte} {k : ℕ} (hk : k < 8)
    (hfree : ∀ i < k + 1, byte.getLsbD i = false) {bit : Char} (hbit : bit = '0' ∨ bit = '1')
    (m : ℕ) :
    byteBits (withBit byte k bit) k (m + 1) = byteBits byte (k + 1) m ++ [bit] := by
  rw [byteBits_succ_left, getLsbD_withBit hk, hfree k (Nat.lt_succ_self k)]
  congr 1
  · refine byteBits_congr fun i hi _ ↦ ?_
    have hne : k ≠ i := by omega
    simp [getLsbD_withBit hk, hne]
  · rcases hbit with rfl | rfl <;> simp

private theorem free_withBit {byte : Byte} {k : ℕ} (hk : k < 8)
    (hfree : ∀ i < k + 1, byte.getLsbD i = false) (bit : Char) :
    ∀ i < k, (withBit byte k bit).getLsbD i = false := by
  intro i hi
  have hne : k ≠ i := by omega
  rw [getLsbD_withBit hk, hfree i (by omega)]
  simp [hne]

/-! ## Writing -/

theorem Holds.allocByte {d : CharBits} {k : ℕ} {bits : List Char} (h : Holds d k bits) :
    ∃ k', Holds d.allocByte (k' + 1) bits := by
  cases h with
  | @first byte k hk hfree hupper =>
    cases k with
    | zero =>
      refine ⟨7, ?_⟩
      have hmore := @Holds.more byte 0 [] 8 (Nat.le_refl 8)
        (fun _ _ ↦ BitVec.getLsbD_zero) hupper
      simpa [CharBits.allocByte, maskOf, wholeBits, byteBits] using hmore
    | succ k =>
      have hne : maskOf (k + 1) ≠ 0 := by
        rw [Ne, maskOf_eq_zero (by omega)]
        exact Nat.succ_ne_zero k
      refine ⟨k, ?_⟩
      rw [CharBits.allocByte, if_neg hne]
      exact .first hk hfree hupper
  | @more head last bytes k hk hfree hupper =>
    cases k with
    | zero =>
      refine ⟨7, ?_⟩
      have hmore := @Holds.more head 0 (bytes ++ [last]) 8 (Nat.le_refl 8)
        (fun _ _ ↦ BitVec.getLsbD_zero) hupper
      simpa [CharBits.allocByte, maskOf, wholeBits, byteBits] using hmore
    | succ k =>
      have hne : maskOf (k + 1) ≠ 0 := by
        rw [Ne, maskOf_eq_zero hk]
        exact Nat.succ_ne_zero k
      refine ⟨k, ?_⟩
      rw [CharBits.allocByte, if_neg hne]
      exact .more hk hfree hupper

/-- **A bit is appended.** -/
theorem Holds.writeBit {d : CharBits} {k : ℕ} {bits : List Char} (h : Holds d k bits) {bit : Char}
    (hbit : bit = '0' ∨ bit = '1') : ∃ k', Holds (d.writeBit bit) k' (bits ++ [bit]) := by
  obtain ⟨k', h'⟩ := h.allocByte
  refine ⟨k', ?_⟩
  rw [CharBits.writeBit]
  generalize d.allocByte = d' at h'
  cases h' with
  | @first byte _ hk hfree hupper =>
    have hk' : k' < 8 := by omega
    have hclear : ∀ l < 4, maskOf (l + 1) >>> 4 = 0 := by decide
    have hbyte : withBit byte k' bit >>> 4 = 0 := by
      rw [withBit]
      split_ifs
      · rw [BitVec.ushiftRight_or_distrib, hupper, hclear k' hk, BitVec.or_self]
      · exact hupper
    have hfirst := Holds.first (by omega) (free_withBit hk' hfree bit) hbyte
    rw [show 4 - k' = 4 - (k' + 1) + 1 by omega, byteBits_withBit hk' hfree hbit] at hfirst
    rw [maskOf_succ_shiftRight hk']
    convert hfirst using 2
    rw [withBit]
    split_ifs <;> rfl
  | @more head last bytes _ hk hfree hupper =>
    have hk' : k' < 8 := by omega
    have hmore := @Holds.more _ _ bytes _ (by omega) (free_withBit hk' hfree bit) hupper
    rw [show 8 - k' = 8 - (k' + 1) + 1 by omega, byteBits_withBit hk' hfree hbit,
      ← List.append_assoc] at hmore
    rw [maskOf_succ_shiftRight hk']
    convert hmore using 2
    rw [withBit, ← List.cons_append]
    split_ifs
    · rw [List.dropLast_concat, List.getLastD_concat, List.cons_append]
    · rfl

theorem Holds.writeBits {d : CharBits} {k : ℕ} {bits : List Char} (h : Holds d k bits)
    {more : List Char} (hmore : ∀ c ∈ more, c = '0' ∨ c = '1') :
    ∃ k', Holds (d.writeBits more) k' (bits ++ more) := by
  induction more generalizing d k bits with
  | nil => exact ⟨k, by rwa [List.append_nil]⟩
  | cons c more ih =>
    obtain ⟨hc, hrest⟩ := List.forall_mem_cons.mp hmore
    obtain ⟨k', h'⟩ := h.writeBit hc
    obtain ⟨k'', h''⟩ := ih h' hrest
    exact ⟨k'', by rwa [List.append_assoc, List.singleton_append] at h''⟩

/-! ## Reading -/

private theorem readBytes_more {last : Byte} {k : ℕ} (hk : k ≤ 8) (bytes : List Byte) :
    readBytes (maskOf k) 0x80 (bytes ++ [last]) =
      some (wholeBits bytes ++ byteBits last k (8 - k)) := by
  induction bytes with
  | nil =>
    have hread := readByte_eq last k (8 - k) 9 (by omega) (by omega)
    rw [show k + (8 - k) = 8 by omega] at hread
    rw [List.nil_append, readBytes, if_pos rfl, show (0x80 : Byte) = maskOf 8 from rfl, hread]
    simp [readBytes, wholeBits]
  | cons byte bytes ih =>
    have hread := readByte_eq byte 0 8 9 (by omega) (by omega)
    have hne : bytes ++ [last] ≠ [] := by simp
    rw [List.cons_append, readBytes, if_neg hne, show (0x80 : Byte) = maskOf 8 from rfl,
      show (0 : Byte) = maskOf 0 from rfl]
    rw [Nat.zero_add] at hread
    rw [hread, show maskOf 8 = (0x80 : Byte) from rfl, ih]
    simp [wholeBits]

private theorem upper_or {byte : Byte} (h : byte >>> 4 = 0) {k : ℕ} (hk : k ≤ 8) :
    (byte ||| BitVec.ofNat 8 k <<< 4) >>> 4 = BitVec.ofNat 8 k ∧
      ∀ i < 4, (byte ||| BitVec.ofNat 8 k <<< 4).getLsbD i = byte.getLsbD i := by
  constructor
  · have hshift : BitVec.ofNat 8 k <<< 4 >>> 4 = BitVec.ofNat 8 k := by decide +revert
    rw [BitVec.ushiftRight_or_distrib, h, hshift]
    exact BitVec.zero_or
  · intro i hi
    simp [BitVec.getLsbD_or, BitVec.getLsbD_shiftLeft, hi]

private theorem ofCode_eq {byte : Byte} {k : ℕ} (hk : k ≤ 8) (h : byte >>> 4 = BitVec.ofNat 8 k)
    (bytes : List Byte) : CharBits.ofCode (byte :: bytes) = ⟨byte :: bytes, maskOf k⟩ := by
  have hmask : (if BitVec.ofNat 8 k = 0 then 0 else 1#8 <<< ((BitVec.ofNat 8 k).toNat - 1)) =
      maskOf k := by
    decide +revert
  rw [CharBits.ofCode, List.headD_cons, h]
  simp only [hmask]

/-- **What is written is read**: a buffer made from the bytes of the flushed one has the bits. -/
theorem Holds.readBits_ofCode {d : CharBits} {k : ℕ} {bits : List Char} (h : Holds d k bits) :
    (CharBits.ofCode d.flushCode).readBits = some bits := by
  cases h with
  | @first byte _ hk hfree hupper =>
    obtain ⟨hcount, hlow⟩ := upper_or hupper (k := k) (by omega)
    rw [CharBits.flushCode, countUnused_maskOf (by omega), List.modifyHead_cons,
      ofCode_eq (by omega) hcount, CharBits.readBits, readBytes, if_pos rfl,
      show (0x08 : Byte) = maskOf 4 from rfl]
    have hread := readByte_eq (byte ||| BitVec.ofNat 8 k <<< 4) k (4 - k) 9 (by omega) (by omega)
    rw [show k + (4 - k) = 4 by omega, byteBits_congr fun i _ hi ↦ hlow i (by omega)] at hread
    rw [hread]
    simp [readBytes]
  | @more head last bytes _ hk hfree hupper =>
    obtain ⟨hcount, hlow⟩ := upper_or hupper hk
    have hne : bytes ++ [last] ≠ [] := by simp
    rw [CharBits.flushCode, countUnused_maskOf hk, List.modifyHead_cons, ofCode_eq hk hcount,
      CharBits.readBits, readBytes, if_neg hne, show (0x08 : Byte) = maskOf 4 from rfl,
      show (0 : Byte) = maskOf 0 from rfl]
    have hread := readByte_eq (head ||| BitVec.ofNat 8 k <<< 4) 0 4 9 (by omega) (by omega)
    rw [Nat.zero_add, byteBits_congr fun i _ hi ↦ hlow i (by omega)] at hread
    rw [hread, readBytes_more hk]
    simp

end ScaffCC.RotLib
