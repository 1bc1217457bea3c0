import ScaffCC.RotLib.CharBits

/-!
# Gate strings as bits

`RotLib::encode` cuts a gate string into tokens from the left, `HT` before `H`, and writes the code
word of each token into a buffer of bits. `RotLib::decode` reads the bits back and tells the code
words apart by a cascade of tests. There are two code tables: the one without the gate `W` is for
rotations up to a phase.
-/

namespace ScaffCC.RotLib

/-! ## The source -/

/-- A table of code words. -/
abbrev Codemap := List (List Char × List Char)

/-- The code words of the gates with `W`. -/
def encodeTable : Codemap :=
  [(['H', 'T'], ['0']), (['S'], ['1', '0']), (['W'], ['1', '1', '1']),
    (['X'], ['1', '1', '0', '0']), (['H'], ['1', '1', '0', '1', '0']),
    (['T'], ['1', '1', '0', '1', '1'])]

/-- The code words of the gates without `W`. -/
def encodeTable2 : Codemap :=
  [(['H', 'T'], ['0']), (['S'], ['1', '0']), (['X'], ['1', '1', '1']),
    (['H'], ['1', '1', '0', '0']), (['T'], ['1', '1', '0', '1'])]

/-- The table that is used. -/
def codemap (phase : Bool) : Codemap := if phase then encodeTable2 else encodeTable

/-- The code words of the gates are written, nothing for a gate that is not in the table. -/
def encodeGates (et : Codemap) : List Char → ℕ → CharBits → Option (ℕ × CharBits)
  | [], codeSize, data => some (codeSize, data)
  | 'H' :: 'T' :: gates, codeSize, data => do
    let huff ← et.lookup ['H', 'T']
    encodeGates et gates (codeSize + huff.length) (data.writeBits huff)
  | gate :: gates, codeSize, data => do
    let huff ← et.lookup [gate]
    encodeGates et gates (codeSize + huff.length) (data.writeBits huff)

/-- The size of the code and the buffer it is written to. -/
def encode (phase : Bool) (gates : List Char) (data : CharBits) : Option (ℕ × CharBits) :=
  encodeGates (codemap phase) gates 4 data

/-- The gates at the front of the bits and the number of bits they take. -/
def decodeGate (phase : Bool) (bits : List Char) : Option (List Char × ℕ) :=
  if bits[0]? = some '0' then some (['H', 'T'], 1)
  else if bits[1]? = some '0' then some (['S'], 2)
  else if phase then
    if bits[2]? = some '1' then some (['X'], 3)
    else if bits[3]? = some '0' then some (['H'], 4)
    else if bits[3]? = some '1' then some (['T'], 4)
    else none
  else
    if bits[2]? = some '1' then some (['W'], 3)
    else if bits[3]? = some '0' then some (['X'], 4)
    else if bits[4]? = some '0' then some (['H'], 5)
    else if bits[4]? = some '1' then some (['T'], 5)
    else none

/-- The gates of bits, nothing when a code word is cut off. -/
def decodeBits (phase : Bool) : ℕ → List Char → Option (List Char)
  | _, [] => some []
  | 0, _ => none
  | fuel + 1, bits => do
    let (gates, taken) ← decodeGate phase bits
    let rest ← decodeBits phase fuel (bits.drop taken)
    return gates ++ rest

/-- The gates of a buffer. -/
def decode (phase : Bool) (data : CharBits) : Option (List Char) := do
  let bits ← data.readBits
  decodeBits phase bits.length bits

/-- The gates that a table has. -/
def alphabet (phase : Bool) : List Char :=
  if phase then ['H', 'T', 'S', 'X'] else ['H', 'T', 'S', 'X', 'W']

/-! ## One code word -/

/-- A code word is told apart from every other one, whatever comes after it. -/
structure CodeWord (phase : Bool) (gates huff : List Char) : Prop where
  lookup : (codemap phase).lookup gates = some huff
  binary : ∀ c ∈ huff, c = '0' ∨ c = '1'
  ne_nil : huff ≠ []
  decodeGate : ∀ rest, decodeGate phase (huff ++ rest) = some (gates, huff.length)

theorem codeWord_pair (phase : Bool) : CodeWord phase ['H', 'T'] ['0'] := by
  cases phase with
  | false => exact ⟨rfl, by simp, by simp, fun _ ↦ rfl⟩
  | true => exact ⟨rfl, by simp, by simp, fun _ ↦ rfl⟩

theorem exists_codeWord {phase : Bool} {gate : Char} (h : gate ∈ alphabet phase) :
    ∃ huff, CodeWord phase [gate] huff := by
  cases phase with
  | false =>
    have hgate : gate = 'H' ∨ gate = 'T' ∨ gate = 'S' ∨ gate = 'X' ∨ gate = 'W' := by
      simpa [alphabet] using h
    rcases hgate with rfl | rfl | rfl | rfl | rfl
    · exact ⟨['1', '1', '0', '1', '0'], rfl, by simp, by simp, fun _ ↦ rfl⟩
    · exact ⟨['1', '1', '0', '1', '1'], rfl, by simp, by simp, fun _ ↦ rfl⟩
    · exact ⟨['1', '0'], rfl, by simp, by simp, fun _ ↦ rfl⟩
    · exact ⟨['1', '1', '0', '0'], rfl, by simp, by simp, fun _ ↦ rfl⟩
    · exact ⟨['1', '1', '1'], rfl, by simp, by simp, fun _ ↦ rfl⟩
  | true =>
    have hgate : gate = 'H' ∨ gate = 'T' ∨ gate = 'S' ∨ gate = 'X' := by
      simpa [alphabet] using h
    rcases hgate with rfl | rfl | rfl | rfl
    · exact ⟨['1', '1', '0', '0'], rfl, by simp, by simp, fun _ ↦ rfl⟩
    · exact ⟨['1', '1', '0', '1'], rfl, by simp, by simp, fun _ ↦ rfl⟩
    · exact ⟨['1', '0'], rfl, by simp, by simp, fun _ ↦ rfl⟩
    · exact ⟨['1', '1', '1'], rfl, by simp, by simp, fun _ ↦ rfl⟩

/-! ## Gate strings -/

/-- Bits that are decoded to a gate string. -/
structure Coded (phase : Bool) (gates bits : List Char) : Prop where
  binary : ∀ c ∈ bits, c = '0' ∨ c = '1'
  decodeBits : ∀ fuel, bits.length ≤ fuel → decodeBits phase fuel bits = some gates

theorem Coded.nil (phase : Bool) : Coded phase [] [] := by
  refine ⟨by simp, fun fuel _ ↦ ?_⟩
  cases fuel <;> rfl

theorem CodeWord.append {phase : Bool} {gates huff rest bits : List Char}
    (hw : CodeWord phase gates huff) (h : Coded phase rest bits) :
    Coded phase (gates ++ rest) (huff ++ bits) := by
  constructor
  · intro c hc
    exact (List.mem_append.mp hc).elim (hw.binary c) (h.binary c)
  · intro fuel hfuel
    rw [List.length_append] at hfuel
    have hpos : 0 < huff.length := List.length_pos_iff.mpr hw.ne_nil
    obtain ⟨fuel, rfl⟩ := Nat.exists_eq_add_of_le' (show 1 ≤ fuel by omega)
    have hne : huff ++ bits ≠ [] := List.append_ne_nil_of_left_ne_nil hw.ne_nil bits
    rw [RotLib.decodeBits, hw.decodeGate bits]
    · simp [List.drop_left', h.decodeBits fuel (by omega)]
    · exact hne

/-- The bits that `encode` writes for a gate string are decoded to it. -/
def Encoded (phase : Bool) (gates bits : List Char) : Prop :=
  Coded phase gates bits ∧ ∀ codeSize data,
    encodeGates (codemap phase) gates codeSize data =
      some (codeSize + bits.length, data.writeBits bits)

private theorem Encoded.token {phase : Bool} {token rest huff bits : List Char}
    (h : Encoded phase rest bits) (hw : CodeWord phase token huff)
    (heq : ∀ codeSize data, encodeGates (codemap phase) (token ++ rest) codeSize data =
      ((codemap phase).lookup token).bind fun huff ↦
        encodeGates (codemap phase) rest (codeSize + huff.length) (data.writeBits huff)) :
    Encoded phase (token ++ rest) (huff ++ bits) := by
  refine ⟨hw.append h.1, fun codeSize data ↦ ?_⟩
  have hwrite : (data.writeBits huff).writeBits bits = data.writeBits (huff ++ bits) :=
    List.foldl_append.symm
  rw [heq, hw.lookup, Option.bind_some, h.2, hwrite, List.length_append, Nat.add_assoc]

/-- **What `encode` writes**: the bits of the gate string, as many as it counts. -/
theorem exists_encoded {phase : Bool} {gates : List Char} (h : ∀ g ∈ gates, g ∈ alphabet phase) :
    ∃ bits, Encoded phase gates bits := by
  revert h
  refine encodeGates.induct (fun gates _ _ ↦ (∀ g ∈ gates, g ∈ alphabet phase) →
    ∃ bits, Encoded phase gates bits) ?nil ?pair ?gate gates 4 CharBits.new
  case nil =>
    intro codeSize data _
    exact ⟨[], Coded.nil phase, fun _ _ ↦ rfl⟩
  case pair =>
    intro gates codeSize data ih h
    obtain ⟨bits, hbits⟩ := ih [] fun g hg ↦
      h g (List.mem_cons_of_mem _ (List.mem_cons_of_mem _ hg))
    exact ⟨_, hbits.token (codeWord_pair phase) fun _ _ ↦ rfl⟩
  case gate =>
    intro gate gates codeSize data hpair ih h
    obtain ⟨hgate, hgates⟩ := List.forall_mem_cons.mp h
    obtain ⟨bits, hbits⟩ := ih [] hgates
    obtain ⟨huff, hw⟩ := exists_codeWord hgate
    exact ⟨_, hbits.token hw fun codeSize data ↦
      encodeGates.eq_3 _ codeSize data gate gates hpair⟩

/-- **Encoding and decoding**: the gate string is read back from the bytes of its code. -/
theorem decode_encode {phase : Bool} {s : List Char} (hs : ∀ g ∈ s, g ∈ alphabet phase) :
    ∃ size data, encode phase s CharBits.new = some (size, data) ∧
      decode phase (CharBits.ofCode data.flushCode) = some s := by
  obtain ⟨bits, hcoded, hencode⟩ := exists_encoded hs
  obtain ⟨k, hholds⟩ := holds_new.writeBits hcoded.binary
  refine ⟨4 + bits.length, CharBits.new.writeBits bits, hencode 4 CharBits.new, ?_⟩
  rw [decode, hholds.readBits_ofCode]
  exact hcoded.decodeBits bits.length (Nat.le_refl _)

theorem decode_encode_straddling :
    ∃ size data, encode false "HHTSXWTHTTWH".toList CharBits.new = some (size, data) ∧
      decode false (CharBits.ofCode data.flushCode) = some "HHTSXWTHTTWH".toList :=
  decode_encode (by simp [alphabet])

end ScaffCC.RotLib
