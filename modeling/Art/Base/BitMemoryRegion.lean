import Art.Lib.BitStream

/-!
# Bit memory regions, readers and writers

`libartbase/base/bit_memory_region.h`. A `BitMemoryRegion` is a window of bits over a buffer;
`BitMemoryReader` reads consecutive fields from a start position, `BitMemoryWriter` appends them.
Bits are numbered from the least significant bit of the first byte (Android is little-endian), so
the byte vector is modelled as its list of bits. The word-sized loads of `LoadBits` (which may
touch bytes outside the region and mask them off) read the region's bits; bits past the end of
the buffer read as zero.

Varints (`ReadVarint`, `ReadInterleavedVarints` and the writer's counterparts) store a value up
to `kVarintMax` in four bits, and a larger one as the number of bytes it needs, with the bytes
after all the four-bit fields.

The main results are the round trips `readBits_of_at` and
`readInterleavedVarints_of_at`: a reader whose next bits are what the writer appended reads the
written values back and stops right after them (`BitMemoryReader.At`).
-/

namespace Art

open BitStream

def kBitsPerByte : Nat := 8
def kVarintBits : Nat := 4
def kVarintMax : Nat := 11

/-- `MinimumBitsToStore`: `MostSignificantBit(value) + 1`, where the most significant bit of zero
is `-1`. -/
def minimumBitsToStore (value : Nat) : Nat := if value = 0 then 0 else value.log2 + 1

def bitsToBytesRoundUp (numBits : Nat) : Nat := (numBits + kBitsPerByte - 1) / kBitsPerByte

/-- `BitFieldExtract` of an unsigned value. -/
def bitFieldExtract (value lsb width : Nat) : Nat := (value >>> lsb) % 2 ^ width

theorem lt_two_pow_minimumBitsToStore (value : Nat) : value < 2 ^ minimumBitsToStore value := by
  unfold minimumBitsToStore
  split_ifs with h
  · simp [h]
  · exact Nat.lt_log2_self

theorem minimumBitsToStore_le {value n : Nat} (h : value < 2 ^ n) :
    minimumBitsToStore value ≤ n := by
  unfold minimumBitsToStore
  split_ifs with h0
  · exact Nat.zero_le n
  · exact Nat.succ_le_of_lt ((Nat.log2_lt h0).2 h)

structure BitMemoryRegion where
  data : List Bool
  bitStart : Nat
  bitSize : Nat

namespace BitMemoryRegion

/-- The bits inside the region. -/
def bits (r : BitMemoryRegion) : List Bool := slice r.data r.bitStart r.bitSize

def loadBit (r : BitMemoryRegion) (bitOffset : Nat) : Bool := r.data.getD (r.bitStart + bitOffset) false

def loadBits (r : BitMemoryRegion) (bitOffset bitLength : Nat) : Nat :=
  valueOf (slice r.data (r.bitStart + bitOffset) bitLength)

def subregion (r : BitMemoryRegion) (bitOffset bitLength : Nat) : BitMemoryRegion :=
  { r with bitStart := r.bitStart + bitOffset, bitSize := bitLength }

/-- `Subregion(bit_offset)`: the rest of the region from `bitOffset`. -/
def subregionFrom (r : BitMemoryRegion) (bitOffset : Nat) : BitMemoryRegion :=
  { r with bitStart := r.bitStart + bitOffset, bitSize := r.bitSize - bitOffset }

def popCount (r : BitMemoryRegion) : Nat := r.bits.count true

def popCountRange (r : BitMemoryRegion) (bitOffset bitLength : Nat) : Nat :=
  (r.subregion bitOffset bitLength).popCount

@[simp] theorem length_bits (r : BitMemoryRegion) : r.bits.length = r.bitSize := by
  simp [bits]

theorem loadBit_eq (r : BitMemoryRegion) {i : Nat} (hi : i < r.bitSize) :
    r.loadBit i = r.bits.getD i false := by
  rw [loadBit, bits, getD_slice]
  simp [hi]

theorem loadBits_eq (r : BitMemoryRegion) {bitOffset bitLength : Nat}
    (h : bitOffset + bitLength ≤ r.bitSize) :
    r.loadBits bitOffset bitLength = valueOf (slice r.bits bitOffset bitLength) := by
  rw [bits, slice_slice _ _ _ _ _ h, loadBits]

theorem bits_subregion (r : BitMemoryRegion) {bitOffset bitLength : Nat}
    (h : bitOffset + bitLength ≤ r.bitSize) :
    (r.subregion bitOffset bitLength).bits = slice r.bits bitOffset bitLength := by
  rw [bits, bits, slice_slice _ _ _ _ _ h]
  rfl

theorem bits_subregionFrom (r : BitMemoryRegion) {bitOffset : Nat} (h : bitOffset ≤ r.bitSize) :
    (r.subregionFrom bitOffset).bits = slice r.bits bitOffset (r.bitSize - bitOffset) := by
  rw [bits, bits, slice_slice _ _ _ _ _ (by omega)]
  rfl

end BitMemoryRegion

/-- A reader keeps the region read so far; its cursor is the end of that region. -/
structure BitMemoryReader where
  finishedRegion : BitMemoryRegion

namespace BitMemoryReader

/-- `BitMemoryReader(data, bit_offset)`. -/
def ofData (data : List Bool) (bitOffset : Nat) : BitMemoryReader := ⟨⟨data, bitOffset, 0⟩⟩

def numberOfReadBits (r : BitMemoryReader) : Nat := r.finishedRegion.bitSize

/-- The cursor, as a position in the buffer. -/
def position (r : BitMemoryReader) : Nat := r.finishedRegion.bitStart + r.finishedRegion.bitSize

def readRegion (r : BitMemoryReader) (bitLength : Nat) : BitMemoryRegion × BitMemoryReader :=
  let bitOffset := r.finishedRegion.bitSize
  let finished := { r.finishedRegion with bitSize := bitOffset + bitLength }
  (finished.subregion bitOffset bitLength, ⟨finished⟩)

def readBits (r : BitMemoryReader) (bitLength : Nat) : Nat × BitMemoryReader :=
  let (region, r) := r.readRegion bitLength
  (region.loadBits 0 bitLength, r)

/-- `ReadVarint`: four bits, then as many bytes as they say past `kVarintMax`. -/
def readVarint (r : BitMemoryReader) : Nat × BitMemoryReader :=
  let (x, r) := r.readBits kVarintBits
  if x ≤ kVarintMax then (x, r) else r.readBits ((x - kVarintMax) * kBitsPerByte)

/-- The second loop of `ReadInterleavedVarints`: each four-bit field past `kVarintMax` is
replaced by the value read from the bytes it counts. -/
def readLargeValues : List Nat → BitMemoryReader → List (BitVec 32) × BitMemoryReader
  | [], r => ([], r)
  | x :: xs, r =>
    let (value, r) := if x > kVarintMax then r.readBits ((x - kVarintMax) * kBitsPerByte) else (x, r)
    let (values, r) := readLargeValues xs r
    (BitVec.ofNat 32 value :: values, r)

/-- `ReadInterleavedVarints<N>`: all `N` four-bit fields in one load, then the large values. -/
def readInterleavedVarints (r : BitMemoryReader) (n : Nat) : List (BitVec 32) × BitMemoryReader :=
  let (data, r) := r.readBits (n * kVarintBits)
  readLargeValues ((List.range n).map fun i => bitFieldExtract data (i * kVarintBits) kVarintBits) r

/-- The bits under the cursor start with `bits`. -/
def At (r : BitMemoryReader) (bits : List Bool) : Prop :=
  slice r.finishedRegion.data r.position bits.length = bits

@[simp] theorem readRegion_fst (r : BitMemoryReader) (n : Nat) :
    (r.readRegion n).1 = ⟨r.finishedRegion.data, r.position, n⟩ := rfl

@[simp] theorem readRegion_snd (r : BitMemoryReader) (n : Nat) :
    (r.readRegion n).2 = ⟨{ r.finishedRegion with bitSize := r.finishedRegion.bitSize + n }⟩ := rfl

@[simp] theorem readBits_snd (r : BitMemoryReader) (n : Nat) :
    (r.readBits n).2 = (r.readRegion n).2 := rfl

@[simp] theorem data_readRegion (r : BitMemoryReader) (n : Nat) :
    (r.readRegion n).2.finishedRegion.data = r.finishedRegion.data := rfl

@[simp] theorem position_readRegion (r : BitMemoryReader) (n : Nat) :
    (r.readRegion n).2.position = r.position + n := by
  simp only [position, readRegion_snd]
  omega

theorem At.split {r : BitMemoryReader} {l₁ l₂ : List Bool} (h : r.At (l₁ ++ l₂)) :
    slice r.finishedRegion.data r.position l₁.length = l₁ ∧
      slice r.finishedRegion.data (r.position + l₁.length) l₂.length = l₂ := by
  rw [At, List.length_append, slice_add] at h
  exact List.append_inj h (by simp)

theorem At.left {r : BitMemoryReader} {l₁ l₂ : List Bool} (h : r.At (l₁ ++ l₂)) : r.At l₁ :=
  h.split.1

theorem At.right {r : BitMemoryReader} {l₁ l₂ : List Bool} (h : r.At (l₁ ++ l₂)) :
    (r.readRegion l₁.length).2.At l₂ := by
  rw [At, position_readRegion, data_readRegion]
  exact h.split.2

/-- Reading a region takes the bits under the cursor. -/
theorem readRegion_of_at {r : BitMemoryReader} {l rest : List Bool} (h : r.At (l ++ rest)) :
    (r.readRegion l.length).1.bits = l ∧ (r.readRegion l.length).2.At rest :=
  ⟨h.left, h.right⟩

/-- Reading a field gives back the value written there, cut to the field's width. -/
theorem readBits_of_at {r : BitMemoryReader} {n v : Nat} {rest : List Bool}
    (h : r.At (bitsOf n v ++ rest)) :
    (r.readBits n).1 = v % 2 ^ n ∧ (r.readBits n).2.At rest := by
  have hr := h.right
  rw [length_bitsOf] at hr
  refine ⟨?_, hr⟩
  have hl := h.left
  rw [At, length_bitsOf] at hl
  simp only [readBits, readRegion, BitMemoryRegion.loadBits, BitMemoryRegion.subregion,
    Nat.add_zero]
  rw [show r.finishedRegion.bitStart + r.finishedRegion.bitSize = r.position from rfl, hl,
    valueOf_bitsOf]

@[simp] theorem numberOfReadBits_readRegion (r : BitMemoryReader) (n : Nat) :
    (r.readRegion n).2.numberOfReadBits = r.numberOfReadBits + n := rfl

end BitMemoryReader

/-! ### Writing -/

/-- `BitMemoryWriter::WriteBits` at the end of the written bits `out`. -/
def writeBits (out : List Bool) (value bitLength : Nat) : List Bool := out ++ bitsOf bitLength value

/-- `WriteInterleavedVarints`: the four-bit fields of all values, then the large values. -/
def writeInterleavedVarints (out : List Bool) (values : List (BitVec 32)) : List Bool :=
  let out := values.foldl (fun out value =>
    if value.toNat > kVarintMax then
      writeBits out (kVarintMax + bitsToBytesRoundUp (minimumBitsToStore value.toNat)) kVarintBits
    else writeBits out value.toNat kVarintBits) out
  values.foldl (fun out value =>
    if value.toNat > kVarintMax then
      writeBits out value.toNat (bitsToBytesRoundUp (minimumBitsToStore value.toNat) * kBitsPerByte)
    else out) out

def writeVarint (out : List Bool) (value : BitVec 32) : List Bool :=
  writeInterleavedVarints out [value]

/-- The four-bit field a value is written as. -/
def varintField (value : BitVec 32) : Nat :=
  if value.toNat > kVarintMax then kVarintMax + bitsToBytesRoundUp (minimumBitsToStore value.toNat)
  else value.toNat

/-- The bytes a large value is written as after the four-bit fields. -/
def varintBytes (value : BitVec 32) : List Bool :=
  if value.toNat > kVarintMax then
    bitsOf (bitsToBytesRoundUp (minimumBitsToStore value.toNat) * kBitsPerByte) value.toNat
  else []

/-- What `WriteInterleavedVarints` appends. -/
def interleavedVarints (values : List (BitVec 32)) : List Bool :=
  values.flatMap (fun value => bitsOf kVarintBits (varintField value)) ++ values.flatMap varintBytes

theorem writeInterleavedVarints_eq (out : List Bool) (values : List (BitVec 32)) :
    writeInterleavedVarints out values = out ++ interleavedVarints values := by
  have hfields : (fun out (value : BitVec 32) =>
      if value.toNat > kVarintMax then
        writeBits out (kVarintMax + bitsToBytesRoundUp (minimumBitsToStore value.toNat)) kVarintBits
      else writeBits out value.toNat kVarintBits) =
      fun out value => out ++ bitsOf kVarintBits (varintField value) := by
    funext out value
    unfold varintField writeBits
    split_ifs <;> rfl
  have hbytes : (fun out (value : BitVec 32) =>
      if value.toNat > kVarintMax then
        writeBits out value.toNat
          (bitsToBytesRoundUp (minimumBitsToStore value.toNat) * kBitsPerByte)
      else out) = fun out value => out ++ varintBytes value := by
    funext out value
    unfold varintBytes writeBits
    split_ifs <;> simp
  simp only [writeInterleavedVarints]
  rw [hfields, hbytes, foldl_append_eq_flatMap, foldl_append_eq_flatMap, interleavedVarints,
    List.append_assoc]

/-- A value of 32 bits needs at most four bytes, so its field fits in four bits. -/
theorem varintField_lt (value : BitVec 32) : varintField value < 2 ^ kVarintBits := by
  have hbits := minimumBitsToStore_le value.isLt
  unfold varintField bitsToBytesRoundUp
  split_ifs <;> simp only [kVarintMax, kVarintBits, kBitsPerByte] at * <;> omega

theorem lt_two_pow_varintBytes (value : BitVec 32) :
    value.toNat < 2 ^ (bitsToBytesRoundUp (minimumBitsToStore value.toNat) * kBitsPerByte) := by
  have hv := lt_two_pow_minimumBitsToStore value.toNat
  have hle : minimumBitsToStore value.toNat ≤
      bitsToBytesRoundUp (minimumBitsToStore value.toNat) * kBitsPerByte := by
    unfold bitsToBytesRoundUp kBitsPerByte
    omega
  exact Nat.lt_of_lt_of_le hv (Nat.pow_le_pow_right (by decide) hle)

namespace BitMemoryReader

theorem readLargeValues_of_at {r : BitMemoryReader} {values : List (BitVec 32)}
    {rest : List Bool} (h : r.At (values.flatMap varintBytes ++ rest)) :
    (readLargeValues (values.map varintField) r).1 = values ∧
      (readLargeValues (values.map varintField) r).2.At rest ∧
      (readLargeValues (values.map varintField) r).2.position =
        r.position + (values.flatMap varintBytes).length ∧
      (readLargeValues (values.map varintField) r).2.finishedRegion.data = r.finishedRegion.data := by
  induction values generalizing r with
  | nil => exact ⟨rfl, h, by simp [readLargeValues], rfl⟩
  | cons v vs ih =>
    rw [List.flatMap_cons, List.append_assoc] at h
    simp only [List.map_cons, readLargeValues, List.flatMap_cons, List.length_append]
    by_cases hv : v.toNat > kVarintMax
    · -- a large value: its field counts the bytes that follow
      have hfield : varintField v = kVarintMax + bitsToBytesRoundUp (minimumBitsToStore v.toNat) := by
        simp [varintField, hv]
      have hbytes : varintBytes v =
          bitsOf (bitsToBytesRoundUp (minimumBitsToStore v.toNat) * kBitsPerByte) v.toNat := by
        simp [varintBytes, hv]
      rw [hbytes] at h
      have hm : minimumBitsToStore v.toNat ≠ 0 := by
        intro h0
        have hlt := lt_two_pow_minimumBitsToStore v.toNat
        rw [h0] at hlt
        simp only [kVarintMax] at hv
        omega
      have hgt : varintField v > kVarintMax := by
        rw [hfield]
        unfold bitsToBytesRoundUp kBitsPerByte
        omega
      rw [if_pos hgt, hfield, Nat.add_sub_cancel_left]
      obtain ⟨hval, hrest⟩ := readBits_of_at h
      obtain ⟨ih₁, ih₂, ih₃, ih₄⟩ := ih hrest
      refine ⟨?_, ih₂, ?_, ih₄⟩
      · rw [ih₁, hval, Nat.mod_eq_of_lt (lt_two_pow_varintBytes v), BitVec.ofNat_toNat,
          BitVec.setWidth_eq]
      · rw [ih₃, readBits_snd, position_readRegion, hbytes, length_bitsOf]
        omega
    · -- a small value is its own field, and nothing follows it
      have hfield : varintField v = v.toNat := by simp [varintField, hv]
      have hbytes : varintBytes v = [] := by simp [varintBytes, hv]
      rw [hbytes, List.nil_append] at h
      rw [if_neg (by rw [hfield]; exact hv), hfield]
      obtain ⟨ih₁, ih₂, ih₃, ih₄⟩ := ih h
      refine ⟨by rw [ih₁, BitVec.ofNat_toNat, BitVec.setWidth_eq], ih₂, ?_, ih₄⟩
      rw [ih₃, hbytes]
      simp

/-- Interleaved varints are read back as they were written, and the reader stops after them. -/
theorem readInterleavedVarints_of_at {r : BitMemoryReader} {values : List (BitVec 32)}
    {rest : List Bool} (h : r.At (interleavedVarints values ++ rest)) :
    (r.readInterleavedVarints values.length).1 = values ∧
      (r.readInterleavedVarints values.length).2.At rest ∧
      (r.readInterleavedVarints values.length).2.position =
        r.position + (interleavedVarints values).length ∧
      (r.readInterleavedVarints values.length).2.finishedRegion.data = r.finishedRegion.data := by
  rw [interleavedVarints, List.append_assoc] at h
  have hfields : values.flatMap (fun value => bitsOf kVarintBits (varintField value)) =
      (values.map varintField).flatMap (bitsOf kVarintBits) := by
    simp [List.flatMap_map]
  have hlen : (values.flatMap (fun value => bitsOf kVarintBits (varintField value))).length =
      values.length * kVarintBits := by
    simp [List.length_flatMap, Nat.mul_comm]
  -- the one load of all four-bit fields
  have hread := h.left
  have hnext := h.right
  unfold At at hread
  rw [hlen] at hnext
  have hdata : (r.readBits (values.length * kVarintBits)).1 =
      valueOf (values.flatMap fun value => bitsOf kVarintBits (varintField value)) := by
    simp only [readBits, readRegion, BitMemoryRegion.loadBits, BitMemoryRegion.subregion,
      Nat.add_zero]
    rw [← hlen, show r.finishedRegion.bitStart + r.finishedRegion.bitSize = r.position from rfl,
      hread]
  -- splitting the load gives back each field
  have hsplit : ((List.range values.length).map fun i =>
      bitFieldExtract (r.readBits (values.length * kVarintBits)).1 (i * kVarintBits) kVarintBits) =
      values.map varintField := by
    apply List.ext_getElem (by simp)
    intro i h₁ h₂
    have hi : i < values.length := by simpa using h₂
    simp only [List.getElem_map, List.getElem_range, hdata, hfields, bitFieldExtract,
      Nat.mul_comm i kVarintBits, valueOf_flatMap_bitsOf]
    rw [List.getD_eq_getElem _ _ (by simpa using h₂), List.getElem_map,
      Nat.mod_eq_of_lt (varintField_lt values[i])]
  simp only [readInterleavedVarints]
  rw [hsplit]
  obtain ⟨h₁, h₂, h₃, h₄⟩ := readLargeValues_of_at hnext
  refine ⟨h₁, h₂, ?_, h₄⟩
  rw [readBits_snd, h₃, position_readRegion, interleavedVarints, List.length_append, hlen]
  omega

end BitMemoryReader

end Art
