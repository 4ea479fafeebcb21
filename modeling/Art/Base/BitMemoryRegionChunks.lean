import Art.Base.BitMemoryRegion
import Art.Lib.BitChunks
import Mathlib.Data.List.Find

/-!
# Word-sized chunks of a bit memory region

`libartbase/base/bit_memory_region.h`: `PopCount`, `HasAllBitsClear`, `Equals`, `Compare` and
`CopyBits`/`AndBits`/`OrBits`/`XorBits` go over a region with `VisitChunks`, which reads it as
`size_t` words aligned to the region's own word boundaries: a partial leading chunk up to the first
boundary, whole words, and a masked trailing chunk. The other operand is read with `LoadBits` at
the same offsets, and a chunk is written back with `StoreChunk`: a whole aligned word, or
`StoreBits`, which writes byte by byte and keeps the bits of each byte outside the field.

The chunks lie end to end over the region (`covers_chunks`), each read from within one word; the
value of a chunk is the region's bits there (`value_eq_loadBits`). So each chunked operation is its
bit-by-bit meaning, whatever the alignment of the region.
-/

namespace Art

namespace BitMemoryRegion

open BitStream BitChunks

/-- `BitSizeOf<size_t>()`. -/
def kChunkSize : Nat := 64

/-- The `size_t` word at word index `i` of the data, least significant bit first. -/
def loadWord (data : List Bool) (i : Nat) : BitVec 64 :=
  BitVec.ofNat 64 (valueOf (slice data (kChunkSize * i) kChunkSize))

/-- A chunk that `VisitChunks` visits: at `offset` in the region, of `numBits` bits; its value is
the word at `wordIndex` shifted right by `shift`, masked to its bits where `masked`. -/
structure Chunk where
  offset : Nat
  numBits : Nat
  wordIndex : Nat
  shift : Nat
  masked : Bool
  deriving DecidableEq, Repr

/-- The value `VisitChunks` passes for a chunk, read from the data as they are when it is
visited. -/
def Chunk.value (data : List Bool) (c : Chunk) : BitVec 64 :=
  let value := loadWord data c.wordIndex >>> c.shift
  if c.masked then value &&& ~~~(BitVec.allOnes 64 <<< c.numBits) else value

/-- The loop of `VisitChunks` over whole words: `n` chunks from `offset`, the first at word
`wordIndex`. -/
def fullChunks (offset wordIndex : Nat) : Nat → List Chunk
  | 0 => []
  | n + 1 =>
    ⟨offset, kChunkSize, wordIndex, 0, false⟩ :: fullChunks (offset + kChunkSize) (wordIndex + 1) n

/-- The chunks of `VisitChunks` after the leading one: from `offset` in the region, the first at
word `wordIndex`, when `remainingBits` remain: the whole words, then a masked trailing chunk. -/
def wordChunks (offset wordIndex remainingBits : Nat) : List Chunk :=
  let full := remainingBits / kChunkSize
  fullChunks offset wordIndex full ++
    (if remainingBits % kChunkSize ≠ 0 then
      [⟨offset + full * kChunkSize, remainingBits % kChunkSize, wordIndex + full, 0, true⟩]
    else [])

/-- The chunks of `VisitChunks`, in the order it visits them: where the region does not start at
a word boundary, a leading chunk up to it, masked where the region ends before it. -/
def chunks (r : BitMemoryRegion) : List Chunk :=
  if r.bitSize = 0 then [] else
  let wordIndex := r.bitStart / kChunkSize
  let shift := r.bitStart % kChunkSize
  if shift ≠ 0 then
    let leadingBits := kChunkSize - shift
    if leadingBits > r.bitSize then
      ⟨0, r.bitSize, wordIndex, shift, true⟩ :: wordChunks r.bitSize (wordIndex + 1) 0
    else
      ⟨0, leadingBits, wordIndex, shift, false⟩ ::
        wordChunks leadingBits (wordIndex + 1) (r.bitSize - leadingBits)
  else wordChunks 0 wordIndex r.bitSize

/-- `VisitChunks(visitor)`: whether the visitor returns `true` for every chunk; it stops at the
first that it does not. -/
def visitChunks (r : BitMemoryRegion) (visitor : Nat → Nat → BitVec 64 → Bool) : Bool :=
  r.chunks.all fun c => visitor c.offset c.numBits (c.value r.data)

/-- `PopCount()` as the source computes it, `POPCOUNT` of each chunk; `popCount` counts bit by
bit. -/
def popCountChunks (r : BitMemoryRegion) : Nat :=
  (r.chunks.map fun c => (c.value r.data).cpop.toNat).sum

def hasAllBitsClear (r : BitMemoryRegion) : Bool := r.visitChunks fun _ _ value => value == 0

def hasSomeBitSet (r : BitMemoryRegion) : Bool := !r.hasAllBitsClear

def equals (lhs rhs : BitMemoryRegion) : Bool :=
  if lhs.bitSize ≠ rhs.bitSize then false
  else lhs.visitChunks fun offset numBits lhsValue =>
    lhsValue == BitVec.ofNat 64 (rhs.loadBits offset numBits)

/-- `Compare(lhs, rhs)`: the visitor stops at the first chunk that differs from `rhs`, and decides
by the lowest bit where they differ. -/
def compare (lhs rhs : BitMemoryRegion) : Int :=
  if lhs.bitSize ≠ rhs.bitSize then (if lhs.bitSize < rhs.bitSize then -1 else 1)
  else
    match lhs.chunks.find? fun c =>
        c.value lhs.data != BitVec.ofNat 64 (rhs.loadBits c.offset c.numBits) with
    | none => 0
    | some c =>
      let lhsValue := c.value lhs.data
      let rhsValue := BitVec.ofNat 64 (rhs.loadBits c.offset c.numBits)
      let bit := (lhsValue ^^^ rhsValue).ctz.toNat
      if (rhsValue >>> bit) &&& 1#64 ≠ 0#64 then 1 else -1

/-! ### Where the chunks lie -/

/-- The piece of the region a chunk covers. -/
def Chunk.piece (c : Chunk) : Nat × Nat := (c.offset, c.numBits)

/-- A chunk of a region whose bits start at `start` in the data: it is read from within one word,
at the region's bits of the chunk, and an unmasked chunk runs to the end of its word. -/
structure Chunk.At (start : Nat) (c : Chunk) : Prop where
  pos : kChunkSize * c.wordIndex + c.shift = start + c.offset
  fits : c.shift + c.numBits ≤ kChunkSize
  whole : c.masked = false → c.shift + c.numBits = kChunkSize

/-- The value of a chunk is the region's bits of the chunk. -/
theorem Chunk.At.value_eq {start : Nat} {c : Chunk} (h : c.At start) (data : List Bool) :
    c.value data = BitVec.ofNat 64 (valueOf (slice data (start + c.offset) c.numBits)) := by
  have hfits := h.fits
  have hpos := h.pos
  unfold kChunkSize at hfits hpos
  apply BitVec.eq_of_getLsbD_eq
  intro i hi
  rw [getLsbD_ofNat_valueOf (by simp; omega), getD_slice]
  have hword : (loadWord data c.wordIndex >>> c.shift).getLsbD i =
      (decide (c.shift + i < 64) && data.getD (start + c.offset + i) false) := by
    rw [BitVec.getLsbD_ushiftRight, loadWord, getLsbD_ofNat_valueOf (by simp [kChunkSize]),
      getD_slice]
    unfold kChunkSize
    rw [show 64 * c.wordIndex + (c.shift + i) = start + c.offset + i by omega]
  unfold Chunk.value
  cases hm : c.masked
  · -- an unmasked chunk has exactly the word's bits from its shift on
    have hwhole := h.whole hm
    unfold kChunkSize at hwhole
    simp only [Bool.false_eq_true, if_false, hword]
    congr 1
    exact decide_eq_decide.2 ⟨fun _ => by omega, fun _ => by omega⟩
  · simp only [if_true, BitVec.getLsbD_and, hword, BitVec.getLsbD_not, BitVec.getLsbD_shiftLeft,
      BitVec.getLsbD_allOnes]
    by_cases hin : i < c.numBits
    · simp [hin, hi, show c.shift + i < 64 by omega]
    · simp [hin, hi, show i - c.numBits < 64 by omega]

theorem mem_fullChunks {offset wordIndex n : Nat} {c : Chunk} :
    c ∈ fullChunks offset wordIndex n →
      ∃ i < n, c = ⟨offset + i * kChunkSize, kChunkSize, wordIndex + i, 0, false⟩ := by
  induction n generalizing offset wordIndex with
  | zero => exact fun h => absurd h List.not_mem_nil
  | succ n ih =>
    intro h
    rcases List.mem_cons.1 h with rfl | h
    · exact ⟨0, Nat.succ_pos n, by simp⟩
    · obtain ⟨i, hi, rfl⟩ := ih h
      refine ⟨i + 1, by omega, ?_⟩
      rw [Chunk.mk.injEq]
      exact ⟨by rw [Nat.succ_mul]; omega, rfl, by omega, rfl, rfl⟩

theorem covers_fullChunks (offset wordIndex n : Nat) :
    Covers kChunkSize ((fullChunks offset wordIndex n).map Chunk.piece) offset
      (offset + n * kChunkSize) := by
  induction n generalizing offset wordIndex with
  | zero => simp [fullChunks, Covers]
  | succ n ih =>
    refine ⟨rfl, show 0 < kChunkSize by decide, Nat.le_refl _, ?_⟩
    show Covers _ _ (offset + kChunkSize) (offset + (n + 1) * kChunkSize)
    have h := ih (offset + kChunkSize) (wordIndex + 1)
    rwa [Nat.succ_mul, Nat.add_comm (n * kChunkSize), ← Nat.add_assoc]

theorem covers_wordChunks (offset wordIndex remainingBits : Nat) :
    Covers kChunkSize ((wordChunks offset wordIndex remainingBits).map Chunk.piece) offset
      (offset + remainingBits) := by
  unfold wordChunks
  have hfull := covers_fullChunks offset wordIndex (remainingBits / kChunkSize)
  have hdiv := Nat.div_add_mod remainingBits kChunkSize
  rw [List.map_append]
  apply hfull.append
  rw [Nat.mul_comm kChunkSize] at hdiv
  split_ifs with hmod
  · have hlt := Nat.mod_lt remainingBits (show 0 < kChunkSize by decide)
    refine ⟨rfl, Nat.pos_of_ne_zero hmod, hlt.le, ?_⟩
    show _ + remainingBits % kChunkSize = _
    omega
  · show _ = _
    omega

theorem at_wordChunks {start offset wordIndex : Nat} (remainingBits : Nat)
    (h : kChunkSize * wordIndex = start + offset) :
    ∀ c ∈ wordChunks offset wordIndex remainingBits, c.At start := by
  intro c hc
  unfold wordChunks at hc
  rcases List.mem_append.1 hc with hc | hc
  · obtain ⟨i, -, rfl⟩ := mem_fullChunks hc
    refine ⟨?_, by simp, fun _ => by simp⟩
    show kChunkSize * (wordIndex + i) + 0 = start + (offset + i * kChunkSize)
    rw [Nat.mul_add, h, Nat.mul_comm]
    omega
  · split_ifs at hc with hmod
    · rw [List.mem_singleton] at hc
      subst hc
      have hlt := Nat.mod_lt remainingBits (show 0 < kChunkSize by decide)
      refine ⟨?_, ?_, fun h => by cases h⟩
      · show kChunkSize * (wordIndex + remainingBits / kChunkSize) + 0 =
          start + (offset + remainingBits / kChunkSize * kChunkSize)
        rw [Nat.mul_add, h, Nat.mul_comm]
        omega
      · show 0 + remainingBits % kChunkSize ≤ kChunkSize
        omega
    · exact absurd hc List.not_mem_nil

/-- The chunks lie end to end over the region. -/
theorem covers_chunks (r : BitMemoryRegion) :
    Covers kChunkSize (r.chunks.map Chunk.piece) 0 r.bitSize := by
  have hlt := Nat.mod_lt r.bitStart (show 0 < kChunkSize by decide)
  unfold chunks
  dsimp only
  split_ifs with hzero hshift hlead
  · exact hzero.symm
  · -- the leading chunk is the whole region
    refine ⟨rfl, Nat.pos_of_ne_zero hzero, show r.bitSize ≤ kChunkSize by omega, ?_⟩
    simpa [Chunk.piece] using covers_wordChunks r.bitSize (r.bitStart / kChunkSize + 1) 0
  · -- the leading chunk runs to the first word boundary
    have hlead' : kChunkSize - r.bitStart % kChunkSize ≤ r.bitSize := Nat.le_of_not_lt hlead
    refine ⟨rfl, show 0 < kChunkSize - r.bitStart % kChunkSize by omega,
      show kChunkSize - r.bitStart % kChunkSize ≤ kChunkSize by omega, ?_⟩
    have h := covers_wordChunks (kChunkSize - r.bitStart % kChunkSize)
      (r.bitStart / kChunkSize + 1) (r.bitSize - (kChunkSize - r.bitStart % kChunkSize))
    rw [Nat.add_sub_cancel' hlead'] at h
    simpa [Chunk.piece] using h
  · simpa using covers_wordChunks 0 (r.bitStart / kChunkSize) r.bitSize

/-- Every chunk is read from within one word, at the region's bits of the chunk. -/
theorem at_chunks (r : BitMemoryRegion) : ∀ c ∈ r.chunks, c.At r.bitStart := by
  have hdiv := Nat.div_add_mod r.bitStart kChunkSize
  have hlt := Nat.mod_lt r.bitStart (show 0 < kChunkSize by decide)
  unfold chunks
  dsimp only
  split_ifs with hzero hshift hlead
  · exact fun c hc => absurd hc List.not_mem_nil
  · intro c hc
    rcases List.mem_cons.1 hc with rfl | hc
    · refine ⟨by simpa using hdiv, show r.bitStart % kChunkSize + r.bitSize ≤ kChunkSize by omega,
        fun h => by cases h⟩
    · -- no bits remain after a leading chunk that holds the whole region
      exact absurd hc (by simp [wordChunks, fullChunks])
  · intro c hc
    rcases List.mem_cons.1 hc with rfl | hc
    · have hfit : r.bitStart % kChunkSize + (kChunkSize - r.bitStart % kChunkSize) = kChunkSize := by
        omega
      exact ⟨by simpa using hdiv, Nat.le_of_eq hfit, fun _ => hfit⟩
    · exact at_wordChunks _ (by rw [Nat.mul_add]; omega) c hc
  · exact at_wordChunks r.bitSize (by simp at hshift; omega)

/-- The value of a chunk is `LoadBits` of the region at the chunk. -/
theorem value_eq_loadBits (r : BitMemoryRegion) {c : Chunk} (hc : c ∈ r.chunks) :
    c.value r.data = BitVec.ofNat 64 (r.loadBits c.offset c.numBits) :=
  (at_chunks r c hc).value_eq r.data

/-! ### Reading operations -/

theorem Chunk.At.numBits_le {start : Nat} {c : Chunk} (h : c.At start) : c.numBits ≤ 64 := by
  have hfits := h.fits
  unfold kChunkSize at hfits
  omega

/-- Read at any start, the chunks of a region read the window of the region's size there, in
order. -/
theorem flatMap_chunks (r : BitMemoryRegion) (data : List Bool) (start : Nat) :
    r.chunks.flatMap (fun c => slice data (start + c.offset) c.numBits) =
      slice data start r.bitSize := by
  have h := flatMap_slice_of_covers data start (covers_chunks r)
  rw [List.flatMap_map] at h
  simpa [Chunk.piece] using h

/-- The bits of a chunk are the window's bits at the chunk. -/
theorem slice_chunk (r : BitMemoryRegion) {c : Chunk} (hc : c ∈ r.chunks) (data : List Bool)
    (start : Nat) :
    slice data (start + c.offset) c.numBits = slice (slice data start r.bitSize) c.offset c.numBits := by
  have hend : c.offset + c.numBits ≤ r.bitSize :=
    ((covers_chunks r).mem _ (List.mem_map_of_mem hc)).2.2.2
  rw [slice_slice _ _ _ _ _ hend]

theorem mem_bits_iff (r : BitMemoryRegion) :
    true ∈ r.bits ↔ ∃ i < r.bitSize, r.loadBit i = true := by
  rw [List.mem_iff_getElem]
  constructor
  · rintro ⟨i, hi, hget⟩
    have hi' : i < r.bitSize := by simpa using hi
    exact ⟨i, hi', by rw [loadBit_eq r hi', List.getD_eq_getElem _ _ hi, hget]⟩
  · rintro ⟨i, hi, hbit⟩
    refine ⟨i, by simpa using hi, ?_⟩
    rwa [loadBit_eq r hi, List.getD_eq_getElem _ _ (by simpa using hi)] at hbit

theorem bits_eq_iff (lhs rhs : BitMemoryRegion) :
    lhs.bits = rhs.bits ↔
      lhs.bitSize = rhs.bitSize ∧ ∀ i < lhs.bitSize, lhs.loadBit i = rhs.loadBit i := by
  constructor
  · intro h
    have hsize : lhs.bitSize = rhs.bitSize := by rw [← length_bits, h, length_bits]
    refine ⟨hsize, fun i hi => ?_⟩
    rw [loadBit_eq lhs hi, loadBit_eq rhs (hsize ▸ hi), h]
  · rintro ⟨hsize, h⟩
    apply ext_getD (by simp [hsize])
    intro i hi
    rw [length_bits] at hi
    rw [← loadBit_eq lhs hi, ← loadBit_eq rhs (hsize ▸ hi), h i hi]

/-- `PopCount()` counts the bits of the region set. -/
theorem popCountChunks_eq (r : BitMemoryRegion) : r.popCountChunks = r.popCount := by
  have hcount : ∀ c ∈ r.chunks, (c.value r.data).cpop.toNat =
      (slice r.data (r.bitStart + c.offset) c.numBits).count true := fun c hc => by
    rw [(at_chunks r c hc).value_eq,
      toNat_cpop_ofNat_valueOf (by simpa using (at_chunks r c hc).numBits_le)]
  rw [popCountChunks, List.map_congr_left hcount, popCount, bits,
    ← flatMap_chunks r r.data r.bitStart, List.count_flatMap]
  rfl

/-- `HasAllBitsClear()` holds exactly when no bit of the region is set. -/
theorem hasAllBitsClear_iff (r : BitMemoryRegion) :
    r.hasAllBitsClear = true ↔ true ∉ r.bits := by
  rw [hasAllBitsClear, visitChunks, List.all_eq_true, bits,
    ← flatMap_chunks r r.data r.bitStart, List.mem_flatMap, not_exists]
  simp only [beq_iff_eq, not_and]
  refine forall_congr' fun c => forall_congr' fun hc => ?_
  rw [(at_chunks r c hc).value_eq]
  exact ofNat_valueOf_eq_zero_iff (by simpa using (at_chunks r c hc).numBits_le)

/-- `Equals(lhs, rhs)` holds exactly when the two regions have the same bits. -/
theorem equals_iff (lhs rhs : BitMemoryRegion) : equals lhs rhs = true ↔ lhs.bits = rhs.bits := by
  unfold equals
  by_cases hsize : lhs.bitSize = rhs.bitSize
  · rw [if_neg (not_not.2 hsize), visitChunks, List.all_eq_true]
    simp only [beq_iff_eq]
    -- a chunk's word is the other region's there exactly when their bits there are equal
    have hchunk : ∀ c ∈ lhs.chunks,
        c.value lhs.data = BitVec.ofNat 64 (rhs.loadBits c.offset c.numBits) ↔
          slice lhs.data (lhs.bitStart + c.offset) c.numBits =
            slice rhs.data (rhs.bitStart + c.offset) c.numBits := fun c hc => by
      rw [(at_chunks lhs c hc).value_eq, loadBits,
        ofNat_valueOf_inj (by simpa using (at_chunks lhs c hc).numBits_le) (by simp)]
    rw [forall₂_congr hchunk]
    constructor
    · intro h
      rw [bits, bits, ← flatMap_chunks lhs lhs.data lhs.bitStart, ← hsize,
        ← flatMap_chunks lhs rhs.data rhs.bitStart]
      exact List.flatMap_congr h
    · intro h c hc
      rw [slice_chunk lhs hc, slice_chunk lhs hc rhs.data, ← bits, hsize, ← bits, h]
  · rw [if_pos hsize]
    exact iff_of_false (by decide) fun h => hsize (by rw [← length_bits, h, length_bits])

/-- `Compare(lhs, rhs)` is `compareBits` of the regions' bits: it depends on the bits alone, not
on where the regions start or how they are split into chunks. -/
theorem compare_eq_compareBits (lhs rhs : BitMemoryRegion) :
    compare lhs rhs = compareBits lhs.bits rhs.bits := by
  unfold compare compareBits
  simp only [length_bits]
  by_cases hsize : lhs.bitSize = rhs.bitSize
  · rw [if_neg (not_not.2 hsize), if_neg (not_not.2 hsize)]
    have hword : ∀ c ∈ lhs.chunks, c.value lhs.data =
        BitVec.ofNat 64 (valueOf (slice lhs.data (lhs.bitStart + c.offset) c.numBits)) :=
      fun c hc => (at_chunks lhs c hc).value_eq lhs.data
    have hlen : ∀ c ∈ lhs.chunks, (slice lhs.data (lhs.bitStart + c.offset) c.numBits).length ≤ 64 :=
      fun c hc => by simpa using (at_chunks lhs c hc).numBits_le
    -- the chunk where the words first differ is the one where the bits first differ
    have hfind : (lhs.chunks.find? fun c =>
          c.value lhs.data != BitVec.ofNat 64 (rhs.loadBits c.offset c.numBits)) =
        lhs.chunks.find? fun c => slice lhs.data (lhs.bitStart + c.offset) c.numBits !=
          slice rhs.data (rhs.bitStart + c.offset) c.numBits := by
      refine List.find?_congr fun c hc => ?_
      rw [hword c hc, loadBits, Bool.eq_iff_iff, bne_iff_ne, bne_iff_ne, ne_eq, ne_eq,
        ofNat_valueOf_inj (hlen c hc) (by simp)]
    rw [hfind, bits, bits, ← flatMap_chunks lhs lhs.data lhs.bitStart, ← hsize,
      ← flatMap_chunks lhs rhs.data rhs.bitStart, firstDiff_flatMap _ _ _ fun c _ => by simp]
    cases hc : lhs.chunks.find? fun c => slice lhs.data (lhs.bitStart + c.offset) c.numBits !=
        slice rhs.data (rhs.bitStart + c.offset) c.numBits with
    | none => rfl
    | some c =>
      -- the lowest bit where the words differ decides, as the first differing bit does
      have hmem := List.mem_of_find?_eq_some hc
      have hne := List.find?_some hc
      dsimp only
      rw [hword c hmem, loadBits]
      exact firstDiff_eq_ctz (hlen c hmem) (by simp) (by simpa using hne)
  · rw [if_pos hsize, if_pos hsize]

/-! ### Stores -/

/-- `data_[index]`. -/
def loadByte (data : List Bool) (index : Nat) : BitVec 8 :=
  BitVec.ofNat 8 (valueOf (slice data (kBitsPerByte * index) kBitsPerByte))

/-- `data_[index] = byte`. -/
def storeByte (data : List Bool) (index : Nat) (byte : BitVec 8) : List Bool :=
  overwrite data (kBitsPerByte * index) (bitsOf kBitsPerByte byte.toNat)

/-- The loop of `StoreBits` over the bytes after the first: the bits of byte `index + i` in the
field are cleared and set from `value`. -/
def storeBitsLoop (index : Nat) (mask value : BitVec 64) (bitLength : Nat) (data : List Bool)
    (i finishedBits : Nat) : List Bool :=
  if finishedBits < bitLength then
    let byte := loadByte data (index + i) &&& (~~~(mask >>> finishedBits)).setWidth 8
    let byte := byte ||| (value >>> finishedBits).setWidth 8
    storeBitsLoop index mask value bitLength (storeByte data (index + i) byte) (i + 1)
      (finishedBits + kBitsPerByte)
  else data
termination_by bitLength - finishedBits
decreasing_by
  unfold kBitsPerByte
  omega

/-- `StoreBits(bit_offset, value, bit_length)`, byte by byte, so as not to race with other threads
on bytes outside the region. -/
def storeBits (r : BitMemoryRegion) (bitOffset : Nat) (value : BitVec 64) (bitLength : Nat) :
    BitMemoryRegion :=
  if bitLength = 0 then r else
  let mask := BitVec.allOnes 64 >>> (kChunkSize - bitLength)
  let index := (r.bitStart + bitOffset) / kBitsPerByte
  let shift := (r.bitStart + bitOffset) % kBitsPerByte
  let byte := loadByte r.data index &&& (~~~(mask <<< shift)).setWidth 8
  let byte := byte ||| (value <<< shift).setWidth 8
  let data := storeByte r.data index byte
  { r with data := storeBitsLoop index mask value bitLength data 1 (kBitsPerByte - shift) }

/-- `StoreChunk`: a whole chunk is stored as one aligned `size_t`. -/
def storeChunk (r : BitMemoryRegion) (bitOffset : Nat) (value : BitVec 64) (bitLength : Nat) :
    BitMemoryRegion :=
  if bitLength = kChunkSize then
    let index := (r.bitStart + bitOffset) / kBitsPerByte
    { r with data := overwrite r.data (kBitsPerByte * index) (bitsOf kChunkSize value.toNat) }
  else r.storeBits bitOffset value bitLength

/-- The visitor of `CopyBits`, `AndBits`, `OrBits` and `XorBits`: each chunk is stored back as
`op` of its value and the bits of `src` at its offset. -/
def combineBits (op : BitVec 64 → BitVec 64 → BitVec 64) (dst src : BitMemoryRegion) :
    BitMemoryRegion :=
  dst.chunks.foldl (fun d c =>
    d.storeChunk c.offset (op (c.value d.data) (BitVec.ofNat 64 (src.loadBits c.offset c.numBits)))
      c.numBits) dst

def copyBits (dst src : BitMemoryRegion) : BitMemoryRegion :=
  combineBits (fun _ srcValue => srcValue) dst src

def andBits (dst src : BitMemoryRegion) : BitMemoryRegion := combineBits (· &&& ·) dst src

def orBits (dst src : BitMemoryRegion) : BitMemoryRegion := combineBits (· ||| ·) dst src

def xorBits (dst src : BitMemoryRegion) : BitMemoryRegion := combineBits (· ^^^ ·) dst src

/-! ### What the stores write -/

theorem getLsbD_loadByte (data : List Bool) (index : Nat) {k : Nat} (hk : k < kBitsPerByte) :
    (loadByte data index).getLsbD k = data.getD (kBitsPerByte * index + k) false := by
  rw [loadByte, getLsbD_ofNat_valueOf (by simp [kBitsPerByte]), getD_slice, decide_eq_true hk,
    Bool.true_and]

theorem getD_storeByte (data : List Bool) (index : Nat) (byte : BitVec 8) (j : Nat) :
    (storeByte data index byte).getD j false =
      if kBitsPerByte * index ≤ j ∧ j < kBitsPerByte * index + kBitsPerByte ∧ j < data.length
      then byte.getLsbD (j - kBitsPerByte * index) else data.getD j false := by
  rw [storeByte, getD_overwrite, length_bitsOf]
  split_ifs with h
  · rw [getD_bitsOf, decide_eq_true (by omega), Bool.true_and]
    rfl
  · rfl

/-- A byte store that writes the field's bits within byte `index` and keeps its other bits extends
the part of the field written so far to the end of the byte. Before the store the field is written
up to the byte, or, for the first byte, not at all. -/
theorem storeByte_overwrite {data : List Bool} {pos a len index v : Nat} {byte : BitVec 8}
    (ha : a ≤ len) (hstart : pos + a = max (kBitsPerByte * index) pos)
    (hbyte : ∀ k < kBitsPerByte, byte.getLsbD k =
      if pos ≤ kBitsPerByte * index + k ∧ kBitsPerByte * index + k < pos + len
      then v.testBit (kBitsPerByte * index + k - pos)
      else (overwrite data pos (bitsOf a v)).getD (kBitsPerByte * index + k) false) :
    storeByte (overwrite data pos (bitsOf a v)) index byte =
      overwrite data pos (bitsOf (min (kBitsPerByte * index + kBitsPerByte - pos) len) v) := by
  apply ext_getD (by simp [storeByte])
  intro j _
  rw [getD_storeByte, getD_overwrite, getD_overwrite, length_overwrite, length_bitsOf,
    length_bitsOf]
  unfold kBitsPerByte at *
  by_cases hj : 8 * index ≤ j ∧ j < 8 * index + 8 ∧ j < data.length
  · -- within the byte, the field's bits and the data's elsewhere
    rw [if_pos hj, hbyte (j - 8 * index) (by omega), Nat.add_sub_cancel' hj.1]
    by_cases hin : pos ≤ j ∧ j < pos + len
    · rw [if_pos hin, if_pos (by omega), getD_bitsOf, decide_eq_true (by omega), Bool.true_and]
    · rw [if_neg hin, if_neg (by omega), getD_overwrite, if_neg (by simp only [length_bitsOf]; omega)]
  · -- outside the byte, what was written before
    rw [if_neg hj]
    by_cases hin : pos ≤ j ∧ j < pos + a ∧ j < data.length
    · rw [if_pos hin, if_pos (by omega), getD_bitsOf, getD_bitsOf, decide_eq_true (by omega),
        decide_eq_true (by omega)]
    · rw [if_neg hin, if_neg (by omega)]

section StoreBits

variable {len : Nat} {mask value : BitVec 64}

/-- The first byte of `StoreBits`, the byte of `pos`: its bits from `pos` on are the field's first
bits. -/
theorem getLsbD_firstByte (data : List Bool) (pos : Nat)
    (hmask : ∀ k, mask.getLsbD k = decide (k < len)) (hv : ∀ k, len ≤ k → value.getLsbD k = false)
    {k : Nat} (hk : k < kBitsPerByte) :
    (loadByte data (pos / kBitsPerByte) &&& (~~~(mask <<< (pos % kBitsPerByte))).setWidth 8 |||
        (value <<< (pos % kBitsPerByte)).setWidth 8).getLsbD k =
      if pos ≤ kBitsPerByte * (pos / kBitsPerByte) + k ∧
        kBitsPerByte * (pos / kBitsPerByte) + k < pos + len
      then value.toNat.testBit (kBitsPerByte * (pos / kBitsPerByte) + k - pos)
      else data.getD (kBitsPerByte * (pos / kBitsPerByte) + k) false := by
  simp only [BitVec.getLsbD_or, BitVec.getLsbD_and, getLsbD_loadByte data _ hk,
    BitVec.getLsbD_setWidth, BitVec.getLsbD_not, BitVec.getLsbD_shiftLeft, hmask]
  rw [← BitVec.getLsbD]
  have hdiv := Nat.div_add_mod pos kBitsPerByte
  unfold kBitsPerByte at *
  by_cases hin : pos % 8 ≤ k ∧ k - pos % 8 < len
  · rw [if_pos (by omega), show 8 * (pos / 8) + k - pos = k - pos % 8 by omega]
    simp [hk, show k < 64 by omega, show ¬k < pos % 8 by omega, hin.2]
  · rw [if_neg (by omega)]
    by_cases hks : k < pos % 8
    · simp [hk, show k < 64 by omega, hks]
    · simp [hk, show k < 64 by omega, hks, hv (k - pos % 8) (by omega),
        show ¬k - pos % 8 < len by omega]

/-- A byte of the loop of `StoreBits`, `finishedBits` into the field: its bits are the field's
next bits, up to the end of the field. -/
theorem getLsbD_loopByte (data : List Bool) (index : Nat) {finishedBits : Nat}
    (hmask : ∀ k, mask.getLsbD k = decide (k < len)) (hv : ∀ k, len ≤ k → value.getLsbD k = false)
    {pos : Nat} (hpos : pos + finishedBits = kBitsPerByte * index) {k : Nat}
    (hk : k < kBitsPerByte) :
    (loadByte data index &&& (~~~(mask >>> finishedBits)).setWidth 8 |||
        (value >>> finishedBits).setWidth 8).getLsbD k =
      if pos ≤ kBitsPerByte * index + k ∧ kBitsPerByte * index + k < pos + len
      then value.toNat.testBit (kBitsPerByte * index + k - pos)
      else data.getD (kBitsPerByte * index + k) false := by
  have hk8 : k < 8 := hk
  simp only [BitVec.getLsbD_or, BitVec.getLsbD_and, getLsbD_loadByte data index hk,
    BitVec.getLsbD_setWidth, BitVec.getLsbD_not, BitVec.getLsbD_ushiftRight, hmask]
  rw [← BitVec.getLsbD, show kBitsPerByte * index + k - pos = finishedBits + k by omega]
  by_cases hin : finishedBits + k < len
  · rw [if_pos (by omega)]
    simp [hk8, show k < 64 by omega, hin]
  · rw [if_neg (by omega)]
    simp [hk8, show k < 64 by omega, hin, hv (finishedBits + k) (by omega)]

theorem storeByte_first (data : List Bool) (pos : Nat)
    (hmask : ∀ k, mask.getLsbD k = decide (k < len)) (hv : ∀ k, len ≤ k → value.getLsbD k = false) :
    storeByte data (pos / kBitsPerByte)
        (loadByte data (pos / kBitsPerByte) &&& (~~~(mask <<< (pos % kBitsPerByte))).setWidth 8 |||
          (value <<< (pos % kBitsPerByte)).setWidth 8) =
      overwrite data pos (bitsOf (min (kBitsPerByte - pos % kBitsPerByte) len) value.toNat) := by
  have hdiv := Nat.div_add_mod pos kBitsPerByte
  have hnil : overwrite data pos (bitsOf 0 value.toNat) = data := overwrite_nil data pos
  have h := @storeByte_overwrite data pos 0 len (pos / kBitsPerByte) value.toNat _ (Nat.zero_le _)
    (by unfold kBitsPerByte at *; omega) fun k hk => by
      rw [hnil]
      exact getLsbD_firstByte data pos hmask hv hk
  rw [hnil] at h
  rw [h]
  congr 3
  unfold kBitsPerByte at *
  omega

/-- The loop of `StoreBits` writes the rest of the field, one byte at a time, from where the
first byte stopped. -/
theorem storeBitsLoop_eq (index : Nat) (hmask : ∀ k, mask.getLsbD k = decide (k < len))
    (hv : ∀ k, len ≤ k → value.getLsbD k = false) (data : List Bool) (pos : Nat) :
    ∀ d i finishedBits, d = overwrite data pos (bitsOf (min finishedBits len) value.toNat) →
      pos + finishedBits = kBitsPerByte * (index + i) →
      storeBitsLoop index mask value len d i finishedBits =
        overwrite data pos (bitsOf len value.toNat) := by
  intro d i finishedBits
  induction d, i, finishedBits using storeBitsLoop.induct index mask value len with
  | case1 d i finishedBits hlt _ _ ih =>
    -- the invariant: the field is written up to the byte the loop is at
    intro hd hpos
    rw [storeBitsLoop, if_pos hlt]
    dsimp only at ih ⊢
    rw [Nat.min_eq_left hlt.le] at hd
    subst hd
    refine ih ?_ (by rw [← Nat.add_assoc, hpos, ← Nat.add_assoc, Nat.mul_add_one])
    rw [storeByte_overwrite hlt.le (by omega) fun k hk =>
      getLsbD_loopByte _ (index + i) hmask hv hpos hk]
    congr 3
    omega
  | case2 d i finishedBits hge =>
    intro hd _
    rw [storeBitsLoop, if_neg hge, hd, Nat.min_eq_right (by omega)]

end StoreBits

@[simp] theorem bitStart_storeBits (r : BitMemoryRegion) (bitOffset : Nat) (value : BitVec 64)
    (bitLength : Nat) : (r.storeBits bitOffset value bitLength).bitStart = r.bitStart := by
  unfold storeBits
  split_ifs <;> rfl

@[simp] theorem bitSize_storeBits (r : BitMemoryRegion) (bitOffset : Nat) (value : BitVec 64)
    (bitLength : Nat) : (r.storeBits bitOffset value bitLength).bitSize = r.bitSize := by
  unfold storeBits
  split_ifs <;> rfl

/-- `StoreBits` writes the `bitLength` bits of `value` at the offset, and nothing else. -/
theorem storeBits_data (r : BitMemoryRegion) (bitOffset : Nat) (value : BitVec 64)
    {bitLength : Nat} (hlen : bitLength ≤ kChunkSize) (hv : value.toNat < 2 ^ bitLength) :
    (r.storeBits bitOffset value bitLength).data =
      overwrite r.data (r.bitStart + bitOffset) (bitsOf bitLength value.toNat) := by
  unfold storeBits
  split_ifs with h0
  · subst h0
    exact (overwrite_nil _ _).symm
  · dsimp only
    have hmask : ∀ k, (BitVec.allOnes 64 >>> (kChunkSize - bitLength)).getLsbD k =
        decide (k < bitLength) := fun k => by
      rw [BitVec.getLsbD_ushiftRight, BitVec.getLsbD_allOnes]
      unfold kChunkSize at *
      exact decide_eq_decide.2 (by omega)
    have hvbit : ∀ k, bitLength ≤ k → value.getLsbD k = false := fun k hk =>
      Nat.testBit_lt_two_pow (Nat.lt_of_lt_of_le hv (Nat.pow_le_pow_right (by decide) hk))
    rw [storeByte_first r.data _ hmask hvbit]
    have hdiv := Nat.div_add_mod (r.bitStart + bitOffset) kBitsPerByte
    exact storeBitsLoop_eq _ hmask hvbit r.data _ _ 1 _ rfl (by unfold kBitsPerByte at *; omega)

@[simp] theorem bitStart_storeChunk (r : BitMemoryRegion) (bitOffset : Nat) (value : BitVec 64)
    (bitLength : Nat) : (r.storeChunk bitOffset value bitLength).bitStart = r.bitStart := by
  unfold storeChunk
  split_ifs <;> simp

@[simp] theorem bitSize_storeChunk (r : BitMemoryRegion) (bitOffset : Nat) (value : BitVec 64)
    (bitLength : Nat) : (r.storeChunk bitOffset value bitLength).bitSize = r.bitSize := by
  unfold storeChunk
  split_ifs <;> simp

/-- `StoreChunk` writes the chunk's bits; a whole chunk is aligned to its word, so the word store
lands on the chunk. -/
theorem storeChunk_data (r : BitMemoryRegion) (bitOffset : Nat) (value : BitVec 64)
    {bitLength : Nat} (hlen : bitLength ≤ kChunkSize) (hv : value.toNat < 2 ^ bitLength)
    (halign : bitLength = kChunkSize → (r.bitStart + bitOffset) % kBitsPerByte = 0) :
    (r.storeChunk bitOffset value bitLength).data =
      overwrite r.data (r.bitStart + bitOffset) (bitsOf bitLength value.toNat) := by
  unfold storeChunk
  split_ifs with h
  · subst h
    dsimp only
    rw [Nat.mul_div_cancel' (Nat.dvd_of_mod_eq_zero (halign rfl))]
  · exact storeBits_data r bitOffset value hlen hv

/-! ### Copying and combining bits -/

/-- `res` is `dst` with each bit of the region set to `f` of the bits of `dst` and `src` there,
and every other bit of the data kept. -/
structure CombinesAs (f : Bool → Bool → Bool) (dst src res : BitMemoryRegion) : Prop where
  bitStart_eq : res.bitStart = dst.bitStart
  bitSize_eq : res.bitSize = dst.bitSize
  length_eq : res.data.length = dst.data.length
  loadBit_eq : ∀ i < dst.bitSize, res.loadBit i = f (dst.loadBit i) (src.loadBit i)
  getD_eq : ∀ j, j < dst.bitStart ∨ dst.bitStart + dst.bitSize ≤ j →
    res.data.getD j false = dst.data.getD j false

/-- The loop of `CombineBits` keeps where the region lies. -/
theorem foldl_storeChunk_bitStart (g : BitMemoryRegion → Chunk → BitVec 64) :
    ∀ (cs : List Chunk) (d : BitMemoryRegion),
      (cs.foldl (fun d c => d.storeChunk c.offset (g d c) c.numBits) d).bitStart = d.bitStart ∧
        (cs.foldl (fun d c => d.storeChunk c.offset (g d c) c.numBits) d).bitSize = d.bitSize
  | [], _ => ⟨rfl, rfl⟩
  | c :: cs, d => by
    rw [List.foldl_cons, (foldl_storeChunk_bitStart g cs _).1, (foldl_storeChunk_bitStart g cs _).2,
      bitStart_storeChunk, bitSize_storeChunk]
    exact ⟨rfl, rfl⟩

section Combine

variable (f : Bool → Bool → Bool) {op : BitVec 64 → BitVec 64 → BitVec 64}
  (hop : ∀ x y i, (op x y).getLsbD i = f (x.getLsbD i) (y.getLsbD i)) (hf : f false false = false)

include hop hf

/-- The visitor of `CopyBits`, `AndBits`, `OrBits` and `XorBits` on one chunk: the chunk is stored
back as `f` of its bits, read from the data as they were, and the bits of `src` there. -/
theorem storeChunk_combine (src d : BitMemoryRegion) {start : Nat} {c : Chunk} (hat : c.At start)
    (hstart : d.bitStart = start) (dst : List Bool) (hd : slice d.data (start + c.offset) c.numBits =
      slice dst (start + c.offset) c.numBits) :
    (d.storeChunk c.offset (op (c.value d.data) (BitVec.ofNat 64 (src.loadBits c.offset c.numBits)))
        c.numBits).data =
      overwrite d.data (start + c.offset) (List.zipWith f (slice dst (start + c.offset) c.numBits)
        (slice src.data (src.bitStart + c.offset) c.numBits)) := by
  have hle := hat.numBits_le
  have hZlen : (List.zipWith f (slice dst (start + c.offset) c.numBits)
      (slice src.data (src.bitStart + c.offset) c.numBits)).length = c.numBits := by simp
  have hZlt := valueOf_lt (List.zipWith f (slice dst (start + c.offset) c.numBits)
      (slice src.data (src.bitStart + c.offset) c.numBits))
  rw [hZlen] at hZlt
  have htoNat : (BitVec.ofNat 64 (valueOf (List.zipWith f (slice dst (start + c.offset) c.numBits)
      (slice src.data (src.bitStart + c.offset) c.numBits)))).toNat =
        valueOf (List.zipWith f (slice dst (start + c.offset) c.numBits)
          (slice src.data (src.bitStart + c.offset) c.numBits)) := by
    rw [BitVec.toNat_ofNat,
      Nat.mod_eq_of_lt (Nat.lt_of_lt_of_le hZlt (Nat.pow_le_pow_right (by decide) hle))]
  -- a whole chunk starts at a word boundary
  have halign : c.numBits = kChunkSize → (d.bitStart + c.offset) % kBitsPerByte = 0 := fun h => by
    have hpos := hat.pos
    have hfits := hat.fits
    rw [hstart]
    unfold kChunkSize kBitsPerByte at *
    omega
  have hbits := bitsOf_valueOf (List.zipWith f (slice dst (start + c.offset) c.numBits)
    (slice src.data (src.bitStart + c.offset) c.numBits))
  rw [hZlen] at hbits
  rw [hat.value_eq, hd, loadBits, ofNat_valueOf_zipWith f op hop hf (by simpa using hle) (by simp),
    storeChunk_data _ _ _ (show c.numBits ≤ kChunkSize from hle) (by rw [htoNat]; exact hZlt)
      halign, hstart, htoNat, hbits]

/-- The loop of `CombineBits` over chunks that lie end to end from `a` to `b`: where the region is
combined up to `a`, it is combined up to `b` after them. -/
theorem foldl_combine (src dst : BitMemoryRegion) :
    ∀ (cs : List Chunk) {a b : Nat}, Covers kChunkSize (cs.map Chunk.piece) a b →
      (∀ c ∈ cs, c.At dst.bitStart) → ∀ d : BitMemoryRegion, d.bitStart = dst.bitStart →
        d.data = overwrite dst.data dst.bitStart (List.zipWith f (slice dst.data dst.bitStart a)
          (slice src.data src.bitStart a)) →
        (cs.foldl (fun d c => d.storeChunk c.offset
            (op (c.value d.data) (BitVec.ofNat 64 (src.loadBits c.offset c.numBits))) c.numBits)
          d).data =
          overwrite dst.data dst.bitStart (List.zipWith f (slice dst.data dst.bitStart b)
            (slice src.data src.bitStart b))
  | [], _, _, hcov, _, d, _, hd => by
    rw [List.map_nil, Covers] at hcov
    rw [List.foldl_nil, hd, ← hcov]
  | c :: cs, a, b, ⟨hoff, _, _, hcov⟩, hat, d, hstart, hd => by
    have hatc := hat c List.mem_cons_self
    have hoff' : c.offset = a := hoff
    have hlen : (List.zipWith f (slice dst.data dst.bitStart a)
        (slice src.data src.bitStart a)).length = a := by simp
    -- the chunk reads the data that the earlier chunks left as they were
    have hread : slice d.data (dst.bitStart + c.offset) c.numBits =
        slice dst.data (dst.bitStart + c.offset) c.numBits := by
      rw [hd, slice_overwrite_of_le (by rw [hlen, hoff'])]
    rw [List.foldl_cons]
    refine foldl_combine src dst cs hcov (fun c' hc' => hat c' (List.mem_cons_of_mem _ hc')) _
      (by rw [bitStart_storeChunk, hstart]) ?_
    rw [storeChunk_combine f hop hf src d hatc hstart dst.data hread, hd,
      overwrite_append _ _ _ _ (by rw [hlen, hoff']), ← List.zipWith_append (by simp), hoff',
      ← slice_add, ← slice_add]
    rfl

/-- `CombineBits` sets each bit of the region to `f` of the bits of `dst` and `src` there, and
writes nothing outside the region. -/
theorem combineBits_data (dst src : BitMemoryRegion) (hsize : src.bitSize = dst.bitSize) :
    (combineBits op dst src).data =
      overwrite dst.data dst.bitStart (List.zipWith f dst.bits src.bits) := by
  have h := foldl_combine f hop hf src dst dst.chunks (covers_chunks dst) (at_chunks dst) dst rfl
    (by simp [slice])
  rw [combineBits, h, bits, bits, hsize]

/-- `CopyBits`, `AndBits`, `OrBits` and `XorBits` through `CombineBits`: each bit of a region lying
within its data is set to `f` of the bits of `dst` and `src` there, and the rest of the data is
kept. -/
theorem combineBits_combinesAs (dst src : BitMemoryRegion) (hsize : src.bitSize = dst.bitSize)
    (hdst : dst.bitStart + dst.bitSize ≤ dst.data.length) :
    CombinesAs f dst src (combineBits op dst src) := by
  have hdata := combineBits_data f hop hf dst src hsize
  have hlen : (List.zipWith f dst.bits src.bits).length = dst.bitSize := by simp [hsize]
  have hkeep := foldl_storeChunk_bitStart
    (fun d c => op (c.value d.data) (BitVec.ofNat 64 (src.loadBits c.offset c.numBits))) dst.chunks dst
  refine ⟨hkeep.1, hkeep.2, by rw [hdata, length_overwrite], fun i hi => ?_, fun j hj => ?_⟩
  · rw [loadBit, hdata, show (combineBits op dst src).bitStart = dst.bitStart from hkeep.1,
      getD_overwrite, if_pos (by omega), Nat.add_sub_cancel_left, getD_zipWith hf (by simp [hsize]),
      ← loadBit_eq dst hi, ← loadBit_eq src (hsize ▸ hi)]
  · rw [hdata, getD_overwrite, if_neg (by omega)]

end Combine

theorem popCount_eq_countP (r : BitMemoryRegion) :
    r.popCount = (List.range r.bitSize).countP r.loadBit := by
  have h := countP_range_getD r.bits r.bitSize
  rw [List.take_of_length_le (by simp)] at h
  rw [popCount, ← h]
  refine List.countP_congr fun i hi => ?_
  rw [loadBit_eq r (List.mem_range.1 hi)]

/-- The chunked operations of `BitMemoryRegion` are their bit-by-bit meanings, for every region
whatever its alignment and size: `PopCount`, `HasAllBitsClear` and `Equals` read the region's bits;
`CopyBits`, `AndBits`, `OrBits` and `XorBits` into a region lying within its data, from a region of
the same size, set its bits and keep every other bit; `Compare` is `compareBits` of the two bit
sequences, zero exactly when they are equal, and antisymmetric. -/
theorem chunkedOps_eq_bitwise (r lhs rhs dst src : BitMemoryRegion)
    (hsize : src.bitSize = dst.bitSize) (hdst : dst.bitStart + dst.bitSize ≤ dst.data.length) :
    r.popCountChunks = (List.range r.bitSize).countP r.loadBit ∧
      (r.hasAllBitsClear = true ↔ ∀ i < r.bitSize, r.loadBit i = false) ∧
      (equals lhs rhs = true ↔
        lhs.bitSize = rhs.bitSize ∧ ∀ i < lhs.bitSize, lhs.loadBit i = rhs.loadBit i) ∧
      CombinesAs (fun _ s => s) dst src (copyBits dst src) ∧
      CombinesAs (· && ·) dst src (andBits dst src) ∧
      CombinesAs (· || ·) dst src (orBits dst src) ∧
      CombinesAs (· ^^ ·) dst src (xorBits dst src) ∧
      compare lhs rhs = compareBits lhs.bits rhs.bits ∧
      (compare lhs rhs = 0 ↔ equals lhs rhs = true) ∧
      compare rhs lhs = -compare lhs rhs := by
  refine ⟨by rw [popCountChunks_eq, popCount_eq_countP], ?_, by rw [equals_iff, bits_eq_iff],
    combineBits_combinesAs _ (fun _ _ _ => rfl) rfl dst src hsize hdst,
    combineBits_combinesAs _ (fun _ _ _ => BitVec.getLsbD_and) rfl dst src hsize hdst,
    combineBits_combinesAs _ (fun _ _ _ => BitVec.getLsbD_or) rfl dst src hsize hdst,
    combineBits_combinesAs _ (fun _ _ _ => BitVec.getLsbD_xor) rfl dst src hsize hdst,
    compare_eq_compareBits lhs rhs, ?_, ?_⟩
  · rw [hasAllBitsClear_iff, mem_bits_iff]
    simp
  · rw [compare_eq_compareBits, compareBits_eq_zero_iff, equals_iff]
  · rw [compare_eq_compareBits, compare_eq_compareBits, compareBits_swap]

/-- Ten set bits copied between regions of different alignments: the destination's first bit is
set. -/
theorem chunkedOps_eq_bitwise_copy :
    (⟨List.replicate 12 true, 1, 10⟩ : BitMemoryRegion).bitSize =
        (⟨List.replicate 16 false, 3, 10⟩ : BitMemoryRegion).bitSize ∧
      3 + 10 ≤ (List.replicate 16 false).length ∧
      (copyBits ⟨List.replicate 16 false, 3, 10⟩ ⟨List.replicate 12 true, 1, 10⟩).loadBit 0 = true := by
  have h := (chunkedOps_eq_bitwise ⟨[], 0, 0⟩ ⟨[], 0, 0⟩ ⟨[], 0, 0⟩
    ⟨List.replicate 16 false, 3, 10⟩ ⟨List.replicate 12 true, 1, 10⟩ rfl (by decide)).2.2.2.1
  exact ⟨rfl, by decide, by rw [h.loadBit_eq 0 (by decide)]; decide⟩

end BitMemoryRegion

end Art
