import Art.Base.Leb128
import Art.Lib.BitStream

/-!
# Compact offset tables

`libdexfile/dex/compact_offset_table.cc`. `Build` stores a list of `uint32_t` offsets in blocks of
`kElementsPerIndex = 16`: a block is a 16-bit mask of its non-zero offsets, high byte first, and
then the non-zero offsets as ULEB128 deltas, each from the previous non-zero offset of the block
and the first from the smallest non-zero offset of the whole list. After the blocks, padded to
four bytes, comes a table of the blocks' starts as `uint32_t`. `Accessor::GetOffset` finds the
block in the table, tests the offset's bit in the mask, and adds up as many deltas as there are
set bits up to it.

The buffer is a list of bytes, `uint32_t` words are stored little-endian, and positions in it
are `Nat`s, as pointer arithmetic is. Reading past the buffer is `none`.
-/

namespace Art

namespace CompactOffsetTable

def kElementsPerIndex : Nat := 16

def kBitsPerIntPtrT : Nat := 64

/-- The bytes of a `uint32_t` in memory. -/
def u32Bytes (x : BitVec 32) : List (BitVec 8) :=
  [x.extractLsb' 0 8, x.extractLsb' 8 8, x.extractLsb' 16 8, x.extractLsb' 24 8]

/-- A `uint32_t` loaded from the four bytes at `pos`. -/
def loadU32 (data : List (BitVec 8)) (pos : Nat) : Option (BitVec 32) := do
  let b0 ← data[pos]?
  let b1 ← data[pos + 1]?
  let b2 ← data[pos + 2]?
  let b3 ← data[pos + 3]?
  pure (b3 ++ b2 ++ b1 ++ b0)

/-! ### Build -/

/-- The smallest non-zero offset (`std::min` of the running minimum and each non-zero offset),
`UINT32_MAX` if there is none. -/
def minOffset (offsets : List (BitVec 32)) : BitVec 32 :=
  offsets.foldl (fun minOffset offset =>
    if offset ≠ 0 then (if offset < minOffset then offset else minOffset) else minOffset)
    (BitVec.allOnes 32)

/-- The mask of a block: bit `i` is set when the block's offset `i` is not zero. -/
def blockMask (block : List (BitVec 32)) : BitVec 16 :=
  (List.range block.length).foldl
    (fun bitMask i =>
      if block.getD i 0 ≠ 0 then bitMask ||| (1 : BitVec 16) <<< i else bitMask) 0

/-- The non-zero offsets of a block as ULEB128 deltas, each from the previous non-zero one. -/
def encodeDeltas (prevOffset : BitVec 32) : List (BitVec 32) → List (BitVec 8)
  | [] => []
  | offset :: offsets =>
    if offset ≠ 0 then
      encodeUnsignedLeb128 ((offset - prevOffset).setWidth 64) ++ encodeDeltas offset offsets
    else encodeDeltas prevOffset offsets

/-- The bytes of one block: its mask, high byte first, and its deltas from `minOffset`. -/
def blockBytes (minOffset : BitVec 32) (block : List (BitVec 32)) : List (BitVec 8) :=
  let bitMask := blockMask block
  [(bitMask >>> 8).setWidth 8, bitMask.setWidth 8] ++ encodeDeltas minOffset block

/-- The block loop of `Build` over the offsets from `block_start` on: each block's start in
`out_data`, as a `uint32_t`, goes to the offset table. -/
def buildBlocks (minOffset : BitVec 32) (offsets : List (BitVec 32)) (outData : List (BitVec 8))
    (offsetTable : List (BitVec 32)) : List (BitVec 8) × List (BitVec 32) :=
  if offsets = [] then (outData, offsetTable)
  else
    buildBlocks minOffset (offsets.drop kElementsPerIndex)
      (outData ++ blockBytes minOffset (offsets.take kElementsPerIndex))
      (offsetTable ++ [BitVec.ofNat 32 outData.length])
termination_by offsets.length
decreasing_by
  have : offsets.length ≠ 0 := by simpa using ‹¬offsets = []›
  simp only [List.length_drop, kElementsPerIndex]
  omega

/-- `AlignmentPadVector`: zeros are pushed until the size is a multiple of `alignment`. -/
def alignmentPadVector (dest : List (BitVec 8)) (alignment : Nat) : List (BitVec 8) :=
  dest ++ List.replicate ((alignment - dest.length % alignment) % alignment) 0

/-- `Build(offsets, &out_data, &out_min_offset, &out_table_offset)`: the data, the minimum
offset and the table offset. -/
def build (offsets : List (BitVec 32)) : List (BitVec 8) × BitVec 32 × BitVec 32 :=
  let minOffset := minOffset offsets
  let blocks := buildBlocks minOffset offsets [] []
  let outData := alignmentPadVector blocks.1 4
  let tableOffset := BitVec.ofNat 32 outData.length
  (outData ++ blocks.2.flatMap u32Bytes, minOffset, tableOffset)

/-- `Build(offsets, &out_data)`: the data of `build` after its minimum offset and table offset. -/
def buildSerialised (offsets : List (BitVec 32)) : List (BitVec 8) :=
  let built := build offsets
  u32Bytes built.2.1 ++ u32Bytes built.2.2 ++ built.1

/-! ### Accessor -/

/-- An `Accessor`: where its table (`table_`) and its data (`data_begin_`) start in the buffer,
and `minimum_offset_`. -/
structure Accessor where
  table : Nat
  minimumOffset : BitVec 32
  dataBegin : Nat

/-- `Accessor(data_begin, minimum_offset, table_offset)`. -/
def Accessor.ofOffsets (dataBegin : Nat) (minimumOffset tableOffset : BitVec 32) : Accessor :=
  ⟨dataBegin + tableOffset.toNat, minimumOffset, dataBegin⟩

/-- `Accessor(data_begin)`: the minimum offset and the table offset are the first two words. -/
def Accessor.ofData (data : List (BitVec 8)) (dataBegin : Nat) : Option Accessor := do
  let minimumOffset ← loadU32 data dataBegin
  let tableOffset ← loadU32 data (dataBegin + 4)
  pure (Accessor.ofOffsets (dataBegin + 8) minimumOffset tableOffset)

/-- The `do`/`while` loop of `GetOffset`: `count` deltas added to `current`, at least one. -/
def decodeDeltas (bytes : List (BitVec 8)) (count : Nat) (current : BitVec 32) :
    Option (BitVec 32) := do
  let (delta, n) ← decodeUnsignedLeb128 32 bytes
  if count - 1 > 0 then decodeDeltas (bytes.drop n) (count - 1) (current + delta)
  else pure (current + delta)
termination_by count
decreasing_by omega

/-- `Accessor::GetOffset`. -/
def Accessor.getOffset (acc : Accessor) (data : List (BitVec 8)) (index : BitVec 32) :
    Option (BitVec 32) := do
  let offset ← loadU32 data (acc.table + 4 * (index.toNat / kElementsPerIndex))
  let bitIndex := index.toNat % kElementsPerIndex
  let block := acc.dataBegin + offset.toNat
  let b0 ← data[block]?
  let b1 ← data[block + 1]?
  let bitMask : BitVec 16 := (b0.setWidth 16 <<< 8) ||| b1.setWidth 16
  if bitMask &&& (1 : BitVec 16) <<< bitIndex = 0 then
    -- a clear bit means the offset is 0
    pure 0
  else
    -- the set bits up to `bitIndex` count the deltas to add
    let count := (bitMask.setWidth 64 <<< (kBitsPerIntPtrT - 1 - bitIndex)).cpop.toNat
    decodeDeltas (data.drop (block + 2)) count acc.minimumOffset

/-! ### Words and masks -/

theorem append_u32Bytes (x : BitVec 32) :
    x.extractLsb' 24 8 ++ x.extractLsb' 16 8 ++ x.extractLsb' 8 8 ++ x.extractLsb' 0 8 = x := by
  apply BitVec.eq_of_getLsbD_eq
  intro j hj
  simp only [BitVec.getLsbD_append, BitVec.getLsbD_extractLsb']
  split_ifs with h1 h2 h3
  · simp [h1]
  · rw [show 8 + (j - 8) = j by omega]
    simp [h2]
  · rw [show 16 + (j - 8 - 8) = j by omega]
    simp [h3]
  · rw [show 24 + (j - 8 - 8 - 8) = j by omega]
    simp [show j - 8 - 8 - 8 < 8 by omega]

theorem loadU32_append_u32Bytes (pre post : List (BitVec 8)) (x : BitVec 32) :
    loadU32 (pre ++ u32Bytes x ++ post) pre.length = some x := by
  simp [loadU32, u32Bytes, append_u32Bytes]

/-- Word `b` of a table of words. -/
theorem loadU32_flatMap_u32Bytes (xs : List (BitVec 32)) (post : List (BitVec 8)) :
    ∀ (pre : List (BitVec 8)) (b : Nat) (hb : b < xs.length),
      loadU32 (pre ++ xs.flatMap u32Bytes ++ post) (pre.length + 4 * b) = some xs[b] := by
  induction xs with
  | nil => intro pre b hb; simp at hb
  | cons x xs ih =>
    intro pre b hb
    cases b with
    | zero =>
      simpa [List.flatMap_cons, List.append_assoc] using loadU32_append_u32Bytes pre _ x
    | succ b =>
      have h := ih (pre ++ u32Bytes x) b (by simpa using hb)
      simp only [List.length_append, show (u32Bytes x).length = 4 from rfl] at h
      simpa [List.flatMap_cons, List.append_assoc, Nat.mul_succ, Nat.add_assoc,
        Nat.add_comm 4] using h

theorem loadU32_append_left (pre data : List (BitVec 8)) (pos : Nat) :
    loadU32 (pre ++ data) (pre.length + pos) = loadU32 data pos := by
  simp [loadU32, List.getElem?_append_right, Nat.add_assoc]

/-- The mask's two bytes, high byte first, give the mask back. -/
theorem mask_bytes (m : BitVec 16) :
    ((m >>> 8).setWidth 8).setWidth 16 <<< 8 ||| (m.setWidth 8).setWidth 16 = m := by
  apply BitVec.eq_of_getLsbD_eq
  intro j hj
  simp only [BitVec.getLsbD_or, BitVec.getLsbD_shiftLeft, BitVec.getLsbD_setWidth,
    BitVec.getLsbD_ushiftRight]
  by_cases h8 : j < 8
  · simp [h8, hj]
  · rw [show 8 + (j - 8) = j by omega]
    simp [h8, hj, show j - 8 < 8 by omega, show j - 8 < 16 by omega]

theorem getLsbD_one_shiftLeft {j k : Nat} (hj : j < 16) :
    ((1 : BitVec 16) <<< j).getLsbD k = decide (k = j) := by
  rw [show (1 : BitVec 16) = 1#16 from rfl, BitVec.getLsbD_shiftLeft, BitVec.getLsbD_one]
  by_cases hkj : k = j
  · simp [hkj, hj]
  · simp only [hkj, decide_false]
    by_cases hk : k < j
    · simp [hk]
    · simp [hk, show k - j ≠ 0 by omega]

theorem and_one_shiftLeft_eq_zero_iff (m : BitVec 16) {j : Nat} (hj : j < 16) :
    m &&& (1 : BitVec 16) <<< j = 0 ↔ m.getLsbD j = false := by
  constructor
  · intro h
    have := congrArg (fun x => x.getLsbD j) h
    simpa only [BitVec.getLsbD_and, getLsbD_one_shiftLeft hj, decide_true, Bool.and_true,
      show (0 : BitVec 16) = 0#16 from rfl, BitVec.getLsbD_zero] using this
  · intro h
    apply BitVec.eq_of_getLsbD_eq
    intro k hk
    rw [BitVec.getLsbD_and, getLsbD_one_shiftLeft hj]
    by_cases hkj : k = j
    · subst hkj
      simp [h]
    · simp [hkj]

/-- Bit `k` of a block's mask says whether the block's offset `k` is not zero. -/
theorem getLsbD_blockMask {block : List (BitVec 32)} (hb : block.length ≤ 16) (k : Nat) :
    (blockMask block).getLsbD k = decide (block.getD k 0 ≠ 0) := by
  -- after `n` iterations the loop has set the bits of the offsets before `n`
  have hloop : ∀ n ≤ block.length, ((List.range n).foldl (fun bitMask i =>
      if block.getD i 0 ≠ 0 then bitMask ||| (1 : BitVec 16) <<< i else bitMask) 0).getLsbD k =
        (decide (k < n) && decide (block.getD k 0 ≠ 0)) := by
    intro n hn
    induction n with
    | zero => simp
    | succ n ih =>
      rw [List.range_succ, List.foldl_append, List.foldl_cons, List.foldl_nil]
      have hlt : decide (k < n + 1) = (decide (k < n) || decide (k = n)) := by
        by_cases hkn : k = n
        · simp [hkn]
        · simp only [hkn, decide_false, Bool.or_false]
          congr 1
          exact propext ⟨fun _ => by omega, fun _ => by omega⟩
      split_ifs with h
      · rw [BitVec.getLsbD_or, ih (by omega), getLsbD_one_shiftLeft (by omega), hlt]
        by_cases hkn : k = n
        · subst hkn
          simpa using h
        · simp [hkn]
      · rw [ih (by omega), hlt]
        by_cases hkn : k = n
        · subst hkn
          simpa using h
        · simp [hkn]
  rw [blockMask, hloop _ le_rfl]
  by_cases hk : k < block.length
  · simp [hk]
  · simp [hk, List.getD_eq_getElem?_getD]

theorem countP_range_getD (l : List (BitVec 32)) (n : Nat) :
    (List.range n).countP (fun k => decide (l.getD k 0 ≠ 0)) =
      (l.take n).countP (fun o => decide (o ≠ 0)) := by
  induction n with
  | zero => simp
  | succ n ih =>
    rw [List.range_succ, List.take_add_one, List.countP_append, List.countP_append, ih]
    congr 1
    by_cases hn : n < l.length
    · simp [hn, List.getD_eq_getElem?_getD]
    · simp [List.getD_eq_getElem?_getD, List.getElem?_eq_none (by omega : l.length ≤ n)]

/-- `GetOffset`'s count: the set bits of the mask up to `bitIndex` are the non-zero offsets of the
block up to it. -/
theorem cpop_blockMask {block : List (BitVec 32)} (hb : block.length ≤ 16) {j : Nat}
    (hj : j < 16) :
    ((blockMask block).setWidth 64 <<< (kBitsPerIntPtrT - 1 - j)).cpop.toNat =
      (block.take (j + 1)).countP (fun o => decide (o ≠ 0)) := by
  rw [BitVec.toNat_cpop, BitStream.cpopNatRec_eq_countP, ← countP_range_getD,
    show List.range 64 = List.range ((kBitsPerIntPtrT - 1 - j) + (j + 1)) by
      unfold kBitsPerIntPtrT; congr 1; omega,
    List.range_add, List.countP_append, List.countP_map]
  -- below the shift there is nothing; above it, the mask's bits up to `j`
  have hlow : (List.range (kBitsPerIntPtrT - 1 - j)).countP (fun i =>
      ((blockMask block).setWidth 64 <<< (kBitsPerIntPtrT - 1 - j)).getLsbD i) = 0 := by
    rw [List.countP_eq_zero]
    intro i hi
    simp only [List.mem_range] at hi
    simp [hi]
  rw [hlow, Nat.zero_add]
  apply List.countP_congr
  intro k hk
  simp only [List.mem_range] at hk
  have hshift : kBitsPerIntPtrT - 1 - j + k - (kBitsPerIntPtrT - 1 - j) = k := by omega
  simp only [Function.comp_apply, BitVec.getLsbD_shiftLeft, BitVec.getLsbD_setWidth,
    getLsbD_blockMask hb, hshift]
  simp [show kBitsPerIntPtrT - 1 - j + k < 64 by unfold kBitsPerIntPtrT; omega,
    show k < 64 by omega]

/-! ### Reading one block -/

theorem decodeDeltas_of_decode {bytes : List (BitVec 8)} {delta : BitVec 32} {n : Nat}
    (h : decodeUnsignedLeb128 32 bytes = some (delta, n)) (count : Nat) (current : BitVec 32) :
    decodeDeltas bytes count current =
      if count - 1 > 0 then decodeDeltas (bytes.drop n) (count - 1) (current + delta)
      else some (current + delta) := by
  rw [decodeDeltas, h]
  rfl

/-- A delta read back from an encoding of a block's non-zero offset. -/
theorem decodeUnsignedLeb128_encode_delta (offset prevOffset : BitVec 32)
    (rest : List (BitVec 8)) :
    decodeUnsignedLeb128 32 (encodeUnsignedLeb128 ((offset - prevOffset).setWidth 64) ++ rest) =
      some (offset - prevOffset, (encodeUnsignedLeb128 ((offset - prevOffset).setWidth 64)).length) :=
  decodeLeb128Helper_encodeUnsignedLeb128_setWidth (by decide) (by decide) _ rest (by simp)

/-- Adding the deltas of a block's encoding from `prevOffset`, as many as there are non-zero
offsets up to a non-zero offset `j`, ends on that offset: the deltas telescope. -/
theorem decodeDeltas_encodeDeltas (rest : List (BitVec 8)) (block : List (BitVec 32)) :
    ∀ (prevOffset : BitVec 32) (j : Nat) (hj : j < block.length), block[j] ≠ 0 →
      decodeDeltas (encodeDeltas prevOffset block ++ rest)
        ((block.take (j + 1)).countP (fun o => decide (o ≠ 0))) prevOffset = some block[j] := by
  induction block with
  | nil => intro prevOffset j hj; simp at hj
  | cons offset block ih =>
    intro prevOffset j hj hnz
    by_cases h0 : offset = 0
    · -- a zero offset writes no delta and is not counted
      rw [encodeDeltas, if_neg (not_not.mpr h0)]
      cases j with
      | zero => exact absurd h0 hnz
      | succ j =>
        rw [List.take_succ_cons, List.countP_cons, if_neg (by simp [h0]), Nat.add_zero]
        exact ih prevOffset j (by simpa using hj) hnz
    · have hcount : decide (offset ≠ 0) = true := decide_eq_true h0
      rw [encodeDeltas, if_pos h0, List.append_assoc,
        decodeDeltas_of_decode (decodeUnsignedLeb128_encode_delta _ _ _), List.drop_left,
        BitVec.add_comm prevOffset, BitVec.sub_add_cancel, List.take_succ_cons, List.countP_cons,
        if_pos hcount]
      cases j with
      | zero => simp
      | succ j =>
        -- the offset `j` of the rest is counted, so the loop goes on
        have hj' : j < block.length := by simpa using hj
        have hnz' : block[j] ≠ 0 := by simpa using hnz
        have hpos : 0 < (block.take (j + 1)).countP (fun o => decide (o ≠ 0)) := by
          rw [List.take_add_one, List.getElem?_eq_getElem hj', Option.toList_some,
            List.countP_append, List.countP_singleton, if_pos (decide_eq_true hnz')]
          omega
        rw [if_pos (by omega), Nat.add_sub_cancel]
        exact ih offset j hj' hnz'

/-- `GetOffset` of `index` reads the offset `index % 16` of the block its table entry points to,
when the entry `p` does not wrap and the bytes at `data_begin + p` are the block's. -/
theorem getOffset_of_block {acc : Accessor} {data : List (BitVec 8)} {index : BitVec 32}
    {p : Nat} (hp : p < 2 ^ 32) {block : List (BitVec 32)} {rest : List (BitVec 8)}
    (hb : block.length ≤ kElementsPerIndex) (hj : index.toNat % kElementsPerIndex < block.length)
    (htable : loadU32 data (acc.table + 4 * (index.toNat / kElementsPerIndex)) =
      some (BitVec.ofNat 32 p))
    (hblock : data.drop (acc.dataBegin + p) = blockBytes acc.minimumOffset block ++ rest) :
    acc.getOffset data index = some block[index.toNat % kElementsPerIndex] := by
  have hoff : (BitVec.ofNat 32 p).toNat = p := by rw [BitVec.toNat_ofNat, Nat.mod_eq_of_lt hp]
  have hj16 : index.toNat % kElementsPerIndex < 16 := Nat.mod_lt _ (by decide)
  have hb16 : block.length ≤ 16 := hb
  have hb0 : data[acc.dataBegin + p]? = some ((blockMask block >>> 8).setWidth 8) := by
    rw [← Nat.add_zero (acc.dataBegin + p), ← List.getElem?_drop, hblock]
    rfl
  have hb1 : data[acc.dataBegin + p + 1]? = some ((blockMask block).setWidth 8) := by
    rw [← List.getElem?_drop, hblock]
    rfl
  have hdeltas : data.drop (acc.dataBegin + p + 2) =
      encodeDeltas acc.minimumOffset block ++ rest := by
    rw [← List.drop_drop, hblock]
    rfl
  simp only [Accessor.getOffset, htable, hoff, hb0, hb1, mask_bytes, hdeltas, Option.bind_eq_bind,
    Option.bind_some]
  have hgetD : block.getD (index.toNat % kElementsPerIndex) 0 = block[index.toNat % kElementsPerIndex] := by
    simp [List.getD_eq_getElem?_getD, List.getElem?_eq_getElem hj]
  split_ifs with hbit
  · -- the bit is clear: the offset is zero
    rw [and_one_shiftLeft_eq_zero_iff _ hj16, getLsbD_blockMask hb16, hgetD] at hbit
    have hzero : block[index.toNat % kElementsPerIndex] = 0 := by simpa using hbit
    rw [hzero]
    rfl
  · rw [and_one_shiftLeft_eq_zero_iff _ hj16, getLsbD_blockMask hb16, hgetD] at hbit
    rw [cpop_blockMask hb16 hj16]
    exact decodeDeltas_encodeDeltas rest block _ _ hj (by simpa using hbit)

/-! ### Build -/

section Build

variable (minOffset : BitVec 32)

theorem buildBlocks_nil (outData : List (BitVec 8)) (offsetTable : List (BitVec 32)) :
    buildBlocks minOffset [] outData offsetTable = (outData, offsetTable) := by
  rw [buildBlocks, if_pos rfl]

theorem buildBlocks_of_ne_nil {offsets : List (BitVec 32)} (h : offsets ≠ [])
    (outData : List (BitVec 8)) (offsetTable : List (BitVec 32)) :
    buildBlocks minOffset offsets outData offsetTable =
      buildBlocks minOffset (offsets.drop kElementsPerIndex)
        (outData ++ blockBytes minOffset (offsets.take kElementsPerIndex))
        (offsetTable ++ [BitVec.ofNat 32 outData.length]) := by
  rw [buildBlocks, if_neg h]

/-- The loop only appends to the data and to the table. -/
theorem buildBlocks_prefix (offsets : List (BitVec 32)) (outData : List (BitVec 8))
    (offsetTable : List (BitVec 32)) :
    ∃ moreData moreTable, buildBlocks minOffset offsets outData offsetTable =
      (outData ++ moreData, offsetTable ++ moreTable) := by
  induction offsets, outData, offsetTable using buildBlocks.induct minOffset with
  | case1 outData offsetTable => exact ⟨[], [], by simp [buildBlocks_nil]⟩
  | case2 offsets outData offsetTable hne ih =>
    obtain ⟨moreData, moreTable, h⟩ := ih
    exact ⟨blockBytes minOffset (offsets.take kElementsPerIndex) ++ moreData,
      [BitVec.ofNat 32 outData.length] ++ moreTable,
      by simp [buildBlocks_of_ne_nil minOffset hne, h]⟩

/-- The table entry of the block of offset `i` is the start of that block's bytes. -/
theorem buildBlocks_block (offsets : List (BitVec 32)) (outData : List (BitVec 8))
    (offsetTable : List (BitVec 32)) :
    ∀ i < offsets.length, ∃ p rest,
      (buildBlocks minOffset offsets outData offsetTable).2[offsetTable.length +
          i / kElementsPerIndex]? = some (BitVec.ofNat 32 p) ∧
        (buildBlocks minOffset offsets outData offsetTable).1.drop p =
          blockBytes minOffset ((offsets.drop (kElementsPerIndex * (i / kElementsPerIndex))).take
            kElementsPerIndex) ++ rest := by
  induction offsets, outData, offsetTable using buildBlocks.induct minOffset with
  | case1 outData offsetTable => intro i hi; simp at hi
  | case2 offsets outData offsetTable hne ih =>
    intro i hi
    rw [buildBlocks_of_ne_nil minOffset hne]
    by_cases hi16 : i < kElementsPerIndex
    · -- the first block starts where the data was
      obtain ⟨moreData, moreTable, h⟩ := buildBlocks_prefix minOffset (offsets.drop kElementsPerIndex)
        (outData ++ blockBytes minOffset (offsets.take kElementsPerIndex))
        (offsetTable ++ [BitVec.ofNat 32 outData.length])
      refine ⟨outData.length, moreData, ?_, ?_⟩
      · rw [h, Nat.div_eq_of_lt hi16]
        simp
      · rw [h, Nat.div_eq_of_lt hi16]
        simp
    · obtain ⟨p, rest, htable, hdrop⟩ := ih (i - kElementsPerIndex) (by
        simp only [List.length_drop]; unfold kElementsPerIndex at hi16 ⊢; omega)
      have hdiv : i / kElementsPerIndex = (i - kElementsPerIndex) / kElementsPerIndex + 1 := by
        unfold kElementsPerIndex at hi16 ⊢; omega
      refine ⟨p, rest, ?_, ?_⟩
      · rw [hdiv, ← htable]
        simp only [List.length_append, List.length_singleton]
        congr 1
        omega
      · rw [hdrop, List.drop_drop, hdiv, Nat.mul_succ, Nat.add_comm (kElementsPerIndex * _)]

end Build

/-- `GetOffset` through an accessor over `pre ++ data` whose data begins after `pre`, where `data`,
the minimum offset and the table offset are `Build`'s, when the blocks and their padding take
fewer than `2 ^ 32` bytes: every index below the number of offsets reads its offset. -/
theorem getOffset_build_of_lt (pre : List (BitVec 8)) (offsets : List (BitVec 32))
    (hfit : (alignmentPadVector (buildBlocks (minOffset offsets) offsets [] []).1 4).length <
      2 ^ 32)
    (index : BitVec 32) (hi : index.toNat < offsets.length) :
    (Accessor.ofOffsets pre.length (build offsets).2.1 (build offsets).2.2).getOffset
      (pre ++ (build offsets).1) index = some offsets[index.toNat] := by
  obtain ⟨p, rest, htable, hdrop⟩ :=
    buildBlocks_block (minOffset offsets) offsets [] [] index.toNat hi
  rw [List.length_nil, Nat.zero_add] at htable
  set blocks := buildBlocks (minOffset offsets) offsets [] [] with hblocks
  set padded := alignmentPadVector blocks.1 4 with hpadded
  -- the block lies inside the blocks, so its start does not wrap
  have hp : p < blocks.1.length := by
    by_contra hle
    rw [List.drop_eq_nil_of_le (by omega)] at hdrop
    simp [blockBytes] at hdrop
  have hpadded_len : blocks.1.length ≤ padded.length := by
    simp [hpadded, alignmentPadVector]
  have hb : index.toNat / kElementsPerIndex < blocks.2.length := by
    by_contra hle
    rw [List.getElem?_eq_none (by omega)] at htable
    cases htable
  have hentry : blocks.2[index.toNat / kElementsPerIndex] = BitVec.ofNat 32 p := by
    simpa [List.getElem?_eq_getElem hb] using htable
  -- the chunk of the offset
  set block := (offsets.drop (kElementsPerIndex * (index.toNat / kElementsPerIndex))).take
    kElementsPerIndex with hblock
  have hj : index.toNat % kElementsPerIndex < block.length := by
    simp only [hblock, List.length_take, List.length_drop, kElementsPerIndex]
    have := Nat.div_add_mod index.toNat 16
    omega
  have hget : block[index.toNat % kElementsPerIndex] = offsets[index.toNat] := by
    simp only [hblock, List.getElem_take, List.getElem_drop, Nat.div_add_mod]
  rw [← hget]
  apply getOffset_of_block (show p < 2 ^ 32 by omega) (List.length_take_le _ _) hj
  · -- the table comes right after the padded blocks
    have htableOffset : (BitVec.ofNat 32 padded.length).toNat = padded.length := by
      rw [BitVec.toNat_ofNat, Nat.mod_eq_of_lt hfit]
    have h := loadU32_flatMap_u32Bytes blocks.2 [] (pre ++ padded) _ hb
    rw [List.append_nil, hentry] at h
    simp only [Accessor.ofOffsets, build, ← hblocks, ← hpadded, htableOffset]
    rw [← h, List.append_assoc, List.length_append, Nat.add_assoc]
  · simp only [Accessor.ofOffsets, build, ← hblocks, ← hpadded]
    rw [List.drop_append, List.drop_eq_nil_of_le (by omega), List.nil_append,
      Nat.add_sub_cancel_left, hpadded, alignmentPadVector, List.append_assoc,
      List.drop_append_of_le_length hp.le, hdrop, List.append_assoc]


/-! ### Sizes -/

theorem length_u32Bytes (x : BitVec 32) : (u32Bytes x).length = 4 := rfl

/-- A `uint32_t` takes at most five bytes of ULEB128. -/
theorem length_encodeUnsignedLeb128_setWidth_le (x : BitVec 32) :
    (encodeUnsignedLeb128 (x.setWidth 64)).length ≤ 5 := by
  rw [encodeUnsignedLeb128, length_encodeUnsignedLeb128Loop_le_iff _ _ (by decide),
    ← BitVec.shiftRight_add, ushiftRight_eq_zero_iff, BitVec.toNat_setWidth]
  have := x.isLt
  have : x.toNat % 2 ^ 64 ≤ x.toNat := Nat.mod_le _ _
  omega

theorem length_encodeDeltas_le (prevOffset : BitVec 32) (block : List (BitVec 32)) :
    (encodeDeltas prevOffset block).length ≤ 5 * block.length := by
  induction block generalizing prevOffset with
  | nil => simp [encodeDeltas]
  | cons offset block ih =>
    rw [encodeDeltas]
    split_ifs
    · have := length_encodeUnsignedLeb128_setWidth_le (offset - prevOffset)
      have := ih offset
      simp only [List.length_append, List.length_cons]
      omega
    · have := ih prevOffset
      simp only [List.length_cons]
      omega

/-- Each offset costs at most seven bytes of blocks: five for its delta and two for the mask of
its block, which has at least one offset. -/
theorem length_buildBlocks_le (minOffset : BitVec 32) (offsets : List (BitVec 32))
    (outData : List (BitVec 8)) (offsetTable : List (BitVec 32)) :
    (buildBlocks minOffset offsets outData offsetTable).1.length ≤
      outData.length + 7 * offsets.length := by
  induction offsets, outData, offsetTable using buildBlocks.induct minOffset with
  | case1 outData offsetTable => simp [buildBlocks_nil]
  | case2 offsets outData offsetTable hne ih =>
    rw [buildBlocks_of_ne_nil minOffset hne]
    have hpos : 0 < offsets.length := List.length_pos_iff.2 hne
    have hdeltas := length_encodeDeltas_le minOffset (offsets.take kElementsPerIndex)
    simp only [List.length_append, List.length_drop, List.length_take, blockBytes,
      List.length_cons, List.length_nil] at ih hdeltas ⊢
    unfold kElementsPerIndex at ih hdeltas ⊢
    omega

theorem length_alignmentPadVector_le (dest : List (BitVec 8)) :
    (alignmentPadVector dest 4).length ≤ dest.length + 3 := by
  simp only [alignmentPadVector, List.length_append, List.length_replicate]
  omega

/-- Fewer than `2 ^ 29` offsets keep the blocks and their padding below `2 ^ 32` bytes. -/
theorem length_alignmentPadVector_buildBlocks_lt {offsets : List (BitVec 32)}
    (hn : offsets.length < 2 ^ 29) :
    (alignmentPadVector (buildBlocks (minOffset offsets) offsets [] []).1 4).length < 2 ^ 32 := by
  have h1 := length_alignmentPadVector_le (buildBlocks (minOffset offsets) offsets [] []).1
  have h2 := length_buildBlocks_le (minOffset offsets) offsets [] []
  simp only [List.length_nil] at h2
  omega

/-- The `CompactOffsetTable` round trip: for fewer than `2 ^ 29` offsets, every index below their
number reads its offset back through the accessor of `Build`'s data, minimum offset and table
offset, and through the accessor of the serialising `Build`'s data. -/
theorem compactOffsetTable_roundTrip (offsets : List (BitVec 32)) (hn : offsets.length < 2 ^ 29)
    (index : BitVec 32) (hi : index.toNat < offsets.length) :
    (Accessor.ofOffsets 0 (build offsets).2.1 (build offsets).2.2).getOffset (build offsets).1
        index = some offsets[index.toNat] ∧
      ((Accessor.ofData (buildSerialised offsets) 0).bind fun acc =>
        acc.getOffset (buildSerialised offsets) index) = some offsets[index.toNat] := by
  have hfit := length_alignmentPadVector_buildBlocks_lt hn
  constructor
  · have h := getOffset_build_of_lt [] offsets hfit index hi
    rwa [List.length_nil, List.nil_append] at h
  · -- the serialised data starts with the minimum offset and the table offset
    have hmin := loadU32_append_u32Bytes [] (u32Bytes (build offsets).2.2 ++ (build offsets).1)
      (build offsets).2.1
    have htable := loadU32_append_u32Bytes (u32Bytes (build offsets).2.1) (build offsets).1
      (build offsets).2.2
    have h := getOffset_build_of_lt (u32Bytes (build offsets).2.1 ++ u32Bytes (build offsets).2.2)
      offsets hfit index hi
    simp only [List.nil_append, List.length_nil] at hmin
    simp only [buildSerialised, Accessor.ofData, List.append_assoc] at htable h ⊢
    simp only [length_u32Bytes] at htable
    simp only [List.length_append, length_u32Bytes] at h
    rw [hmin, Nat.zero_add, htable]
    simpa only [Option.bind_eq_bind, Option.bind_some, Option.pure_def, Nat.zero_add] using h

theorem compactOffsetTable_roundTrip_example :
    ([0, 7] : List (BitVec 32)).length < 2 ^ 29 ∧
      (1 : BitVec 32).toNat < ([0, 7] : List (BitVec 32)).length ∧
      ((Accessor.ofOffsets 0 (build [0, 7]).2.1 (build [0, 7]).2.2).getOffset (build [0, 7]).1 1 =
          some 7 ∧
        ((Accessor.ofData (buildSerialised [0, 7]) 0).bind fun acc =>
          acc.getOffset (buildSerialised [0, 7]) 1) = some 7) :=
  ⟨by decide, by decide, compactOffsetTable_roundTrip [0, 7] (by decide) 1 (by decide)⟩

/-! ### Past `2 ^ 32` bytes

The block starts in the table and the table offset are `uint32_t`, so once the blocks and their
padding reach `2 ^ 32` bytes they wrap. Sixteen times 238609295 offsets equal to 1 make blocks of
18 bytes each (a full mask and sixteen zero deltas), `2 ^ 32 + 14` bytes in all: the table offset
is 16, the entry of block 0 is read from bytes 16 to 19 of the blocks, and `GetOffset(0)` returns
0 where the offset is 1. -/

theorem getElem?_flatten_replicate {α : Type} (l : List α) (B : Nat) :
    ∀ k < B * l.length, ((List.replicate B l).flatten)[k]? = l[k % l.length]? := by
  induction B with
  | zero => intro k hk; simp at hk
  | succ B ih =>
    intro k hk
    rw [List.replicate_succ, List.flatten_cons]
    by_cases hkl : k < l.length
    · rw [List.getElem?_append_left hkl, Nat.mod_eq_of_lt hkl]
    · rw [List.getElem?_append_right (by omega), ih _ (by rw [Nat.succ_mul] at hk; omega),
        ← Nat.mod_eq_sub_mod (by omega)]

theorem minOffset_replicate_one (n : Nat) (hn : 0 < n) :
    minOffset (List.replicate n (1 : BitVec 32)) = 1 := by
  obtain ⟨n, rfl⟩ : ∃ m, n = m + 1 := ⟨n - 1, by omega⟩
  have hstay : ∀ k, (List.replicate k (1 : BitVec 32)).foldl (fun minOffset offset =>
      if offset ≠ 0 then (if offset < minOffset then offset else minOffset) else minOffset) 1 = 1 := by
    intro k
    induction k with
    | zero => rfl
    | succ k ih => rw [List.replicate_succ, List.foldl_cons]; simpa using ih
  rw [minOffset, List.replicate_succ, List.foldl_cons]
  simpa using hstay n

theorem encodeUnsignedLeb128_sub_self (x : BitVec 32) :
    encodeUnsignedLeb128 ((x - x).setWidth 64) = [0] := by
  rw [encodeUnsignedLeb128, encodeUnsignedLeb128Loop]
  simp

theorem encodeDeltas_replicate_one (k : Nat) :
    encodeDeltas 1 (List.replicate k (1 : BitVec 32)) = List.replicate k 0 := by
  induction k with
  | zero => rfl
  | succ k ih =>
    rw [List.replicate_succ, encodeDeltas, if_pos (by decide), ih, encodeUnsignedLeb128_sub_self]
    rfl

/-- A block of sixteen offsets equal to the minimum: a full mask and sixteen zero deltas. -/
theorem blockBytes_replicate_one :
    blockBytes 1 (List.replicate 16 1) = [0xff, 0xff] ++ List.replicate 16 0 := by
  rw [blockBytes, encodeDeltas_replicate_one]
  have hmask : blockMask (List.replicate 16 (1 : BitVec 32)) = 0xffff := by decide
  rw [hmask]
  rfl

theorem buildBlocks_replicate_one (B : Nat) :
    ∀ (outData : List (BitVec 8)) (offsetTable : List (BitVec 32)),
      (buildBlocks 1 (List.replicate (16 * B) 1) outData offsetTable).1 =
        outData ++ (List.replicate B ([0xff, 0xff] ++ List.replicate 16 0)).flatten := by
  induction B with
  | zero => intro outData offsetTable; simp [buildBlocks_nil]
  | succ B ih =>
    intro outData offsetTable
    rw [buildBlocks_of_ne_nil 1 (by simp), List.take_replicate, List.drop_replicate,
      show min kElementsPerIndex (16 * (B + 1)) = 16 by unfold kElementsPerIndex; omega,
      show 16 * (B + 1) - kElementsPerIndex = 16 * B by unfold kElementsPerIndex; omega,
      blockBytes_replicate_one, ih]
    set blk : List (BitVec 8) := [0xff, 0xff] ++ List.replicate 16 0
    rw [List.replicate_succ, List.flatten_cons, List.append_assoc]


/-- For `16 * B` offsets equal to 1, where the blocks take `18 * B = 2 ^ 32 + 14` bytes, the table
offset wraps to 16 and `GetOffset(0)` reads its table entry from inside the first blocks. -/
theorem getOffset_build_replicate_one (B : Nat) (hB : 18 * B = 2 ^ 32 + 14) :
    (Accessor.ofOffsets 0 (build (List.replicate (16 * B) 1)).2.1
          (build (List.replicate (16 * B) 1)).2.2).getOffset
        (build (List.replicate (16 * B) 1)).1 0 = some 0 := by
  set blk : List (BitVec 8) := [0xff, 0xff] ++ List.replicate 16 0 with hblk
  have hblocks : (buildBlocks (minOffset (List.replicate (16 * B) 1))
      (List.replicate (16 * B) 1) [] []).1 = (List.replicate B blk).flatten := by
    rw [minOffset_replicate_one _ (by omega), buildBlocks_replicate_one, List.nil_append]
  have hlen : (List.replicate B blk).flatten.length = 18 * B := by
    simp [hblk, Nat.mul_comm]
  -- the blocks take `2 ^ 32 + 14` bytes, and the table offset wraps to 16
  have htableOffset : (build (List.replicate (16 * B) 1)).2.2.toNat = 16 := by
    simp only [build, hblocks, alignmentPadVector, List.length_append, hlen, List.length_replicate,
      hB]
    decide
  have hdata : ∀ k < 18 * B,
      (build (List.replicate (16 * B) 1)).1[k]? = blk[k % 18]? := by
    intro k hk
    simp only [build, hblocks, alignmentPadVector, List.append_assoc]
    rw [List.getElem?_append_left (by omega), getElem?_flatten_replicate _ _ _ (by
      rw [show blk.length = 18 from rfl, Nat.mul_comm]; exact hk)]
    rfl
  -- the table entry is read from bytes 16 to 19 of the blocks: the end of the first block and
  -- the mask of the second
  have hentry : loadU32 (build (List.replicate (16 * B) 1)).1 16 = some 0xffff0000 := by
    simp only [loadU32, hdata 16 (by omega), hdata 17 (by omega), hdata 18 (by omega),
      hdata 19 (by omega)]
    rfl
  -- that entry points into the zero deltas of a block, which read as an empty mask
  have hmask0 : (build (List.replicate (16 * B) 1)).1[0xffff0000]? = some 0 := by
    rw [hdata _ (by omega)]
    rfl
  have hmask1 : (build (List.replicate (16 * B) 1)).1[0xffff0000 + 1]? = some 0 := by
    rw [hdata _ (by omega)]
    rfl
  have hindex : 0 + 16 + 4 * ((0 : BitVec 32).toNat / kElementsPerIndex) = 16 := rfl
  have htoNat : (0xffff0000 : BitVec 32).toNat = 0xffff0000 := rfl
  simp only [Accessor.getOffset, Accessor.ofOffsets, htableOffset, hindex, hentry,
    Option.bind_eq_bind, Option.bind_some, htoNat, Nat.zero_add, hmask0, hmask1]
  rw [if_pos (by decide)]
  rfl

theorem compactOffsetTable_roundTrip_wraps :
    (Accessor.ofOffsets 0 (build (List.replicate (16 * 238609295) 1)).2.1
          (build (List.replicate (16 * 238609295) 1)).2.2).getOffset
        (build (List.replicate (16 * 238609295) 1)).1 0 = some 0 ∧
      (List.replicate (16 * 238609295) (1 : BitVec 32))[0]? = some 1 :=
  ⟨getOffset_build_replicate_one 238609295 (by decide),
    by rw [List.getElem?_replicate, if_pos (by decide)]⟩

end CompactOffsetTable

end Art
