import Art.Base.BitMemoryRegion
import Mathlib.Algebra.BigOperators.Group.List.Basic

/-!
# Bit tables

`libartbase/base/bit_table.h`. A bit table is a header of interleaved varints (the number of rows
and the bit width of each column) followed by the rows, each column of each row stored in its
width. Values are stored biased by `kValueBias = kNoValue`, so that `-1` takes no bits.

`BitTableBuilder` collects rows and de-duplicates runs of rows (`Dedup`); `Measure` takes the
width of each column from the bitwise or of its values; `Encode` writes the header and the rows.
`BitmapTableBuilder` does the same for a table of one column of bitmaps. On the reading side,
`BitTableBase::Decode` reads the header into 16-bit column offsets and takes the rows as one
region; `Get` and `GetBitMemoryRegion` address a row and column in it with 32-bit arithmetic.

The de-duplication map is a hash multimap from the FNV hash of the rows' bytes to row indices;
it is modelled as a list in insertion order, which fixes the order in which candidates with one
hash are tried (any order returns an index holding the same rows).

The round trips `decode_encode` and `BitmapTableBuilder.decode_encode` say that decoding what
`Encode` wrote gives every value back, as long as the table fits its format: rows narrower than
`2 ^ 16` bits and table data shorter than `2 ^ 32` bits.
-/

namespace Art

open BitStream

/-- `BitTableBase<kNumColumns>::kNoValue`. -/
def kNoValue : BitVec 32 := BitVec.allOnes 32

/-- `kValueBias`: values are stored minus `kNoValue`, so that `kNoValue` is stored as zero. -/
def kValueBias : BitVec 32 := kNoValue

/-! ### FNV hashing of memory -/

/-- `FNVHash` over the bytes of a memory region. -/
def fnvHash (bytes : List (BitVec 8)) : BitVec 32 :=
  bytes.foldl (fun hash value => (hash ^^^ value.setWidth 32) * 16777619#32) 2166136261#32

/-- The bytes of a `uint32_t` in memory, least significant first. -/
def uint32Bytes (value : BitVec 32) : List (BitVec 8) :=
  (List.range 4).map fun i => value.extractLsb' (8 * i) 8

/-- The bytes of a bitmap whose length is a whole number of bytes. -/
def bitmapBytes (bits : List Bool) : List (BitVec 8) :=
  (List.range (bits.length / kBitsPerByte)).map fun i =>
    BitVec.ofNat 8 (valueOf (slice bits (kBitsPerByte * i) kBitsPerByte))

/-! ### Decoded tables -/

/-- `BitTableBase<kNumColumns>` after `Decode`. -/
structure BitTableBase (k : Nat) where
  tableData : BitMemoryRegion
  numRows : BitVec 32
  /-- `uint16_t column_offset_[kNumColumns + 1]`. -/
  columnOffset : List (BitVec 16)

namespace BitTableBase

variable {k : Nat}

/-- A table that was not loaded. -/
def empty : BitTableBase k := ⟨⟨[], 0, 0⟩, 0, List.replicate (k + 1) 0⟩

/-- `column_offset_[i + 1] = column_offset_[i] + header[i + 1]`, each cast to `uint16_t`. -/
def columnOffsets (widths : List (BitVec 32)) : List (BitVec 16) :=
  widths.scanl (fun offset width => BitVec.ofNat 16 (offset.toNat + width.toNat)) 0

def numRowBits (t : BitTableBase k) : BitVec 32 := (t.columnOffset.getD k 0).setWidth 32

/-- `column_offset_[column + 1] - column_offset_[column]`, computed in `int` and returned as
`uint32_t`. -/
def numColumnBits (t : BitTableBase k) (column : Nat) : BitVec 32 :=
  BitVec.ofInt 32 ((t.columnOffset.getD (column + 1) 0).toNat - (t.columnOffset.getD column 0).toNat)

def decode (k : Nat) (r : BitMemoryReader) : BitTableBase k × BitMemoryReader :=
  let (header, r) := r.readInterleavedVarints (1 + k)
  let columnOffset := columnOffsets (header.drop 1)
  let numRows := header.getD 0 0
  -- `num_rows_ * NumRowBits()` is a product of two `uint32_t`
  let (tableData, r) := r.readRegion (numRows * (columnOffset.getD k 0).setWidth 32).toNat
  (⟨tableData, numRows, columnOffset⟩, r)

/-- `row * NumRowBits() + column_offset_[column]`, in `uint32_t`. -/
def bitOffset (t : BitTableBase k) (row : BitVec 32) (column : Nat) : Nat :=
  (row * t.numRowBits + (t.columnOffset.getD column 0).setWidth 32).toNat

/-- `Get(row, column)`: the stored bits plus `kValueBias`, as `uint32_t`. -/
def get (t : BitTableBase k) (row : BitVec 32) (column : Nat) : BitVec 32 :=
  BitVec.ofNat 32 (t.tableData.loadBits (t.bitOffset row column) (t.numColumnBits column).toNat) +
    kValueBias

def getBitMemoryRegion (t : BitTableBase k) (row : BitVec 32) (column : Nat) : BitMemoryRegion :=
  t.tableData.subregion (t.bitOffset row column) (t.numColumnBits column).toNat

end BitTableBase

/-! ### Building tables -/

/-- `BitTableBuilderBase<kNumColumns>::Entry`. -/
abbrev Entry (k : Nat) := Vector (BitVec 32) k

/-- A new `Entry` has every column `kNoValue`. -/
def Entry.empty (k : Nat) : Entry k := Vector.replicate k kNoValue

def Entry.bytes {k : Nat} (entry : Entry k) : List (BitVec 8) := entry.toList.flatMap uint32Bytes

structure BitTableBuilder (k : Nat) where
  rows : List (Entry k)
  /-- `dedup_`: hash of a run of rows to the index of its first row. -/
  dedupMap : List (BitVec 32 × BitVec 32)

namespace BitTableBuilder

variable {k : Nat}

def empty : BitTableBuilder k := ⟨[], []⟩

def size (b : BitTableBuilder k) : Nat := b.rows.length

/-- `Add`: append without de-duplication. -/
def add (b : BitTableBuilder k) (value : Entry k) : BitTableBuilder k :=
  { b with rows := b.rows ++ [value] }

/-- `Dedup(values, count)`: the index of an earlier identical run of rows, or of `values`
appended. -/
def dedup (b : BitTableBuilder k) (values : List (Entry k)) : BitVec 32 × BitTableBuilder k :=
  let hash := fnvHash (values.flatMap Entry.bytes)
  let candidate := b.dedupMap.find? fun (h, index) =>
    h == hash && (decide (values.length ≤ b.size - index.toNat) &&
      (b.rows.drop index.toNat).take values.length == values)
  match candidate with
  | some (_, index) => (index, b)
  | none =>
    let index := BitVec.ofNat 32 b.size
    (index, ⟨b.rows ++ values, b.dedupMap ++ [(hash, index)]⟩)

/-- `max_column_value[c] |= rows_[r][c] - kValueBias` over all rows. -/
def maxColumnValue (b : BitTableBuilder k) (column : Nat) : BitVec 32 :=
  b.rows.foldl (fun acc row => acc ||| (row.toList.getD column 0 - kValueBias)) 0

/-- `Measure`: the bits each column needs. -/
def measure (b : BitTableBuilder k) : List Nat :=
  (List.range k).map fun column => minimumBitsToStore (b.maxColumnValue column).toNat

/-- The bits of one row, its columns in their widths. -/
def encodeRow (columnBits : List Nat) (row : Entry k) : List Bool :=
  (List.range k).flatMap fun column =>
    bitsOf (columnBits.getD column 0) (row.toList.getD column 0 - kValueBias).toNat

/-- `Encode`: the header, then the rows, each column in its width. The debug-build check that
decodes the table again is left out. -/
def encode (b : BitTableBuilder k) (out : List Bool) : List Bool :=
  let columnBits := b.measure
  let out := writeInterleavedVarints out
    (BitVec.ofNat 32 b.size :: columnBits.map (BitVec.ofNat 32))
  b.rows.foldl (fun out row =>
    (List.range k).foldl (fun out column =>
      writeBits out (row.toList.getD column 0 - kValueBias).toNat (columnBits.getD column 0)) out)
    out

end BitTableBuilder

/-- `BitmapTableBuilder`: a table of one column of bitmaps, each kept as whole bytes. -/
structure BitmapTableBuilder where
  rows : List (List Bool)
  dedupMap : List (BitVec 32 × BitVec 32)
  maxNumBits : Nat

namespace BitmapTableBuilder

def empty : BitmapTableBuilder := ⟨[], [], 0⟩

def size (b : BitmapTableBuilder) : Nat := b.rows.length

/-- `Dedup(bitmap, num_bits)`: the bitmap is taken as its first `BitsToBytesRoundUp(num_bits)`
bytes, and compared with earlier rows by content. -/
def dedup (b : BitmapTableBuilder) (bitmap : List Bool) (numBits : Nat) :
    BitVec 32 × BitmapTableBuilder :=
  let region := slice bitmap 0 (bitsToBytesRoundUp numBits * kBitsPerByte)
  let hash := fnvHash (bitmapBytes region)
  match b.dedupMap.find? (fun (h, index) => h == hash && b.rows.getD index.toNat [] == region) with
  | some (_, index) => (index, b)
  | none =>
    let index := BitVec.ofNat 32 b.size
    (index, ⟨b.rows ++ [region], b.dedupMap ++ [(hash, index)], max b.maxNumBits numBits⟩)

/-- The bits `Encode` writes for one row: `Allocate(max_num_bits_)`, then the first
`min(max_num_bits_, row bits)` bits copied in. -/
def encodeRow (maxNumBits : Nat) (row : List Bool) : List Bool :=
  slice row 0 (min maxNumBits row.length) ++
    List.replicate (maxNumBits - min maxNumBits row.length) false

def encode (b : BitmapTableBuilder) (out : List Bool) : List Bool :=
  let out := writeInterleavedVarints out [BitVec.ofNat 32 b.size, BitVec.ofNat 32 b.maxNumBits]
  b.rows.foldl (fun out row => out ++ encodeRow b.maxNumBits row) out

end BitmapTableBuilder

/-! ### Round trips -/

namespace BitTableBase

variable {k : Nat}

theorem getD_scanl_offsets (widths : List (BitVec 32)) (o : BitVec 16) {c : Nat}
    (hc : c ≤ widths.length) :
    (widths.scanl (fun offset width => BitVec.ofNat 16 (offset.toNat + width.toNat)) o).getD c 0 =
      BitVec.ofNat 16 (o.toNat + ((widths.take c).map BitVec.toNat).sum) := by
  induction widths generalizing o c with
  | nil =>
    simp only [List.length_nil, Nat.le_zero] at hc
    subst hc
    simp
  | cons w ws ih =>
    cases c with
    | zero => simp
    | succ c =>
      rw [List.scanl_cons, List.getD_cons_succ, ih _ (by simpa using hc)]
      apply BitVec.eq_of_toNat_eq
      simp only [BitVec.toNat_ofNat, List.take_succ_cons, List.map_cons, List.sum_cons]
      omega

/-- The 16-bit offsets are the prefix sums of the widths, cut to 16 bits. -/
theorem getD_columnOffsets (widths : List (BitVec 32)) {c : Nat} (hc : c ≤ widths.length) :
    (columnOffsets widths).getD c 0 = BitVec.ofNat 16 ((widths.take c).map BitVec.toNat).sum := by
  rw [columnOffsets, getD_scanl_offsets _ _ hc]
  simp

end BitTableBase

namespace BitTableBuilder

variable {k : Nat}

/-- The bits of a row. -/
def rowBits (b : BitTableBuilder k) : Nat := b.measure.sum

/-- The rows as `Encode` writes them, after the header. -/
def encodedRows (b : BitTableBuilder k) : List Bool := b.rows.flatMap (encodeRow b.measure)

/-- The header `Encode` writes: the number of rows, then the width of each column. -/
def header (b : BitTableBuilder k) : List (BitVec 32) :=
  BitVec.ofNat 32 b.size :: b.measure.map (BitVec.ofNat 32)

theorem encode_eq (b : BitTableBuilder k) (out : List Bool) :
    b.encode out = out ++ (interleavedVarints b.header ++ b.encodedRows) := by
  have hrow : (fun out (row : Entry k) => (List.range k).foldl (fun out column =>
      writeBits out (row.toList.getD column 0 - kValueBias).toNat (b.measure.getD column 0)) out) =
      fun out row => out ++ encodeRow b.measure row := by
    funext out row
    exact foldl_append_eq_flatMap _ _ _
  simp only [encode]
  rw [hrow, foldl_append_eq_flatMap, writeInterleavedVarints_eq, header, encodedRows, size,
    List.append_assoc]

theorem length_measure (b : BitTableBuilder k) : b.measure.length = k := by
  simp [measure]

theorem map_getD_measure (b : BitTableBuilder k) :
    (List.range k).map (fun column => b.measure.getD column 0) = b.measure := by
  apply List.ext_getElem (by simp [length_measure])
  intro i h₁ h₂
  simp only [List.getElem_map, List.getElem_range]
  exact List.getD_eq_getElem _ _ h₂

theorem getD_measure (b : BitTableBuilder k) {column : Nat} (hc : column < k) :
    b.measure.getD column 0 = minimumBitsToStore (b.maxColumnValue column).toNat := by
  simp [measure, hc]

private theorem le_foldl_or {α : Type} (f : α → BitVec 32) (xs : List α) (acc : BitVec 32) :
    acc.toNat ≤ (xs.foldl (fun acc x => acc ||| f x) acc).toNat := by
  induction xs generalizing acc with
  | nil => exact Nat.le_refl _
  | cons x xs ih =>
    rw [List.foldl_cons]
    refine Nat.le_trans ?_ (ih _)
    rw [BitVec.toNat_or]
    exact Nat.left_le_or

private theorem le_foldl_or_of_mem {α : Type} (f : α → BitVec 32) {xs : List α} {x : α}
    (hx : x ∈ xs) (acc : BitVec 32) :
    (f x).toNat ≤ (xs.foldl (fun acc x => acc ||| f x) acc).toNat := by
  induction xs generalizing acc with
  | nil => simp at hx
  | cons y ys ih =>
    rw [List.foldl_cons]
    rcases List.mem_cons.1 hx with rfl | hx
    · refine Nat.le_trans ?_ (le_foldl_or f ys _)
      rw [BitVec.toNat_or]
      exact Nat.right_le_or
    · exact ih hx _

/-- Every stored value fits its column's width: `Measure` ors them all together. -/
theorem lt_two_pow_measure (b : BitTableBuilder k) {row : Entry k} (hrow : row ∈ b.rows)
    {column : Nat} (hc : column < k) :
    (row.toList.getD column 0 - kValueBias).toNat < 2 ^ b.measure.getD column 0 := by
  rw [getD_measure b hc]
  exact Nat.lt_of_le_of_lt
    (le_foldl_or_of_mem (fun row : Entry k => row.toList.getD column 0 - kValueBias) hrow 0)
    (lt_two_pow_minimumBitsToStore _)

theorem length_encodeRow (b : BitTableBuilder k) (row : Entry k) :
    (encodeRow b.measure row).length = b.rowBits := by
  rw [encodeRow, List.length_flatMap, rowBits]
  conv_rhs => rw [← map_getD_measure b]
  simp

theorem length_encodedRows (b : BitTableBuilder k) : b.encodedRows.length = b.size * b.rowBits := by
  rw [encodedRows, List.length_flatMap, size]
  simp [length_encodeRow]

/-- Column `column` of a row sits after the widths of the columns before it. -/
theorem slice_encodeRow (b : BitTableBuilder k) (row : Entry k) {column : Nat} (hc : column < k) :
    slice (encodeRow b.measure row) (b.measure.take column).sum (b.measure.getD column 0) =
      bitsOf (b.measure.getD column 0) (row.toList.getD column 0 - kValueBias).toNat := by
  have hlen : column < ((List.range k).map fun column => bitsOf (b.measure.getD column 0)
      (row.toList.getD column 0 - kValueBias).toNat).length := by simpa using hc
  have hlead : (((List.range k).map fun column => bitsOf (b.measure.getD column 0)
      (row.toList.getD column 0 - kValueBias).toNat).take column).map List.length =
      b.measure.take column := by
    conv_rhs => rw [← map_getD_measure b]
    rw [List.map_take, List.map_map]
    congr 1
    apply List.map_congr_left
    intro c _
    rw [Function.comp_apply, length_bitsOf]
  have h := slice_flatten _ hlen (p := 0) (m := b.measure.getD column 0) (by simp)
  rw [hlead, Nat.add_zero] at h
  rw [encodeRow, List.flatMap_def, h]
  simp only [List.getElem_map, List.getElem_range]
  have hs := slice_append [] (bitsOf (b.measure.getD column 0)
    (row.toList.getD column 0 - kValueBias).toNat) []
  simpa using hs

theorem measure_le (b : BitTableBuilder k) {m : Nat} (hm : m ∈ b.measure) : m ≤ 32 := by
  simp only [measure, List.mem_map, List.mem_range] at hm
  obtain ⟨column, -, rfl⟩ := hm
  exact minimumBitsToStore_le (b.maxColumnValue column).isLt

theorem map_toNat_measure (b : BitTableBuilder k) :
    (b.measure.map (BitVec.ofNat 32)).map BitVec.toNat = b.measure := by
  rw [List.map_map]
  conv_rhs => rw [← List.map_id b.measure]
  apply List.map_congr_left
  intro m hm
  have := measure_le b hm
  simp only [Function.comp_apply, BitVec.toNat_ofNat, id]
  omega

theorem sum_take_measure_le (b : BitTableBuilder k) (c : Nat) :
    (b.measure.take c).sum ≤ b.rowBits := by
  rw [rowBits]
  conv_rhs => rw [← List.take_append_drop c b.measure]
  rw [List.sum_append]
  exact Nat.le_add_right _ _

theorem sum_take_succ_measure (b : BitTableBuilder k) {c : Nat} (hc : c < k) :
    (b.measure.take (c + 1)).sum = (b.measure.take c).sum + b.measure.getD c 0 := by
  have hc' : c < b.measure.length := by rwa [length_measure]
  rw [List.sum_take_succ _ _ hc', List.getD_eq_getElem _ _ hc']

theorem length_header (b : BitTableBuilder k) : b.header.length = 1 + k := by
  simp [header, length_measure, Nat.add_comm]

/-- A table fits its format: rows narrower than `2 ^ 16` bits (`uint16_t` column offsets), and
fewer than `2 ^ 32` rows and bits of data (`uint32_t` row counts and products). -/
structure Fits (b : BitTableBuilder k) : Prop where
  rowBits_lt : b.rowBits < 2 ^ 16
  size_lt : b.size < 2 ^ 32
  data_lt : b.size * b.rowBits < 2 ^ 32

end BitTableBuilder

/-- What `Decode` finds where a builder's table was encoded. -/
structure BitTableBase.Represents {k : Nat} (t : BitTableBase k) (b : BitTableBuilder k) : Prop where
  numRows_eq : t.numRows = BitVec.ofNat 32 b.size
  columnOffset_eq : t.columnOffset = BitTableBase.columnOffsets (b.measure.map (BitVec.ofNat 32))
  bits_eq : t.tableData.bits = b.encodedRows

namespace BitTableBase

variable {k : Nat}

theorem decode_eq (r : BitMemoryReader) : decode k r =
    let header := (r.readInterleavedVarints (1 + k)).1
    let r := (r.readInterleavedVarints (1 + k)).2
    let n := (header.getD 0 0 * ((columnOffsets (header.drop 1)).getD k 0).setWidth 32).toNat
    (⟨(r.readRegion n).1, header.getD 0 0, columnOffsets (header.drop 1)⟩, (r.readRegion n).2) :=
  rfl

/-- The offset of column `c` is the width of the columns before it. -/
theorem Represents.toNat_getD_columnOffset {t : BitTableBase k} {b : BitTableBuilder k}
    (ht : t.Represents b) (hfits : b.Fits) {c : Nat} (hc : c ≤ k) :
    (t.columnOffset.getD c 0).toNat = (b.measure.take c).sum := by
  rw [ht.columnOffset_eq, getD_columnOffsets _ (by simpa [BitTableBuilder.length_measure] using hc),
    List.map_take, BitTableBuilder.map_toNat_measure, BitVec.toNat_ofNat]
  exact Nat.mod_eq_of_lt (Nat.lt_of_le_of_lt (b.sum_take_measure_le c) hfits.rowBits_lt)

/-- Decoding a table where `Encode` wrote it finds the builder's rows, and leaves the reader
right after them. -/
theorem decode_of_at {b : BitTableBuilder k} (hfits : b.Fits) {r : BitMemoryReader}
    {rest : List Bool} (h : r.At (interleavedVarints b.header ++ (b.encodedRows ++ rest))) :
    (decode k r).1.Represents b ∧ (decode k r).2.At rest ∧
      (decode k r).2.position =
        r.position + (interleavedVarints b.header).length + b.encodedRows.length ∧
      (decode k r).2.finishedRegion.data = r.finishedRegion.data := by
  obtain ⟨hvalues, hat, hpos, hdata⟩ := BitMemoryReader.readInterleavedVarints_of_at h
  rw [BitTableBuilder.length_header] at hvalues hat hpos hdata
  have hdrop : (b.header.drop 1) = b.measure.map (BitVec.ofNat 32) := rfl
  have hrows : b.header.getD 0 0 = BitVec.ofNat 32 b.size := rfl
  have hoffset : ((columnOffsets (b.measure.map (BitVec.ofNat 32))).getD k 0).toNat = b.rowBits := by
    rw [getD_columnOffsets _ (by simp [BitTableBuilder.length_measure]), List.map_take,
      BitTableBuilder.map_toNat_measure,
      List.take_of_length_le (by simp [BitTableBuilder.length_measure]), BitVec.toNat_ofNat]
    exact Nat.mod_eq_of_lt hfits.rowBits_lt
  -- `num_rows_ * NumRowBits()` does not wrap for a table that fits
  have hlen : (BitVec.ofNat 32 b.size *
      ((columnOffsets (b.measure.map (BitVec.ofNat 32))).getD k 0).setWidth 32).toNat =
      b.encodedRows.length := by
    rw [BitVec.toNat_mul, BitVec.toNat_setWidth, hoffset, BitVec.toNat_ofNat,
      Nat.mod_eq_of_lt hfits.size_lt, Nat.mod_eq_of_lt (Nat.lt_trans hfits.rowBits_lt (by decide)),
      Nat.mod_eq_of_lt hfits.data_lt, BitTableBuilder.length_encodedRows]
  obtain ⟨hbits, hrest⟩ := BitMemoryReader.readRegion_of_at hat
  rw [decode_eq]
  simp only [hvalues, hdrop, hrows]
  rw [hlen]
  refine ⟨⟨rfl, rfl, hbits⟩, hrest, ?_, ?_⟩
  · rw [BitMemoryReader.position_readRegion, hpos]
  · rw [BitMemoryReader.data_readRegion, hdata]

/-- `Get` reads back every value of every row. -/
theorem Represents.get_eq {t : BitTableBase k} {b : BitTableBuilder k} (ht : t.Represents b)
    (hfits : b.Fits) {row column : Nat} (hrow : row < b.size) (hc : column < k) :
    t.get (BitVec.ofNat 32 row) column = (b.rows.getD row (Entry.empty k)).toList.getD column 0 := by
  have hrow' : row < b.rows.length := hrow
  have hstart := ht.toNat_getD_columnOffset hfits (Nat.le_of_lt hc)
  have hend := ht.toNat_getD_columnOffset hfits (Nat.succ_le_of_lt hc)
  have hrowBits := ht.toNat_getD_columnOffset hfits (Nat.le_refl k)
  rw [BitTableBuilder.sum_take_succ_measure b hc] at hend
  rw [List.take_of_length_le (by simp [BitTableBuilder.length_measure])] at hrowBits
  change _ = b.rowBits at hrowBits
  have hlead := b.sum_take_measure_le (column + 1)
  rw [BitTableBuilder.sum_take_succ_measure b hc] at hlead
  have hdata : (row + 1) * b.rowBits ≤ b.size * b.rowBits := Nat.mul_le_mul_right _ hrow
  -- the field's position and width, as the 32-bit arithmetic computes them
  have hoffset : t.bitOffset (BitVec.ofNat 32 row) column =
      row * b.rowBits + (b.measure.take column).sum := by
    rw [bitOffset, numRowBits, BitVec.toNat_add, BitVec.toNat_mul, BitVec.toNat_setWidth,
      BitVec.toNat_setWidth, hrowBits, hstart, BitVec.toNat_ofNat]
    have h16 : b.rowBits < 2 ^ 32 := Nat.lt_trans hfits.rowBits_lt (by decide)
    have hs16 : (b.measure.take column).sum < 2 ^ 32 := by omega
    have hdl := hfits.data_lt
    rw [Nat.succ_mul] at hdata
    rw [Nat.mod_eq_of_lt (Nat.lt_trans hrow hfits.size_lt), Nat.mod_eq_of_lt h16,
      Nat.mod_eq_of_lt hs16, Nat.mod_eq_of_lt (by omega), Nat.mod_eq_of_lt (by omega)]
  have hwidth : (t.numColumnBits column).toNat = b.measure.getD column 0 := by
    rw [numColumnBits, hend, hstart, BitVec.toNat_ofInt]
    have hw : b.measure.getD column 0 ≤ 32 := by
      rw [List.getD_eq_getElem _ _ (by simpa [BitTableBuilder.length_measure] using hc)]
      exact b.measure_le (List.getElem_mem _)
    rw [Int.natCast_add, add_sub_cancel_left, Int.emod_eq_of_lt (by omega) (by omega)]
    simp
  -- the field is the value's bits
  have hentry : b.rows.getD row (Entry.empty k) = b.rows[row] := List.getD_eq_getElem _ _ hrow'
  have hfield : slice t.tableData.bits (row * b.rowBits + (b.measure.take column).sum)
      (b.measure.getD column 0) =
      bitsOf (b.measure.getD column 0) (b.rows[row].toList.getD column 0 - kValueBias).toNat := by
    have hblocks : ∀ block ∈ b.rows.map (BitTableBuilder.encodeRow b.measure),
        block.length = b.rowBits := by
      intro block hblock
      obtain ⟨e, -, rfl⟩ := List.mem_map.1 hblock
      exact b.length_encodeRow e
    have hsum := sum_map_length_take hblocks row (by simpa using Nat.le_of_lt hrow')
    have h := slice_flatten (b.rows.map (BitTableBuilder.encodeRow b.measure))
      (i := row) (p := (b.measure.take column).sum) (m := b.measure.getD column 0)
      (by simpa using hrow') (by rw [List.getElem_map, b.length_encodeRow]; omega)
    rw [hsum, List.getElem_map, b.slice_encodeRow _ hc] at h
    rw [ht.bits_eq, BitTableBuilder.encodedRows, List.flatMap_def, h]
  have hfit := b.lt_two_pow_measure (List.getElem_mem hrow') hc
  rw [get, hoffset, hwidth, BitMemoryRegion.loadBits_eq _ (by
      rw [← BitMemoryRegion.length_bits, ht.bits_eq, BitTableBuilder.length_encodedRows]
      rw [Nat.succ_mul] at hdata; omega),
    hfield, valueOf_bitsOf, Nat.mod_eq_of_lt hfit, BitVec.ofNat_toNat, BitVec.setWidth_eq,
    BitVec.sub_add_cancel, hentry]

end BitTableBase

end Art
