import Art.Verifier.MethodVerifier
import Mathlib.Algebra.Group.Nat.Defs

/-!
# `fill-array-data` at run time and in the compiler

The switch interpreter (`FILL_ARRAY_DATA`), nterp (`op_fill_array_data`, through
`art_quick_handle_fill_data`) and compiled code that calls `artHandleFillArrayDataFromCode` all
run `FillArrayData` (`runtime/entrypoints/entrypoint_utils.cc`) on the table the instruction
points at. The optimizing compiler instead expands the table into one `HArraySet` per element
(`HInstructionBuilder::BuildFillArrayData`, `compiler/optimizing/instruction_builder.cc`).

The length check of `FillArrayData` compares `static_cast<int32_t>(element_count)` with the
array length, and its byte count `element_count * element_width` is a `uint32_t` product. The
table checked by the verifier in `MethodVerifier.wrappedTableCodeItem` has
`element_count = 2^31 + 100`: the cast makes it negative, the product wraps to `200`, and the
copy writes 200 bytes into the 20 bytes of a `short[10]`.
-/

namespace Art

/-- An array of primitives: its component type and `GetLength()`, a non-negative `int32_t`. Its
data, `GetRawData(width, 0)`, is `length * componentSize` bytes. -/
structure PrimitiveArray where
  component : PrimitiveType
  length : Nat
  length_lt : length < 2 ^ 31

/-- `Instruction::ArrayDataPayload`: the header of an array-data table. Its `data` starts at the
fifth code unit of the table. -/
structure ArrayDataPayload where
  ident : UInt16
  elementWidth : UInt16
  elementCount : UInt32
  deriving DecidableEq, Repr

/-- The header of the table that starts at code unit `start`. -/
def ArrayDataPayload.read (insns : List UInt16) (start : Nat) : ArrayDataPayload :=
  ⟨fetch16 insns start 0, fetch16 insns start 1, fetch32 insns start 2⟩

/-- What one `FillArrayData` call does. -/
inductive FillArrayDataOutcome where
  | nullPointerException
  | arrayIndexOutOfBoundsException
  /-- `memcpy(array->GetRawData(element_width, 0), payload->data, size_in_bytes)`. -/
  | copy (sizeInBytes : Nat)
  deriving DecidableEq, Repr

/-- `FillArrayData(obj, payload)`; `none` is a null `obj`. -/
def fillArrayData (obj : Option PrimitiveArray) (payload : ArrayDataPayload) :
    FillArrayDataOutcome :=
  match obj with
  | none => .nullPointerException
  | some array =>
    if payload.elementCount.toBitVec.toInt > array.length then .arrayIndexOutOfBoundsException
    else .copy (payload.elementCount * payload.elementWidth.toUInt32).toNat

/-- `new short[10]`. -/
def shortArrayOfTen : PrimitiveArray := ⟨.short, 10, by decide⟩

theorem fillArrayData_overruns_wrapped_table :
    MethodVerifier.verifyStatic MethodVerifier.wrappedTableDexFile
        MethodVerifier.wrappedTableCodeItem false = true ∧
      MethodVerifier.verifyFillArrayData (.primitiveArray .short)
        MethodVerifier.wrappedTableCodeItem.insns 4 = true ∧
      (ArrayDataPayload.read MethodVerifier.wrappedTableCodeItem.insns 8).elementCount.toNat =
        2 ^ 31 + 100 ∧
      fillArrayData (some shortArrayOfTen)
        (ArrayDataPayload.read MethodVerifier.wrappedTableCodeItem.insns 8) = .copy 200 ∧
      shortArrayOfTen.length * shortArrayOfTen.component.componentSize = 20 := by
  decide +kernel

/-! ## `HInstructionBuilder::BuildFillArrayData` -/

/-- The code item as bytes, each code unit little-endian. -/
def codeItemBytes (insns : List UInt16) : List UInt8 :=
  insns.flatMap fun (u : UInt16) => [u.toUInt8, (u >>> 8).toUInt8]

/-- The little-endian number in `bytes`. -/
def littleEndian (bytes : List UInt8) : Nat :=
  bytes.foldr (fun b acc => b.toNat + 256 * acc) 0

/-- `data[i]` for a table of `width`-byte elements whose data starts at byte `offset` of the code
item: the signed element, or `none` when its bytes run past the end of the code item. -/
def readElement (insns : List UInt16) (offset width i : Nat) : Option Int :=
  let bytes := codeItemBytes insns
  let at_ := offset + i * width
  if at_ + width ≤ bytes.length then
    some (BitVec.ofNat (8 * width) (littleEndian ((bytes.drop at_).take width))).toInt
  else none

/-- The instructions `BuildFillArrayData` appends. -/
inductive FillArrayNode where
  | arrayLength
  /-- `HBoundsCheck` of the constant `element_count - 1`, an `int32_t`. -/
  | boundsCheck (lastIndex : Int)
  /-- `HArraySet(array, i, data[i])`. -/
  | arraySet (index : Nat) (value : Option Int)
  deriving DecidableEq, Repr

/-- `BuildFillArrayData` for the `fill-array-data` at `dexPc`: nothing for an empty table,
otherwise the length, the bounds check of the last index, and one store per element whose value
is read from `data[i]` at compile time (the `default: LOG(FATAL)` of an unknown width is left
out). -/
def buildFillArrayData (insns : List UInt16) (dexPc : Nat) : List FillArrayNode :=
  let start := ((dexPc : Int) + (fetch32 insns dexPc 1).toBitVec.toInt).toNat
  let payload := ArrayDataPayload.read insns start
  let count := payload.elementCount.toNat
  if count = 0 then []
  else
    .arrayLength :: .boundsCheck (payload.elementCount - 1).toBitVec.toInt ::
      (List.range count).map fun i =>
        .arraySet i (readElement insns (2 * (start + 4)) payload.elementWidth.toNat i)

/-- The compiler side of the same wrap: building the graph for the table of
`wrappedTableCodeItem` reads `data[100]` from past the end of the code item. -/
theorem buildFillArrayData_reads_past_code_item :
    .arraySet 100 none ∈ buildFillArrayData MethodVerifier.wrappedTableCodeItem.insns 4 := by
  have hstore : readElement MethodVerifier.wrappedTableCodeItem.insns 24 2 100 = none := by
    decide +kernel
  have hcount : (ArrayDataPayload.read MethodVerifier.wrappedTableCodeItem.insns 8).elementCount.toNat
      = 2 ^ 31 + 100 := by decide +kernel
  have hstart : (((4 : Nat) : Int) +
      (fetch32 MethodVerifier.wrappedTableCodeItem.insns 4 1).toBitVec.toInt).toNat = 8 := by
    decide +kernel
  simp only [buildFillArrayData, hstart, hcount]
  refine List.mem_cons_of_mem _ (List.mem_cons_of_mem _ (List.mem_map.2 ⟨100, ?_, ?_⟩))
  · simp
  · rw [← hstore]; rfl

end Art
