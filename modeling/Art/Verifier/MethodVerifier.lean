import Art.Dex.Instruction
import Mathlib.Data.Int.Bitwise

/-!
# Static checks of the method verifier (`runtime/verifier/method_verifier.cc`)

For a method with code, `MethodVerifier::Verify` runs `ComputeWidthsAndCountOps` (a linear scan
that marks every instruction start as an opcode), `ScanTryCatchBlocks`, `VerifyInstructions` (the
operand, branch, switch and array-data checks of each instruction) and then the code-flow
analysis. The first three are computable functions of the code item here; the opcode flags are
the list of dex pcs the scan marks. Of the code-flow analysis, the rule for `FILL_ARRAY_DATA` is
modelled on its own, as a function of the register type it reads.

A check that calls `Fail(VERIFY_ERROR_BAD_CLASS_HARD)` returns `false`, which ends the method's
verification. The soft `VERIFY_ERROR_INSTANTIATION` of `CheckNewInstance` lets the check pass and
is not modelled; neither are the branch-target and in-try flags, which these checks set and the
code-flow analysis reads. The code item's instructions are 4-byte aligned (the dex format places
`insns` 16 bytes into a 4-byte aligned code item), so `IsAligned<4>` of a pointer into them is
evenness of the dex pc. `int32_t` sums are taken exactly, where the source would overflow.
-/

namespace Art

/-- What the static checks read of the dex file: the counts of the id sections and the type
descriptors (`DexFile::GetTypeDescriptor`). -/
structure DexFileIds where
  stringIdsSize : UInt32
  typeIdsSize : UInt32
  protoIdsSize : UInt32
  fieldIdsSize : UInt32
  methodIdsSize : UInt32
  numCallSiteIds : UInt32
  numMethodHandles : UInt32
  typeDescriptor : UInt16 → List Char

/-- A `try_item`: `start_addr_` and `insn_count_`. -/
structure TryItem where
  startAddr : UInt32
  insnCount : UInt16
  deriving DecidableEq, Repr

/-- A code item as `CodeItemDataAccessor` shows it to the verifier. The catch handlers are given
decoded: the handler addresses of each `encoded_catch_handler`. -/
structure CodeItem where
  registersSize : UInt16
  insSize : UInt16
  insns : List UInt16
  tries : List TryItem
  handlers : List (List UInt32)
  deriving DecidableEq, Repr

namespace CodeItem

/-- `InsnsSizeInCodeUnits`, the `uint32_t` the checks compare against. -/
def insnsSizeInCodeUnits (c : CodeItem) : UInt32 := UInt32.ofNat c.insns.length

end CodeItem

/-- The primitive types of array components (`Primitive::Type`). -/
inductive PrimitiveType where
  | boolean | byte | char | short | int | long | float | double
  deriving DecidableEq, Repr

/-- `Primitive::ComponentSize`. -/
def PrimitiveType.componentSize : PrimitiveType → Nat
  | .boolean | .byte => 1
  | .char | .short => 2
  | .int | .float => 4
  | .long | .double => 8

namespace MethodVerifier

/-! ## `ComputeWidthsAndCountOps` -/

/-- The loop of `ComputeWidthsAndCountOps` from `pc`: the pcs it marks as opcodes and the pc at
which it stops. `SafeDexInstructionIterator::operator++` refuses an instruction whose size, or
the code units needed to compute it, run past the end; the loop then stops before marking it.
Each step advances by at least one unit, so `fuel = insns.length` always reaches the end. -/
def scanOpcodes (insns : List UInt16) : Nat → Nat → List Nat × Nat
  | 0, pc => ([], pc)
  | fuel + 1, pc =>
    if pc < insns.length then
      if insns.length - pc < codeUnitsRequiredForSizeComputation insns pc ∨
          insns.length - pc < sizeInCodeUnits insns pc then ([], pc)
      else
        let r := scanOpcodes insns fuel (pc + sizeInCodeUnits insns pc)
        (pc :: r.1, r.2)
    else ([], pc)

/-- `ComputeWidthsAndCountOps`: the instruction starts, or `none` when the code item is empty or
the last instruction does not end exactly at the end of the code. -/
def computeWidthsAndCountOps (c : CodeItem) : Option (List Nat) :=
  if c.insns.length = 0 then none
  else
    let r := scanOpcodes c.insns c.insns.length 0
    if r.2 = c.insns.length then some r.1 else none

/-! ## `ScanTryCatchBlocks` -/

/-- `CheckNotMoveResult`: the instruction at `pc` is not one of the `move-result*`. -/
def checkNotMoveResult (insns : List UInt16) (pc : Nat) : Bool :=
  let op := fetch16 insns pc 0 &&& 0xff
  !(Code.moveResult.toUInt16 ≤ op && op ≤ Code.moveResultObject.toUInt16)

/-- The range check and opcode check of one try item. `start + insn_count` is a `uint32_t` sum. -/
def checkTryItem (c : CodeItem) (opcodes : List Nat) (t : TryItem) : Bool :=
  let start := t.startAddr
  let stop := start + t.insnCount.toUInt32
  !(start ≥ stop || start ≥ c.insnsSizeInCodeUnits || stop > c.insnsSizeInCodeUnits) &&
    opcodes.contains start.toNat

/-- `ScanTryCatchBlocks`: every try item starts at an opcode inside the code, and every handler
address is an opcode that is not a `move-result*`. -/
def scanTryCatchBlocks (c : CodeItem) (opcodes : List Nat) : Bool :=
  c.tries.isEmpty ||
    (c.tries.all (checkTryItem c opcodes) &&
      c.handlers.all fun h => h.all fun pc =>
        opcodes.contains pc.toNat && checkNotMoveResult c.insns pc.toNat)

/-! ## Operand checks -/

/-- `CheckRegisterIndex`. -/
def checkRegisterIndex (c : CodeItem) (idx : UInt32) : Bool := idx < c.registersSize.toUInt32

/-- `CheckWideRegisterIndex`: `idx + 1` is a `uint32_t` sum. -/
def checkWideRegisterIndex (c : CodeItem) (idx : UInt32) : Bool :=
  idx + 1 < c.registersSize.toUInt32

/-- The index checks against one id count (`CheckFieldIndex`, `CheckMethodIndex`,
`CheckStringIndex`, `CheckPrototypeIndex`, `CheckCallSiteIndex`, `CheckMethodHandleIndex`). -/
def checkIndex (limit idx : UInt32) : Bool := idx < limit

/-- `CheckTypeIndex`: the operand is narrowed to the `uint16_t` of a `dex::TypeIndex`. -/
def checkTypeIndex (ids : DexFileIds) (idx : UInt32) : Bool :=
  idx.toUInt16.toUInt32 < ids.typeIdsSize

/-- `CheckNewInstance`: a valid type index whose descriptor starts with `L`. -/
def checkNewInstance (ids : DexFileIds) (idx : UInt32) : Bool :=
  checkTypeIndex ids idx && (ids.typeDescriptor idx.toUInt16).head? == some 'L'

/-- `CheckNewArray`: a valid type index whose descriptor starts with one to 255 `[`. -/
def checkNewArray (ids : DexFileIds) (idx : UInt32) : Bool :=
  let bracketCount := ((ids.typeDescriptor idx.toUInt16).takeWhile (· == '[')).length
  checkTypeIndex ids idx && bracketCount != 0 && bracketCount ≤ 255

/-- `CheckVarArgRegs`: the first `vA` argument registers are in range. -/
def checkVarArgRegs (c : CodeItem) (vA : UInt32) (args : List UInt32) : Bool :=
  (args.take vA.toNat).all (· < c.registersSize.toUInt32)

/-- `CheckVarArgRangeRegs`: `vA + vC` registers fit (a `uint32_t` sum). -/
def checkVarArgRangeRegs (c : CodeItem) (vA vC : UInt32) : Bool :=
  !(vA + vC > c.registersSize.toUInt32)

/-! ## Branches, switches and array data -/

/-- `GetBranchOffset`: the branch offset of a `goto*` or `if*` and whether a zero offset is
allowed (`goto/32` only), or `none` for any other opcode. -/
def getBranchOffset (insns : List UInt16) (cur : Nat) : Option (Int × Bool) :=
  let op := opcode insns cur
  if op = Code.goto then some ((fetch16 insns cur 0).toBitVec.toInt >>> 8, false)
  else if op = Code.goto32 then some ((fetch32 insns cur 1).toBitVec.toInt, true)
  else if op = Code.goto16 then some ((fetch16 insns cur 1).toBitVec.toInt, false)
  else if Code.ifEq ≤ op ∧ op ≤ Code.ifLez then some ((fetch16 insns cur 1).toBitVec.toInt, false)
  else none

/-- `CheckBranchTarget`. The target is `cur_offset + offset`, which must not wrap in 32 bits and
must, as an `int32_t`, be a non-negative opcode start inside the code. -/
def checkBranchTarget (c : CodeItem) (opcodes : List Nat) (cur : Nat) : Bool :=
  match getBranchOffset c.insns cur with
  | none => false
  | some (offset, selfOkay) =>
    let sum := UInt32.ofNat cur + UInt32.ofInt offset
    if !selfOkay && offset == 0 then false
    else if (cur : Int) + offset ≠ sum.toNat then false
    else
      let absOffset := sum.toBitVec.toInt
      !(absOffset < 0 || sum ≥ c.insnsSizeInCodeUnits || !opcodes.contains sum.toNat)

/-- `CheckArrayData`: the table of a `fill-array-data` at `cur` starts inside the code at an even
opcode start, and its end `start + 4 + (width * count + 1) / 2` is inside the code, computed as
the source computes it, in `uint32_t`. -/
def checkArrayData (c : CodeItem) (opcodes : List Nat) (cur : Nat) : Bool :=
  let arrayDataOffset := fetch32 c.insns cur 1
  let start : Int := (UInt32.ofNat cur).toBitVec.toInt + arrayDataOffset.toBitVec.toInt
  if start < 0 || UInt32.ofNat cur + arrayDataOffset + 2 ≥ c.insnsSizeInCodeUnits then false
  else if start.toNat % 2 ≠ 0 then false
  else if !opcodes.contains start.toNat then false
  else
    let valueWidth := (fetch16 c.insns start.toNat 1).toUInt32
    let valueCount := fetch32 c.insns start.toNat 2
    let tableSize := 4 + (valueWidth * valueCount + 1) / 2
    !(UInt32.ofNat cur + arrayDataOffset + tableSize > c.insnsSizeInCodeUnits)

/-- The sparse-switch key loop of `CheckSwitchTargets`: each key is above the last one. -/
def keysAscending : Int → List Int → Bool
  | _, [] => true
  | lastKey, key :: keys => lastKey < key && keysAscending key keys

/-- `CheckSwitchTargets` for the `packed-switch` or `sparse-switch` at `cur`: the table starts at
an even opcode start, has the right signature and ends inside the code; packed keys do not
overflow, sparse keys ascend; every target is an opcode start inside the code. -/
def checkSwitchTargets (c : CodeItem) (opcodes : List Nat) (cur : Nat) : Bool :=
  let switchOffset := fetch32 c.insns cur 1
  let start : Int := (UInt32.ofNat cur).toBitVec.toInt + switchOffset.toBitVec.toInt
  if start < 0 || UInt32.ofNat cur + switchOffset + 2 > c.insnsSizeInCodeUnits then false
  else if start.toNat % 2 ≠ 0 then false
  else if !opcodes.contains start.toNat then false
  else
    let s := start.toNat
    let isPackedSwitch := opcode c.insns cur = Code.packedSwitch
    let switchCount := (fetch16 c.insns s 1).toNat
    let targetsOffset := if isPackedSwitch then 4 else 2 + 2 * switchCount
    let expectedSignature := if isPackedSwitch then kPackedSwitchSignature else kSparseSwitchSignature
    let tableSize := UInt32.ofNat (targetsOffset + switchCount * 2)
    let key (i : Nat) : Int := (fetch32 c.insns s (2 + i * 2)).toBitVec.toInt
    if fetch16 c.insns s 0 ≠ expectedSignature then false
    else if UInt32.ofNat cur + switchOffset + tableSize > c.insnsSizeInCodeUnits then false
    else if 1 < switchCount && isPackedSwitch && key 0 > 2147483647 - (switchCount - 1 : Int) then
      false
    else if 1 < switchCount && !isPackedSwitch &&
        !keysAscending (key 0) ((List.range (switchCount - 1)).map fun i => key (i + 1)) then false
    else
      (List.range switchCount).all fun targ =>
        let offset := fetch32 c.insns s (targetsOffset + targ * 2)
        let absOffset := (UInt32.ofNat cur + offset).toBitVec.toInt
        !(absOffset < 0 || absOffset ≥ c.insnsSizeInCodeUnits.toBitVec.toInt ||
          !opcodes.contains absOffset.toNat)

/-! ## `VerifyInstruction` -/

/-- `Instruction::kMaxVarArgRegs`. -/
def kMaxVarArgRegs : UInt32 := 5

/-- The `GetVerifyTypeArgumentA` switch. -/
def checkArgumentA (c : CodeItem) (cur : Nat) (a : UInt32) : Bool :=
  if a = kVerifyRegA then checkRegisterIndex c (vRegA c.insns cur)
  else if a = kVerifyRegAWide then checkWideRegisterIndex c (vRegA c.insns cur)
  else true

/-- The `GetVerifyTypeArgumentB` switch. Its last three cases are those of the source, but the
mask of `GetVerifyTypeArgumentB` leaves out their flags (see `checkArgumentB_callSite`). -/
def checkArgumentB (ids : DexFileIds) (c : CodeItem) (cur : Nat) (b : UInt32) : Bool :=
  let vB := vRegB c.insns cur
  if b = kVerifyRegB then checkRegisterIndex c vB
  else if b = kVerifyRegBField then checkIndex ids.fieldIdsSize vB
  else if b = kVerifyRegBMethod then checkIndex ids.methodIdsSize vB
  else if b = kVerifyRegBNewInstance then checkNewInstance ids vB
  else if b = kVerifyRegBString then checkIndex ids.stringIdsSize vB
  else if b = kVerifyRegBType then checkTypeIndex ids vB
  else if b = kVerifyRegBWide then checkWideRegisterIndex c vB
  else if b = kVerifyRegBCallSite then checkIndex ids.numCallSiteIds vB
  else if b = kVerifyRegBMethodHandle then checkIndex ids.numMethodHandles vB
  else if b = kVerifyRegBPrototype then checkIndex ids.protoIdsSize vB
  else true

/-- The `GetVerifyTypeArgumentC` switch. -/
def checkArgumentC (ids : DexFileIds) (c : CodeItem) (cur : Nat) (k : UInt32) : Bool :=
  let vC := vRegC c.insns cur
  if k = kVerifyRegC then checkRegisterIndex c vC
  else if k = kVerifyRegCField then checkIndex ids.fieldIdsSize vC
  else if k = kVerifyRegCNewArray then checkNewArray ids vC
  else if k = kVerifyRegCType then checkTypeIndex ids vC
  else if k = kVerifyRegCWide then checkWideRegisterIndex c vC
  else true

/-- The `GetVerifyExtraFlags` switch. -/
def checkExtra (c : CodeItem) (opcodes : List Nat) (cur : Nat) (e : UInt32) : Bool :=
  if e = kVerifyArrayData then checkArrayData c opcodes cur
  else if e = kVerifyBranchTarget then checkBranchTarget c opcodes cur
  else if e = kVerifySwitchTargets then checkSwitchTargets c opcodes cur
  else if e = kVerifyVarArg || e = kVerifyVarArgNonZero then
    let vA := vRegA c.insns cur
    if (e = kVerifyVarArgNonZero && vA = 0) || vA > kMaxVarArgRegs then false
    else checkVarArgRegs c vA (getVarArgs c.insns cur)
  else if e = kVerifyVarArgRange || e = kVerifyVarArgRangeNonZero then
    let vA := vRegA c.insns cur
    if e = kVerifyVarArgRangeNonZero && vA.toBitVec.toInt ≤ 0 then false
    else checkVarArgRangeRegs c vA (vRegC c.insns cur)
  else if e = kVerifyError then false
  else true

/-- `VerifyInstruction` for the instruction at `cur`; `allowRuntimeOnly` is the template flag
`kAllowRuntimeOnlyInstructions`. -/
def verifyInstruction (ids : DexFileIds) (c : CodeItem) (opcodes : List Nat)
    (allowRuntimeOnly : Bool) (cur : Nat) : Bool :=
  let flags := (descriptorOf (opcode c.insns cur)).verifyFlags
  checkArgumentA c cur (flags &&& (kVerifyRegA ||| kVerifyRegAWide)) &&
  checkArgumentB ids c cur (flags &&& (kVerifyRegB ||| kVerifyRegBField ||| kVerifyRegBMethod |||
    kVerifyRegBNewInstance ||| kVerifyRegBString ||| kVerifyRegBType ||| kVerifyRegBWide)) &&
  checkArgumentC ids c cur (flags &&& (kVerifyRegC ||| kVerifyRegCField ||| kVerifyRegCNewArray |||
    kVerifyRegCType ||| kVerifyRegCWide)) &&
  (flags &&& kVerifyRegHPrototype != kVerifyRegHPrototype ||
    checkIndex ids.protoIdsSize (vRegH c.insns cur)) &&
  checkExtra c opcodes cur (flags &&& (kVerifyArrayData ||| kVerifyBranchTarget |||
    kVerifySwitchTargets ||| kVerifyVarArg ||| kVerifyVarArgNonZero ||| kVerifyVarArgRange |||
    kVerifyVarArgRangeNonZero ||| kVerifyError)) &&
  (allowRuntimeOnly || flags &&& kVerifyRuntimeOnly == 0)

/-- `VerifyInstructions`: the range-for over the code item visits the instruction starts that
`ComputeWidthsAndCountOps` marked, in order. -/
def verifyInstructions (ids : DexFileIds) (c : CodeItem) (opcodes : List Nat)
    (allowRuntimeOnly : Bool) : Bool :=
  opcodes.all (verifyInstruction ids c opcodes allowRuntimeOnly)

/-- The static part of `Verify` for a method with code: the register counts, then
`ComputeWidthsAndCountOps`, `ScanTryCatchBlocks` and `VerifyInstructions`. -/
def verifyStatic (ids : DexFileIds) (c : CodeItem) (allowRuntimeOnly : Bool) : Bool :=
  c.insSize ≤ c.registersSize &&
    match computeWidthsAndCountOps c with
    | none => false
    | some opcodes =>
      scanTryCatchBlocks c opcodes && verifyInstructions ids c opcodes allowRuntimeOnly

/-! ## What the `GetVerifyTypeArgumentB` mask leaves out -/

theorem and_ne_of_and_eq_zero {f m k : UInt32} (hm : m &&& k = 0) (hk : k ≠ 0) : f &&& m ≠ k := by
  intro h
  have h2 : (f &&& m) &&& k = k &&& k := by rw [h]
  rw [UInt32.and_assoc, hm, UInt32.and_zero, UInt32.and_self] at h2
  exact hk h2.symm

/-- The B argument kind of `VerifyInstruction` is never a call-site or method-handle kind: the
mask of `GetVerifyTypeArgumentB` does not contain those flags. -/
theorem checkArgumentB_callSite (flags : UInt32) :
    flags &&& (kVerifyRegB ||| kVerifyRegBField ||| kVerifyRegBMethod ||| kVerifyRegBNewInstance |||
        kVerifyRegBString ||| kVerifyRegBType ||| kVerifyRegBWide) ≠ kVerifyRegBCallSite ∧
      flags &&& (kVerifyRegB ||| kVerifyRegBField ||| kVerifyRegBMethod |||
        kVerifyRegBNewInstance ||| kVerifyRegBString ||| kVerifyRegBType ||| kVerifyRegBWide) ≠
        kVerifyRegBMethodHandle :=
  ⟨and_ne_of_and_eq_zero (by decide) (by decide), and_ne_of_and_eq_zero (by decide) (by decide)⟩

/-- So `VerifyInstruction` never reads the number of call sites or of method handles: the
`invoke-custom*` call-site index and the `const-method-handle` index are left to the code-flow
analysis (`CheckCallSite`). -/
theorem verifyInstruction_callSiteIds (ids : DexFileIds) (k k' : UInt32) (c : CodeItem)
    (opcodes : List Nat) (allowRuntimeOnly : Bool) (cur : Nat) :
    verifyInstruction { ids with numCallSiteIds := k, numMethodHandles := k' } c opcodes
      allowRuntimeOnly cur = verifyInstruction ids c opcodes allowRuntimeOnly cur := by
  obtain ⟨h1, h2⟩ := checkArgumentB_callSite (descriptorOf (opcode c.insns cur)).verifyFlags
  simp only [verifyInstruction, checkArgumentB, checkArgumentC, checkNewInstance, checkNewArray,
    checkTypeIndex, h1, h2, if_false]

/-! ## The `FILL_ARRAY_DATA` rule of the code-flow analysis -/

/-- The register types the `FILL_ARRAY_DATA` case of `CodeFlowVerifyInstruction` tells apart. -/
inductive RegType where
  /-- `IsZeroOrNull`: the constant `0`, the null reference. -/
  | zeroOrNull
  /-- A resolved array type with a primitive component. -/
  | primitiveArray (component : PrimitiveType)
  /-- A resolved array type with a reference component. -/
  | referenceArray
  /-- `IsUnresolvedTypes` of an array type. -/
  | unresolvedArray
  /-- Any type that is not `IsArrayTypes`. -/
  | notArray
  deriving DecidableEq, Repr

/-- The `FILL_ARRAY_DATA` case of `CodeFlowVerifyInstruction` for the instruction at `cur`, whose
`vAA` has type `arrayType`: a null array passes; otherwise the array must be a resolved array of
primitives and the table must carry the array-data signature and the component's width. -/
def verifyFillArrayData (arrayType : RegType) (insns : List UInt16) (cur : Nat) : Bool :=
  match arrayType with
  | .zeroOrNull => true
  | .primitiveArray component =>
    let start := ((cur : Int) + (fetch32 insns cur 1).toBitVec.toInt).toNat
    fetch16 insns start 0 == kArrayDataSignature &&
      (fetch16 insns start 1).toNat == component.componentSize
  | .referenceArray | .unresolvedArray | .notArray => false

/-! ## A table whose length wraps

`new short[10]` filled from an array-data table with `element_width = 2` and
`element_count = 2^31 + 100`. The product `2 * element_count` wraps to `200` in `uint32_t`, so
`SizeInCodeUnits` and `CheckArrayData` both take the table to be `4 + 100` code units long, and
the method passes every static check. -/

/-- The method `static void m()`: `const/16 v1, #10; new-array v0, v1, [S; fill-array-data v0,
+4; return-void`, then the table at dex pc 8. -/
def wrappedTableCodeItem : CodeItem where
  registersSize := 2
  insSize := 0
  insns := [0x0113, 10, 0x1023, 0, 0x0026, 4, 0, 0x000E, 0x0300, 2, 100, 0x8000] ++
    List.replicate 100 0
  tries := []
  handlers := []

/-- A dex file whose one type is `[S`. -/
def wrappedTableDexFile : DexFileIds :=
  ⟨0, 1, 0, 0, 0, 0, 0, fun _ => ['[', 'S']⟩

/-- The length of an array-data table at `start` in exact arithmetic,
`4 + ⌈element_width * element_count / 2⌉` code units. -/
def exactArrayDataUnits (insns : List UInt16) (start : Nat) : Nat :=
  4 + ((fetch16 insns start 1).toNat * (fetch32 insns start 2).toNat + 1) / 2

theorem verifyStatic_accepts_wrapped_table :
    computeWidthsAndCountOps wrappedTableCodeItem = some [0, 2, 4, 7, 8] ∧
      verifyStatic wrappedTableDexFile wrappedTableCodeItem false = true ∧
      sizeInCodeUnits wrappedTableCodeItem.insns 8 = 104 ∧
      wrappedTableCodeItem.insns.length < 8 + exactArrayDataUnits wrappedTableCodeItem.insns 8 := by
  decide +kernel

end MethodVerifier

end Art
