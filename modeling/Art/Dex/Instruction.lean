import Mathlib.Data.List.GetD
import Mathlib.Tactic.SplitIfs

/-!
# Dex instructions (`libdexfile/dex/dex_instruction.h`, `dex_instruction_list.h`)

The static description of the 256 opcodes (format and verifier flags, `kInstructionDescriptors`),
and the decoding of one instruction at a dex pc of a code item: its opcode, its length in code
units (`SizeInCodeUnits`, including the variable-length payloads behind `NOP`), and its register
and index operands (`VRegA`, `VRegB`, `VRegC`, `VRegH`, `GetVarArgs`).

A code item's instructions are a `List UInt16`. A code unit is fetched with `List.getD`: the code
reads past the end only where the verifier has not checked the length, and there the model reads
`0`. `int32_t` results that the verifier converts to `uint32_t` are kept as their `UInt32` bits.
-/

namespace Art

/-- The instruction formats, in the order of `DEX_INSTRUCTION_FORMAT_LIST`. -/
inductive Format where
  | k10x | k12x | k11n | k11x | k10t | k20t | k22x | k21t | k21s | k21h | k21c | k23x | k22b
  | k22t | k22s | k22c | k32x | k30t | k31t | k31i | k31c | k35c | k3rc | k45cc | k4rcc | k51l
  deriving DecidableEq, Repr

namespace Format

/-- `Instruction::SizeInCodeUnits(Format)`. -/
def sizeInCodeUnits : Format → Nat
  | k10x | k12x | k11n | k11x | k10t => 1
  | k20t | k22x | k21t | k21s | k21h | k21c | k23x | k22b | k22t | k22s | k22c => 2
  | k32x | k30t | k31t | k31i | k31c | k35c | k3rc => 3
  | k45cc | k4rcc => 4
  | k51l => 5

theorem sizeInCodeUnits_pos (f : Format) : 0 < f.sizeInCodeUnits := by
  cases f <;> decide

end Format

/-! ## Verifier flags (`Instruction::VerifyFlag`) -/

def kVerifyNothing : UInt32 := 0x0000000
def kVerifyRegA : UInt32 := 0x0000001
def kVerifyRegAWide : UInt32 := 0x0000002
def kVerifyRegB : UInt32 := 0x0000004
def kVerifyRegBField : UInt32 := 0x0000008
def kVerifyRegBMethod : UInt32 := 0x0000010
def kVerifyRegBNewInstance : UInt32 := 0x0000020
def kVerifyRegBString : UInt32 := 0x0000040
def kVerifyRegBType : UInt32 := 0x0000080
def kVerifyRegBWide : UInt32 := 0x0000100
def kVerifyRegC : UInt32 := 0x0000200
def kVerifyRegCField : UInt32 := 0x0000400
def kVerifyRegCNewArray : UInt32 := 0x0000800
def kVerifyRegCType : UInt32 := 0x0001000
def kVerifyRegCWide : UInt32 := 0x0002000
def kVerifyArrayData : UInt32 := 0x0004000
def kVerifyBranchTarget : UInt32 := 0x0008000
def kVerifySwitchTargets : UInt32 := 0x0010000
def kVerifyVarArg : UInt32 := 0x0020000
def kVerifyVarArgNonZero : UInt32 := 0x0040000
def kVerifyVarArgRange : UInt32 := 0x0080000
def kVerifyVarArgRangeNonZero : UInt32 := 0x0100000
def kVerifyRuntimeOnly : UInt32 := 0x0200000
def kVerifyError : UInt32 := 0x0400000
def kVerifyRegHPrototype : UInt32 := 0x0800000
def kVerifyRegBCallSite : UInt32 := 0x1000000
def kVerifyRegBMethodHandle : UInt32 := 0x2000000
def kVerifyRegBPrototype : UInt32 := 0x4000000

/-- The part of `Instruction::InstructionDescriptor` the verifier reads. -/
structure InstructionDescriptor where
  verifyFlags : UInt32
  format : Format

set_option maxRecDepth 4000 in
/-- `kInstructionDescriptors`, one entry per opcode, from `DEX_INSTRUCTION_LIST`. -/
def kInstructionDescriptors : Array InstructionDescriptor := #[
  ⟨kVerifyNothing, .k10x⟩,  -- 0x00 nop
  ⟨kVerifyRegA ||| kVerifyRegB, .k12x⟩,  -- 0x01 move
  ⟨kVerifyRegA ||| kVerifyRegB, .k22x⟩,  -- 0x02 move/from16
  ⟨kVerifyRegA ||| kVerifyRegB, .k32x⟩,  -- 0x03 move/16
  ⟨kVerifyRegAWide ||| kVerifyRegBWide, .k12x⟩,  -- 0x04 move-wide
  ⟨kVerifyRegAWide ||| kVerifyRegBWide, .k22x⟩,  -- 0x05 move-wide/from16
  ⟨kVerifyRegAWide ||| kVerifyRegBWide, .k32x⟩,  -- 0x06 move-wide/16
  ⟨kVerifyRegA ||| kVerifyRegB, .k12x⟩,  -- 0x07 move-object
  ⟨kVerifyRegA ||| kVerifyRegB, .k22x⟩,  -- 0x08 move-object/from16
  ⟨kVerifyRegA ||| kVerifyRegB, .k32x⟩,  -- 0x09 move-object/16
  ⟨kVerifyRegA, .k11x⟩,  -- 0x0A move-result
  ⟨kVerifyRegAWide, .k11x⟩,  -- 0x0B move-result-wide
  ⟨kVerifyRegA, .k11x⟩,  -- 0x0C move-result-object
  ⟨kVerifyRegA, .k11x⟩,  -- 0x0D move-exception
  ⟨kVerifyNothing, .k10x⟩,  -- 0x0E return-void
  ⟨kVerifyRegA, .k11x⟩,  -- 0x0F return
  ⟨kVerifyRegAWide, .k11x⟩,  -- 0x10 return-wide
  ⟨kVerifyRegA, .k11x⟩,  -- 0x11 return-object
  ⟨kVerifyRegA, .k11n⟩,  -- 0x12 const/4
  ⟨kVerifyRegA, .k21s⟩,  -- 0x13 const/16
  ⟨kVerifyRegA, .k31i⟩,  -- 0x14 const
  ⟨kVerifyRegA, .k21h⟩,  -- 0x15 const/high16
  ⟨kVerifyRegAWide, .k21s⟩,  -- 0x16 const-wide/16
  ⟨kVerifyRegAWide, .k31i⟩,  -- 0x17 const-wide/32
  ⟨kVerifyRegAWide, .k51l⟩,  -- 0x18 const-wide
  ⟨kVerifyRegAWide, .k21h⟩,  -- 0x19 const-wide/high16
  ⟨kVerifyRegA ||| kVerifyRegBString, .k21c⟩,  -- 0x1A const-string
  ⟨kVerifyRegA ||| kVerifyRegBString, .k31c⟩,  -- 0x1B const-string/jumbo
  ⟨kVerifyRegA ||| kVerifyRegBType, .k21c⟩,  -- 0x1C const-class
  ⟨kVerifyRegA, .k11x⟩,  -- 0x1D monitor-enter
  ⟨kVerifyRegA, .k11x⟩,  -- 0x1E monitor-exit
  ⟨kVerifyRegA ||| kVerifyRegBType, .k21c⟩,  -- 0x1F check-cast
  ⟨kVerifyRegA ||| kVerifyRegB ||| kVerifyRegCType, .k22c⟩,  -- 0x20 instance-of
  ⟨kVerifyRegA ||| kVerifyRegB, .k12x⟩,  -- 0x21 array-length
  ⟨kVerifyRegA ||| kVerifyRegBNewInstance, .k21c⟩,  -- 0x22 new-instance
  ⟨kVerifyRegA ||| kVerifyRegB ||| kVerifyRegCNewArray, .k22c⟩,  -- 0x23 new-array
  ⟨kVerifyRegBType ||| kVerifyVarArg, .k35c⟩,  -- 0x24 filled-new-array
  ⟨kVerifyRegBType ||| kVerifyVarArgRange, .k3rc⟩,  -- 0x25 filled-new-array/range
  ⟨kVerifyRegA ||| kVerifyArrayData, .k31t⟩,  -- 0x26 fill-array-data
  ⟨kVerifyRegA, .k11x⟩,  -- 0x27 throw
  ⟨kVerifyBranchTarget, .k10t⟩,  -- 0x28 goto
  ⟨kVerifyBranchTarget, .k20t⟩,  -- 0x29 goto/16
  ⟨kVerifyBranchTarget, .k30t⟩,  -- 0x2A goto/32
  ⟨kVerifyRegA ||| kVerifySwitchTargets, .k31t⟩,  -- 0x2B packed-switch
  ⟨kVerifyRegA ||| kVerifySwitchTargets, .k31t⟩,  -- 0x2C sparse-switch
  ⟨kVerifyRegA ||| kVerifyRegB ||| kVerifyRegC, .k23x⟩,  -- 0x2D cmpl-float
  ⟨kVerifyRegA ||| kVerifyRegB ||| kVerifyRegC, .k23x⟩,  -- 0x2E cmpg-float
  ⟨kVerifyRegA ||| kVerifyRegBWide ||| kVerifyRegCWide, .k23x⟩,  -- 0x2F cmpl-double
  ⟨kVerifyRegA ||| kVerifyRegBWide ||| kVerifyRegCWide, .k23x⟩,  -- 0x30 cmpg-double
  ⟨kVerifyRegA ||| kVerifyRegBWide ||| kVerifyRegCWide, .k23x⟩,  -- 0x31 cmp-long
  ⟨kVerifyRegA ||| kVerifyRegB ||| kVerifyBranchTarget, .k22t⟩,  -- 0x32 if-eq
  ⟨kVerifyRegA ||| kVerifyRegB ||| kVerifyBranchTarget, .k22t⟩,  -- 0x33 if-ne
  ⟨kVerifyRegA ||| kVerifyRegB ||| kVerifyBranchTarget, .k22t⟩,  -- 0x34 if-lt
  ⟨kVerifyRegA ||| kVerifyRegB ||| kVerifyBranchTarget, .k22t⟩,  -- 0x35 if-ge
  ⟨kVerifyRegA ||| kVerifyRegB ||| kVerifyBranchTarget, .k22t⟩,  -- 0x36 if-gt
  ⟨kVerifyRegA ||| kVerifyRegB ||| kVerifyBranchTarget, .k22t⟩,  -- 0x37 if-le
  ⟨kVerifyRegA ||| kVerifyBranchTarget, .k21t⟩,  -- 0x38 if-eqz
  ⟨kVerifyRegA ||| kVerifyBranchTarget, .k21t⟩,  -- 0x39 if-nez
  ⟨kVerifyRegA ||| kVerifyBranchTarget, .k21t⟩,  -- 0x3A if-ltz
  ⟨kVerifyRegA ||| kVerifyBranchTarget, .k21t⟩,  -- 0x3B if-gez
  ⟨kVerifyRegA ||| kVerifyBranchTarget, .k21t⟩,  -- 0x3C if-gtz
  ⟨kVerifyRegA ||| kVerifyBranchTarget, .k21t⟩,  -- 0x3D if-lez
  ⟨kVerifyError, .k10x⟩,  -- 0x3E unused-3e
  ⟨kVerifyError, .k10x⟩,  -- 0x3F unused-3f
  ⟨kVerifyError, .k10x⟩,  -- 0x40 unused-40
  ⟨kVerifyError, .k10x⟩,  -- 0x41 unused-41
  ⟨kVerifyError, .k10x⟩,  -- 0x42 unused-42
  ⟨kVerifyError, .k10x⟩,  -- 0x43 unused-43
  ⟨kVerifyRegA ||| kVerifyRegB ||| kVerifyRegC, .k23x⟩,  -- 0x44 aget
  ⟨kVerifyRegAWide ||| kVerifyRegB ||| kVerifyRegC, .k23x⟩,  -- 0x45 aget-wide
  ⟨kVerifyRegA ||| kVerifyRegB ||| kVerifyRegC, .k23x⟩,  -- 0x46 aget-object
  ⟨kVerifyRegA ||| kVerifyRegB ||| kVerifyRegC, .k23x⟩,  -- 0x47 aget-boolean
  ⟨kVerifyRegA ||| kVerifyRegB ||| kVerifyRegC, .k23x⟩,  -- 0x48 aget-byte
  ⟨kVerifyRegA ||| kVerifyRegB ||| kVerifyRegC, .k23x⟩,  -- 0x49 aget-char
  ⟨kVerifyRegA ||| kVerifyRegB ||| kVerifyRegC, .k23x⟩,  -- 0x4A aget-short
  ⟨kVerifyRegA ||| kVerifyRegB ||| kVerifyRegC, .k23x⟩,  -- 0x4B aput
  ⟨kVerifyRegAWide ||| kVerifyRegB ||| kVerifyRegC, .k23x⟩,  -- 0x4C aput-wide
  ⟨kVerifyRegA ||| kVerifyRegB ||| kVerifyRegC, .k23x⟩,  -- 0x4D aput-object
  ⟨kVerifyRegA ||| kVerifyRegB ||| kVerifyRegC, .k23x⟩,  -- 0x4E aput-boolean
  ⟨kVerifyRegA ||| kVerifyRegB ||| kVerifyRegC, .k23x⟩,  -- 0x4F aput-byte
  ⟨kVerifyRegA ||| kVerifyRegB ||| kVerifyRegC, .k23x⟩,  -- 0x50 aput-char
  ⟨kVerifyRegA ||| kVerifyRegB ||| kVerifyRegC, .k23x⟩,  -- 0x51 aput-short
  ⟨kVerifyRegA ||| kVerifyRegB ||| kVerifyRegCField, .k22c⟩,  -- 0x52 iget
  ⟨kVerifyRegAWide ||| kVerifyRegB ||| kVerifyRegCField, .k22c⟩,  -- 0x53 iget-wide
  ⟨kVerifyRegA ||| kVerifyRegB ||| kVerifyRegCField, .k22c⟩,  -- 0x54 iget-object
  ⟨kVerifyRegA ||| kVerifyRegB ||| kVerifyRegCField, .k22c⟩,  -- 0x55 iget-boolean
  ⟨kVerifyRegA ||| kVerifyRegB ||| kVerifyRegCField, .k22c⟩,  -- 0x56 iget-byte
  ⟨kVerifyRegA ||| kVerifyRegB ||| kVerifyRegCField, .k22c⟩,  -- 0x57 iget-char
  ⟨kVerifyRegA ||| kVerifyRegB ||| kVerifyRegCField, .k22c⟩,  -- 0x58 iget-short
  ⟨kVerifyRegA ||| kVerifyRegB ||| kVerifyRegCField, .k22c⟩,  -- 0x59 iput
  ⟨kVerifyRegAWide ||| kVerifyRegB ||| kVerifyRegCField, .k22c⟩,  -- 0x5A iput-wide
  ⟨kVerifyRegA ||| kVerifyRegB ||| kVerifyRegCField, .k22c⟩,  -- 0x5B iput-object
  ⟨kVerifyRegA ||| kVerifyRegB ||| kVerifyRegCField, .k22c⟩,  -- 0x5C iput-boolean
  ⟨kVerifyRegA ||| kVerifyRegB ||| kVerifyRegCField, .k22c⟩,  -- 0x5D iput-byte
  ⟨kVerifyRegA ||| kVerifyRegB ||| kVerifyRegCField, .k22c⟩,  -- 0x5E iput-char
  ⟨kVerifyRegA ||| kVerifyRegB ||| kVerifyRegCField, .k22c⟩,  -- 0x5F iput-short
  ⟨kVerifyRegA ||| kVerifyRegBField, .k21c⟩,  -- 0x60 sget
  ⟨kVerifyRegAWide ||| kVerifyRegBField, .k21c⟩,  -- 0x61 sget-wide
  ⟨kVerifyRegA ||| kVerifyRegBField, .k21c⟩,  -- 0x62 sget-object
  ⟨kVerifyRegA ||| kVerifyRegBField, .k21c⟩,  -- 0x63 sget-boolean
  ⟨kVerifyRegA ||| kVerifyRegBField, .k21c⟩,  -- 0x64 sget-byte
  ⟨kVerifyRegA ||| kVerifyRegBField, .k21c⟩,  -- 0x65 sget-char
  ⟨kVerifyRegA ||| kVerifyRegBField, .k21c⟩,  -- 0x66 sget-short
  ⟨kVerifyRegA ||| kVerifyRegBField, .k21c⟩,  -- 0x67 sput
  ⟨kVerifyRegAWide ||| kVerifyRegBField, .k21c⟩,  -- 0x68 sput-wide
  ⟨kVerifyRegA ||| kVerifyRegBField, .k21c⟩,  -- 0x69 sput-object
  ⟨kVerifyRegA ||| kVerifyRegBField, .k21c⟩,  -- 0x6A sput-boolean
  ⟨kVerifyRegA ||| kVerifyRegBField, .k21c⟩,  -- 0x6B sput-byte
  ⟨kVerifyRegA ||| kVerifyRegBField, .k21c⟩,  -- 0x6C sput-char
  ⟨kVerifyRegA ||| kVerifyRegBField, .k21c⟩,  -- 0x6D sput-short
  ⟨kVerifyRegBMethod ||| kVerifyVarArgNonZero, .k35c⟩,  -- 0x6E invoke-virtual
  ⟨kVerifyRegBMethod ||| kVerifyVarArgNonZero, .k35c⟩,  -- 0x6F invoke-super
  ⟨kVerifyRegBMethod ||| kVerifyVarArgNonZero, .k35c⟩,  -- 0x70 invoke-direct
  ⟨kVerifyRegBMethod ||| kVerifyVarArg, .k35c⟩,  -- 0x71 invoke-static
  ⟨kVerifyRegBMethod ||| kVerifyVarArgNonZero, .k35c⟩,  -- 0x72 invoke-interface
  ⟨kVerifyError, .k10x⟩,  -- 0x73 unused-73
  ⟨kVerifyRegBMethod ||| kVerifyVarArgRangeNonZero, .k3rc⟩,  -- 0x74 invoke-virtual/range
  ⟨kVerifyRegBMethod ||| kVerifyVarArgRangeNonZero, .k3rc⟩,  -- 0x75 invoke-super/range
  ⟨kVerifyRegBMethod ||| kVerifyVarArgRangeNonZero, .k3rc⟩,  -- 0x76 invoke-direct/range
  ⟨kVerifyRegBMethod ||| kVerifyVarArgRange, .k3rc⟩,  -- 0x77 invoke-static/range
  ⟨kVerifyRegBMethod ||| kVerifyVarArgRangeNonZero, .k3rc⟩,  -- 0x78 invoke-interface/range
  ⟨kVerifyError, .k10x⟩,  -- 0x79 unused-79
  ⟨kVerifyError, .k10x⟩,  -- 0x7A unused-7a
  ⟨kVerifyRegA ||| kVerifyRegB, .k12x⟩,  -- 0x7B neg-int
  ⟨kVerifyRegA ||| kVerifyRegB, .k12x⟩,  -- 0x7C not-int
  ⟨kVerifyRegAWide ||| kVerifyRegBWide, .k12x⟩,  -- 0x7D neg-long
  ⟨kVerifyRegAWide ||| kVerifyRegBWide, .k12x⟩,  -- 0x7E not-long
  ⟨kVerifyRegA ||| kVerifyRegB, .k12x⟩,  -- 0x7F neg-float
  ⟨kVerifyRegAWide ||| kVerifyRegBWide, .k12x⟩,  -- 0x80 neg-double
  ⟨kVerifyRegAWide ||| kVerifyRegB, .k12x⟩,  -- 0x81 int-to-long
  ⟨kVerifyRegA ||| kVerifyRegB, .k12x⟩,  -- 0x82 int-to-float
  ⟨kVerifyRegAWide ||| kVerifyRegB, .k12x⟩,  -- 0x83 int-to-double
  ⟨kVerifyRegA ||| kVerifyRegBWide, .k12x⟩,  -- 0x84 long-to-int
  ⟨kVerifyRegA ||| kVerifyRegBWide, .k12x⟩,  -- 0x85 long-to-float
  ⟨kVerifyRegAWide ||| kVerifyRegBWide, .k12x⟩,  -- 0x86 long-to-double
  ⟨kVerifyRegA ||| kVerifyRegB, .k12x⟩,  -- 0x87 float-to-int
  ⟨kVerifyRegAWide ||| kVerifyRegB, .k12x⟩,  -- 0x88 float-to-long
  ⟨kVerifyRegAWide ||| kVerifyRegB, .k12x⟩,  -- 0x89 float-to-double
  ⟨kVerifyRegA ||| kVerifyRegBWide, .k12x⟩,  -- 0x8A double-to-int
  ⟨kVerifyRegAWide ||| kVerifyRegBWide, .k12x⟩,  -- 0x8B double-to-long
  ⟨kVerifyRegA ||| kVerifyRegBWide, .k12x⟩,  -- 0x8C double-to-float
  ⟨kVerifyRegA ||| kVerifyRegB, .k12x⟩,  -- 0x8D int-to-byte
  ⟨kVerifyRegA ||| kVerifyRegB, .k12x⟩,  -- 0x8E int-to-char
  ⟨kVerifyRegA ||| kVerifyRegB, .k12x⟩,  -- 0x8F int-to-short
  ⟨kVerifyRegA ||| kVerifyRegB ||| kVerifyRegC, .k23x⟩,  -- 0x90 add-int
  ⟨kVerifyRegA ||| kVerifyRegB ||| kVerifyRegC, .k23x⟩,  -- 0x91 sub-int
  ⟨kVerifyRegA ||| kVerifyRegB ||| kVerifyRegC, .k23x⟩,  -- 0x92 mul-int
  ⟨kVerifyRegA ||| kVerifyRegB ||| kVerifyRegC, .k23x⟩,  -- 0x93 div-int
  ⟨kVerifyRegA ||| kVerifyRegB ||| kVerifyRegC, .k23x⟩,  -- 0x94 rem-int
  ⟨kVerifyRegA ||| kVerifyRegB ||| kVerifyRegC, .k23x⟩,  -- 0x95 and-int
  ⟨kVerifyRegA ||| kVerifyRegB ||| kVerifyRegC, .k23x⟩,  -- 0x96 or-int
  ⟨kVerifyRegA ||| kVerifyRegB ||| kVerifyRegC, .k23x⟩,  -- 0x97 xor-int
  ⟨kVerifyRegA ||| kVerifyRegB ||| kVerifyRegC, .k23x⟩,  -- 0x98 shl-int
  ⟨kVerifyRegA ||| kVerifyRegB ||| kVerifyRegC, .k23x⟩,  -- 0x99 shr-int
  ⟨kVerifyRegA ||| kVerifyRegB ||| kVerifyRegC, .k23x⟩,  -- 0x9A ushr-int
  ⟨kVerifyRegAWide ||| kVerifyRegBWide ||| kVerifyRegCWide, .k23x⟩,  -- 0x9B add-long
  ⟨kVerifyRegAWide ||| kVerifyRegBWide ||| kVerifyRegCWide, .k23x⟩,  -- 0x9C sub-long
  ⟨kVerifyRegAWide ||| kVerifyRegBWide ||| kVerifyRegCWide, .k23x⟩,  -- 0x9D mul-long
  ⟨kVerifyRegAWide ||| kVerifyRegBWide ||| kVerifyRegCWide, .k23x⟩,  -- 0x9E div-long
  ⟨kVerifyRegAWide ||| kVerifyRegBWide ||| kVerifyRegCWide, .k23x⟩,  -- 0x9F rem-long
  ⟨kVerifyRegAWide ||| kVerifyRegBWide ||| kVerifyRegCWide, .k23x⟩,  -- 0xA0 and-long
  ⟨kVerifyRegAWide ||| kVerifyRegBWide ||| kVerifyRegCWide, .k23x⟩,  -- 0xA1 or-long
  ⟨kVerifyRegAWide ||| kVerifyRegBWide ||| kVerifyRegCWide, .k23x⟩,  -- 0xA2 xor-long
  ⟨kVerifyRegAWide ||| kVerifyRegBWide ||| kVerifyRegC, .k23x⟩,  -- 0xA3 shl-long
  ⟨kVerifyRegAWide ||| kVerifyRegBWide ||| kVerifyRegC, .k23x⟩,  -- 0xA4 shr-long
  ⟨kVerifyRegAWide ||| kVerifyRegBWide ||| kVerifyRegC, .k23x⟩,  -- 0xA5 ushr-long
  ⟨kVerifyRegA ||| kVerifyRegB ||| kVerifyRegC, .k23x⟩,  -- 0xA6 add-float
  ⟨kVerifyRegA ||| kVerifyRegB ||| kVerifyRegC, .k23x⟩,  -- 0xA7 sub-float
  ⟨kVerifyRegA ||| kVerifyRegB ||| kVerifyRegC, .k23x⟩,  -- 0xA8 mul-float
  ⟨kVerifyRegA ||| kVerifyRegB ||| kVerifyRegC, .k23x⟩,  -- 0xA9 div-float
  ⟨kVerifyRegA ||| kVerifyRegB ||| kVerifyRegC, .k23x⟩,  -- 0xAA rem-float
  ⟨kVerifyRegAWide ||| kVerifyRegBWide ||| kVerifyRegCWide, .k23x⟩,  -- 0xAB add-double
  ⟨kVerifyRegAWide ||| kVerifyRegBWide ||| kVerifyRegCWide, .k23x⟩,  -- 0xAC sub-double
  ⟨kVerifyRegAWide ||| kVerifyRegBWide ||| kVerifyRegCWide, .k23x⟩,  -- 0xAD mul-double
  ⟨kVerifyRegAWide ||| kVerifyRegBWide ||| kVerifyRegCWide, .k23x⟩,  -- 0xAE div-double
  ⟨kVerifyRegAWide ||| kVerifyRegBWide ||| kVerifyRegCWide, .k23x⟩,  -- 0xAF rem-double
  ⟨kVerifyRegA ||| kVerifyRegB, .k12x⟩,  -- 0xB0 add-int/2addr
  ⟨kVerifyRegA ||| kVerifyRegB, .k12x⟩,  -- 0xB1 sub-int/2addr
  ⟨kVerifyRegA ||| kVerifyRegB, .k12x⟩,  -- 0xB2 mul-int/2addr
  ⟨kVerifyRegA ||| kVerifyRegB, .k12x⟩,  -- 0xB3 div-int/2addr
  ⟨kVerifyRegA ||| kVerifyRegB, .k12x⟩,  -- 0xB4 rem-int/2addr
  ⟨kVerifyRegA ||| kVerifyRegB, .k12x⟩,  -- 0xB5 and-int/2addr
  ⟨kVerifyRegA ||| kVerifyRegB, .k12x⟩,  -- 0xB6 or-int/2addr
  ⟨kVerifyRegA ||| kVerifyRegB, .k12x⟩,  -- 0xB7 xor-int/2addr
  ⟨kVerifyRegA ||| kVerifyRegB, .k12x⟩,  -- 0xB8 shl-int/2addr
  ⟨kVerifyRegA ||| kVerifyRegB, .k12x⟩,  -- 0xB9 shr-int/2addr
  ⟨kVerifyRegA ||| kVerifyRegB, .k12x⟩,  -- 0xBA ushr-int/2addr
  ⟨kVerifyRegAWide ||| kVerifyRegBWide, .k12x⟩,  -- 0xBB add-long/2addr
  ⟨kVerifyRegAWide ||| kVerifyRegBWide, .k12x⟩,  -- 0xBC sub-long/2addr
  ⟨kVerifyRegAWide ||| kVerifyRegBWide, .k12x⟩,  -- 0xBD mul-long/2addr
  ⟨kVerifyRegAWide ||| kVerifyRegBWide, .k12x⟩,  -- 0xBE div-long/2addr
  ⟨kVerifyRegAWide ||| kVerifyRegBWide, .k12x⟩,  -- 0xBF rem-long/2addr
  ⟨kVerifyRegAWide ||| kVerifyRegBWide, .k12x⟩,  -- 0xC0 and-long/2addr
  ⟨kVerifyRegAWide ||| kVerifyRegBWide, .k12x⟩,  -- 0xC1 or-long/2addr
  ⟨kVerifyRegAWide ||| kVerifyRegBWide, .k12x⟩,  -- 0xC2 xor-long/2addr
  ⟨kVerifyRegAWide ||| kVerifyRegB, .k12x⟩,  -- 0xC3 shl-long/2addr
  ⟨kVerifyRegAWide ||| kVerifyRegB, .k12x⟩,  -- 0xC4 shr-long/2addr
  ⟨kVerifyRegAWide ||| kVerifyRegB, .k12x⟩,  -- 0xC5 ushr-long/2addr
  ⟨kVerifyRegA ||| kVerifyRegB, .k12x⟩,  -- 0xC6 add-float/2addr
  ⟨kVerifyRegA ||| kVerifyRegB, .k12x⟩,  -- 0xC7 sub-float/2addr
  ⟨kVerifyRegA ||| kVerifyRegB, .k12x⟩,  -- 0xC8 mul-float/2addr
  ⟨kVerifyRegA ||| kVerifyRegB, .k12x⟩,  -- 0xC9 div-float/2addr
  ⟨kVerifyRegA ||| kVerifyRegB, .k12x⟩,  -- 0xCA rem-float/2addr
  ⟨kVerifyRegAWide ||| kVerifyRegBWide, .k12x⟩,  -- 0xCB add-double/2addr
  ⟨kVerifyRegAWide ||| kVerifyRegBWide, .k12x⟩,  -- 0xCC sub-double/2addr
  ⟨kVerifyRegAWide ||| kVerifyRegBWide, .k12x⟩,  -- 0xCD mul-double/2addr
  ⟨kVerifyRegAWide ||| kVerifyRegBWide, .k12x⟩,  -- 0xCE div-double/2addr
  ⟨kVerifyRegAWide ||| kVerifyRegBWide, .k12x⟩,  -- 0xCF rem-double/2addr
  ⟨kVerifyRegA ||| kVerifyRegB, .k22s⟩,  -- 0xD0 add-int/lit16
  ⟨kVerifyRegA ||| kVerifyRegB, .k22s⟩,  -- 0xD1 rsub-int
  ⟨kVerifyRegA ||| kVerifyRegB, .k22s⟩,  -- 0xD2 mul-int/lit16
  ⟨kVerifyRegA ||| kVerifyRegB, .k22s⟩,  -- 0xD3 div-int/lit16
  ⟨kVerifyRegA ||| kVerifyRegB, .k22s⟩,  -- 0xD4 rem-int/lit16
  ⟨kVerifyRegA ||| kVerifyRegB, .k22s⟩,  -- 0xD5 and-int/lit16
  ⟨kVerifyRegA ||| kVerifyRegB, .k22s⟩,  -- 0xD6 or-int/lit16
  ⟨kVerifyRegA ||| kVerifyRegB, .k22s⟩,  -- 0xD7 xor-int/lit16
  ⟨kVerifyRegA ||| kVerifyRegB, .k22b⟩,  -- 0xD8 add-int/lit8
  ⟨kVerifyRegA ||| kVerifyRegB, .k22b⟩,  -- 0xD9 rsub-int/lit8
  ⟨kVerifyRegA ||| kVerifyRegB, .k22b⟩,  -- 0xDA mul-int/lit8
  ⟨kVerifyRegA ||| kVerifyRegB, .k22b⟩,  -- 0xDB div-int/lit8
  ⟨kVerifyRegA ||| kVerifyRegB, .k22b⟩,  -- 0xDC rem-int/lit8
  ⟨kVerifyRegA ||| kVerifyRegB, .k22b⟩,  -- 0xDD and-int/lit8
  ⟨kVerifyRegA ||| kVerifyRegB, .k22b⟩,  -- 0xDE or-int/lit8
  ⟨kVerifyRegA ||| kVerifyRegB, .k22b⟩,  -- 0xDF xor-int/lit8
  ⟨kVerifyRegA ||| kVerifyRegB, .k22b⟩,  -- 0xE0 shl-int/lit8
  ⟨kVerifyRegA ||| kVerifyRegB, .k22b⟩,  -- 0xE1 shr-int/lit8
  ⟨kVerifyRegA ||| kVerifyRegB, .k22b⟩,  -- 0xE2 ushr-int/lit8
  ⟨kVerifyError, .k10x⟩,  -- 0xE3 unused-e3
  ⟨kVerifyError, .k10x⟩,  -- 0xE4 unused-e4
  ⟨kVerifyError, .k10x⟩,  -- 0xE5 unused-e5
  ⟨kVerifyError, .k10x⟩,  -- 0xE6 unused-e6
  ⟨kVerifyError, .k10x⟩,  -- 0xE7 unused-e7
  ⟨kVerifyError, .k10x⟩,  -- 0xE8 unused-e8
  ⟨kVerifyError, .k10x⟩,  -- 0xE9 unused-e9
  ⟨kVerifyError, .k10x⟩,  -- 0xEA unused-ea
  ⟨kVerifyError, .k10x⟩,  -- 0xEB unused-eb
  ⟨kVerifyError, .k10x⟩,  -- 0xEC unused-ec
  ⟨kVerifyError, .k10x⟩,  -- 0xED unused-ed
  ⟨kVerifyError, .k10x⟩,  -- 0xEE unused-ee
  ⟨kVerifyError, .k10x⟩,  -- 0xEF unused-ef
  ⟨kVerifyError, .k10x⟩,  -- 0xF0 unused-f0
  ⟨kVerifyError, .k10x⟩,  -- 0xF1 unused-f1
  ⟨kVerifyError, .k10x⟩,  -- 0xF2 unused-f2
  ⟨kVerifyError, .k10x⟩,  -- 0xF3 unused-f3
  ⟨kVerifyError, .k10x⟩,  -- 0xF4 unused-f4
  ⟨kVerifyError, .k10x⟩,  -- 0xF5 unused-f5
  ⟨kVerifyError, .k10x⟩,  -- 0xF6 unused-f6
  ⟨kVerifyError, .k10x⟩,  -- 0xF7 unused-f7
  ⟨kVerifyError, .k10x⟩,  -- 0xF8 unused-f8
  ⟨kVerifyError, .k10x⟩,  -- 0xF9 unused-f9
  ⟨kVerifyRegBMethod ||| kVerifyVarArgNonZero ||| kVerifyRegHPrototype, .k45cc⟩,  -- 0xFA invoke-polymorphic
  ⟨kVerifyRegBMethod ||| kVerifyVarArgRangeNonZero ||| kVerifyRegHPrototype, .k4rcc⟩,  -- 0xFB invoke-polymorphic/range
  ⟨kVerifyRegBCallSite ||| kVerifyVarArg, .k35c⟩,  -- 0xFC invoke-custom
  ⟨kVerifyRegBCallSite ||| kVerifyVarArgRange, .k3rc⟩,  -- 0xFD invoke-custom/range
  ⟨kVerifyRegA ||| kVerifyRegBMethodHandle, .k21c⟩,  -- 0xFE const-method-handle
  ⟨kVerifyRegA ||| kVerifyRegBPrototype, .k21c⟩]  -- 0xFF const-method-type

/-- The descriptor of an opcode. -/
def descriptorOf (op : UInt8) : InstructionDescriptor :=
  kInstructionDescriptors.getD op.toNat ⟨kVerifyError, .k10x⟩

/-- `Instruction::FormatOf`. -/
def formatOf (op : UInt8) : Format := (descriptorOf op).format

/-! ## Opcodes and payload signatures -/

namespace Code

def nop : UInt8 := 0x00
def moveResult : UInt8 := 0x0A
def moveResultWide : UInt8 := 0x0B
def moveResultObject : UInt8 := 0x0C
def returnVoid : UInt8 := 0x0E
def const16 : UInt8 := 0x13
def newArray : UInt8 := 0x23
def fillArrayData : UInt8 := 0x26
def goto : UInt8 := 0x28
def goto16 : UInt8 := 0x29
def goto32 : UInt8 := 0x2A
def packedSwitch : UInt8 := 0x2B
def sparseSwitch : UInt8 := 0x2C
def ifEq : UInt8 := 0x32
def ifLez : UInt8 := 0x3D

end Code

def kPackedSwitchSignature : UInt16 := 0x0100
def kSparseSwitchSignature : UInt16 := 0x0200
def kArrayDataSignature : UInt16 := 0x0300

/-- `InstructionSizeInCodeUnitsByOpcode`: `-1` marks the variable-length `NOP`. The source tests
the format against the ranges `k10x..k10t`, `k20t..k22c`, `k32x..k3rc`, `k45cc..k4rcc`, `k51l` of
the format order, which are the groups of `Instruction::SizeInCodeUnits(Format)`. -/
def instructionSizeInCodeUnitsByOpcode (op : UInt8) (format : Format) : Int :=
  if op = Code.nop then -1 else format.sizeInCodeUnits

/-! ## One instruction of a code item -/

/-- `Instruction::Fetch16(i)` of the instruction at `pc`. -/
def fetch16 (insns : List UInt16) (pc i : Nat) : UInt16 := insns.getD (pc + i) 0

/-- `Instruction::Fetch32(i)`: two code units, low half first. -/
def fetch32 (insns : List UInt16) (pc i : Nat) : UInt32 :=
  (fetch16 insns pc i).toUInt32 ||| ((fetch16 insns pc (i + 1)).toUInt32 <<< 16)

/-- `Instruction::Opcode`: the low byte of the first code unit. -/
def opcode (insns : List UInt16) (pc : Nat) : UInt8 := (fetch16 insns pc 0).toUInt8

/-- `Instruction::SizeInCodeUnitsComplexOpcode`. The products are `unsigned int` products, so
the array-data length `4 + (element_size * length + 1) / 2` is computed modulo `2^32`. -/
def sizeInCodeUnitsComplexOpcode (insns : List UInt16) (pc : Nat) : Nat :=
  let w := fetch16 insns pc 0
  if w = kPackedSwitchSignature then 4 + (fetch16 insns pc 1).toNat * 2
  else if w = kSparseSwitchSignature then 2 + (fetch16 insns pc 1).toNat * 4
  else if w = kArrayDataSignature then
    let elementSize := (fetch16 insns pc 1).toUInt32
    let length := fetch32 insns pc 2
    4 + ((elementSize * length + 1) / 2).toNat
  -- a plain `NOP`; the `LOG(FATAL)` branch needs a non-`NOP` opcode, which never gets here
  else 1

/-- `Instruction::CodeUnitsRequiredForSizeOfComplexOpcode`. -/
def codeUnitsRequiredForSizeOfComplexOpcode (insns : List UInt16) (pc : Nat) : Nat :=
  let w := fetch16 insns pc 0
  if w = kPackedSwitchSignature ∨ w = kSparseSwitchSignature then 2
  else if w = kArrayDataSignature then 4
  else 1

/-- `Instruction::SizeInCodeUnits`. -/
def sizeInCodeUnits (insns : List UInt16) (pc : Nat) : Nat :=
  let op := opcode insns pc
  if instructionSizeInCodeUnitsByOpcode op (formatOf op) < 0 then
    sizeInCodeUnitsComplexOpcode insns pc
  else (formatOf op).sizeInCodeUnits

/-- `Instruction::CodeUnitsRequiredForSizeComputation`. -/
def codeUnitsRequiredForSizeComputation (insns : List UInt16) (pc : Nat) : Nat :=
  let op := opcode insns pc
  if instructionSizeInCodeUnitsByOpcode op (formatOf op) < 0 then
    codeUnitsRequiredForSizeOfComplexOpcode insns pc
  else 1

/-! ## Operands (`dex_instruction-inl.h`)

Each accessor returns the `int32_t` of the source as its `UInt32` bits, which is what the
verifier's `uint32_t` parameters receive. A format without the operand is a `LOG(FATAL)` in the
source; the verifier never asks for it, and the model answers `0`. -/

/-- The low `n` bits of `x`, sign-extended to 32 bits (`static_cast` of an `int4_t`, `int8_t` or
`int16_t` to `int32_t`). -/
def signExtendFrom (n : Nat) (x : UInt32) : UInt32 := ⟨(x.toBitVec.setWidth n).signExtend 32⟩

/-- `Instruction::InstA`: bits 8..11 of the first code unit. -/
def instA (insns : List UInt16) (pc : Nat) : UInt32 := ((fetch16 insns pc 0).toUInt32 >>> 8) &&& 0x0f

/-- `Instruction::InstB`: bits 12..15 of the first code unit. -/
def instB (insns : List UInt16) (pc : Nat) : UInt32 := (fetch16 insns pc 0).toUInt32 >>> 12

/-- `Instruction::InstAA`: the high byte of the first code unit. -/
def instAA (insns : List UInt16) (pc : Nat) : UInt32 := (fetch16 insns pc 0).toUInt32 >>> 8

/-- `Instruction::VRegA`. -/
def vRegA (insns : List UInt16) (pc : Nat) : UInt32 :=
  match formatOf (opcode insns pc) with
  | .k10t => signExtendFrom 8 (instAA insns pc)
  | .k11n | .k12x | .k22c | .k22s | .k22t => instA insns pc
  | .k20t => signExtendFrom 16 (fetch16 insns pc 1).toUInt32
  | .k30t => fetch32 insns pc 1
  | .k32x => (fetch16 insns pc 1).toUInt32
  | .k35c | .k45cc => instB insns pc
  | _ => instAA insns pc

/-- `Instruction::VRegB`. The 64-bit `VRegB_51l` is narrowed to the `int32_t` result. -/
def vRegB (insns : List UInt16) (pc : Nat) : UInt32 :=
  match formatOf (opcode insns pc) with
  | .k11n => signExtendFrom 4 (instB insns pc)
  | .k12x | .k22c | .k22s | .k22t => instB insns pc
  | .k21c | .k21h | .k22x | .k35c | .k3rc | .k45cc | .k4rcc => (fetch16 insns pc 1).toUInt32
  | .k21s | .k21t => signExtendFrom 16 (fetch16 insns pc 1).toUInt32
  | .k22b | .k23x => (fetch16 insns pc 1).toUInt32 &&& 0xff
  | .k31c | .k31i | .k31t | .k51l => fetch32 insns pc 1
  | .k32x => (fetch16 insns pc 2).toUInt32
  | _ => 0

/-- `Instruction::VRegC`. -/
def vRegC (insns : List UInt16) (pc : Nat) : UInt32 :=
  match formatOf (opcode insns pc) with
  | .k22b => signExtendFrom 8 ((fetch16 insns pc 1).toUInt32 >>> 8)
  | .k22c => (fetch16 insns pc 1).toUInt32
  | .k3rc | .k4rcc => (fetch16 insns pc 2).toUInt32
  | .k22s | .k22t => signExtendFrom 16 (fetch16 insns pc 1).toUInt32
  | .k23x => (fetch16 insns pc 1).toUInt32 >>> 8
  | .k35c | .k45cc => (fetch16 insns pc 2).toUInt32 &&& 0x0f
  | _ => 0

/-- `Instruction::VRegH`. -/
def vRegH (insns : List UInt16) (pc : Nat) : UInt32 :=
  match formatOf (opcode insns pc) with
  | .k45cc | .k4rcc => (fetch16 insns pc 3).toUInt32
  | _ => 0

/-- `Instruction::GetVarArgs`: the argument registers of a `35c`/`45cc` instruction, `vA` of
them, taken from the register list and (for the fifth) from `InstA`. -/
def getVarArgs (insns : List UInt16) (pc : Nat) : List UInt32 :=
  let regList := (fetch16 insns pc 2).toUInt32
  let count := (instB insns pc).toNat
  [regList &&& 0x0f, (regList >>> 4) &&& 0x0f, (regList >>> 8) &&& 0x0f,
    (regList >>> 12) &&& 0x0f, instA insns pc].take count

theorem sizeInCodeUnitsComplexOpcode_pos (insns : List UInt16) (pc : Nat) :
    0 < sizeInCodeUnitsComplexOpcode insns pc := by
  unfold sizeInCodeUnitsComplexOpcode
  dsimp only
  split_ifs <;> omega

theorem sizeInCodeUnits_pos (insns : List UInt16) (pc : Nat) : 0 < sizeInCodeUnits insns pc := by
  unfold sizeInCodeUnits
  dsimp only
  split_ifs
  · exact sizeInCodeUnitsComplexOpcode_pos insns pc
  · exact Format.sizeInCodeUnits_pos _

end Art
