import Art.Lib.SignedField
import Mathlib.Data.List.ModifyLast

/-!
# Loading a 64-bit constant on riscv64 (`compiler/utils/riscv64/assembler_riscv64.cc`)

`Riscv64Assembler::LoadImmediate(rd, imm, can_use_tmp)` picks among several sequences of
`LUI`, `ADDI`, `ADDIW`, `SLLI`, `SRLI` and `ADD` the shortest one, counting instructions by running
the same helpers with counting callbacks. The model keeps the assembler's calls as a list of
instructions (`Insn`); the compressed encodings the `Addi`, `Lui`, `Slli` and `Srli` emitters pick
with the "C" extension mean the same instructions. An `int64_t` is a `BitVec 64` and its
arithmetic wraps, as the two subtractions `value - addi_value` and `imm - low` need for constants
near `2 ^ 63`. `IsInt(N, value)` `CHECK`s that `0 < N < 64` unless `N` is 64; where a `CHECK`
fails, the model returns `none`.

Under the RV64 semantics of the instructions (`run`), the sequence leaves `imm` in `rd` whenever
`rd` is neither `Zero`, whose writes are lost, nor a scratch register (`loadImmediate_spec`). Every
immediate fits its field, the `SLLI`+`ADDI` decomposition stops within its three slots, and the
sequence has at most 8 instructions, 6 with a scratch register.

Each emitter has a spec lemma saying that what it emits `Loads` the value into its register. The
decomposition is put back together by `applySlliAddi` and takes 12 bits off the magnitude in each
pass (`decompose_step_bound`). The counting runs of the source are the emitting runs on `Zero`,
and their lengths do not depend on the register (`map_length_emitWithSlliAddiHelper`).
-/

namespace Art

namespace Riscv64

/-! ### Registers and instructions -/

/-- `XRegister`: the 32 integer registers by number. -/
abbrev XRegister := Fin 32

/-- The register numbers are literals of `Fin 32`; the one proof they need is shared by name. -/
theorem neZero_xRegisters : NeZero 32 := ⟨by decide⟩

attribute [instance] neZero_xRegisters

/-- `Zero` (`x0`), hard-wired to zero. -/
def Zero : XRegister := 0

/-- `T5` and `T6`, the scratch registers `TMP2` and `TMP`. -/
def TMP2 : XRegister := 30
def TMP : XRegister := 31

/-- The assembler's initial `available_scratch_core_registers_`: `TMP` and `TMP2`. -/
def kInitialScratchCoreRegisters : BitVec 32 := (1 <<< TMP.val) ||| (1 <<< TMP2.val)

/-- The instructions `LoadImmediate` emits, with the emitters' argument types: `int32_t`
immediates, `uint32_t` upper immediates and shift amounts. -/
inductive Insn where
  | addi (rd rs1 : XRegister) (imm12 : BitVec 32)
  | addiw (rd rs1 : XRegister) (imm12 : BitVec 32)
  | slli (rd rs1 : XRegister) (shamt : Nat)
  | srli (rd rs1 : XRegister) (shamt : Nat)
  | lui (rd : XRegister) (imm20 : BitVec 32)
  | add (rd rs1 rs2 : XRegister)
  deriving DecidableEq, Repr

/-- The register an instruction writes. -/
def Insn.dest : Insn → XRegister
  | .addi rd .. | .addiw rd .. | .slli rd .. | .srli rd .. | .lui rd _ | .add rd .. => rd

/-- Every immediate fits its encoding field: 12 signed bits for `ADDI` and `ADDIW`, 20 bits for
`LUI`, 6 bits for a shift amount. -/
def Insn.fits : Insn → Bool
  | .addi _ _ imm12 | .addiw _ _ imm12 => decide (-2048 ≤ imm12.toInt ∧ imm12.toInt < 2048)
  | .slli _ _ shamt | .srli _ _ shamt => decide (shamt < 64)
  | .lui _ imm20 => decide (imm20.toNat < 2 ^ 20)
  | .add .. => true

/-! ### RV64 semantics -/

/-- The integer register file. -/
abbrev Regs := XRegister → BitVec 64

/-- A register read: `x0` reads as zero. -/
def read (x : Regs) (r : XRegister) : BitVec 64 := if r = Zero then 0 else x r

/-- A register write; one to `x0` is never read back. -/
def write (x : Regs) (r : XRegister) (v : BitVec 64) : Regs := Function.update x r v

/-- The 12-bit immediate field, sign-extended. -/
def imm12Value (imm12 : BitVec 32) : BitVec 64 := (imm12.setWidth 12).signExtend 64

/-- The value an instruction writes. `ADDIW` wraps to 32 bits and sign-extends; `LUI`
sign-extends its 32-bit result. -/
def Insn.value (x : Regs) : Insn → BitVec 64
  | .addi _ rs1 imm12 => read x rs1 + imm12Value imm12
  | .addiw _ rs1 imm12 => ((read x rs1 + imm12Value imm12).setWidth 32).signExtend 64
  | .slli _ rs1 shamt => read x rs1 <<< shamt
  | .srli _ rs1 shamt => read x rs1 >>> shamt
  | .lui _ imm20 => (imm20 <<< 12).signExtend 64
  | .add _ rs1 rs2 => read x rs1 + read x rs2

/-- One instruction. -/
def exec (x : Regs) (i : Insn) : Regs := write x i.dest (i.value x)

/-- A sequence of instructions. -/
def run (x : Regs) (code : List Insn) : Regs := code.foldl exec x

/-! ### `LoadImmediate` -/

/-- `IsInt<kBits>(value)`. -/
def isIntK (kBits : Nat) (value : BitVec 64) : Bool :=
  kBits == 64 || (decide (-2 ^ (kBits - 1) ≤ value.toInt) && decide (value.toInt < 2 ^ (kBits - 1)))

/-- `IsInt(N, value)`; `none` where its `CHECK_LT(0u, N)` or `CHECK_LT(N, 64)` fails. -/
def isInt (n : Nat) (value : BitVec 64) : Option Bool :=
  if n = 64 then some true else if 0 < n ∧ n < 64 then some (isIntK n value) else none

/-- `is_simple_li_value`: the range LUI+ADDI/W can handle. -/
def isSimpleLiValue (value : BitVec 64) : Bool :=
  decide (-0x80000800 ≤ value.toInt) && decide (value.toInt ≤ 0x7fffffff)

/-- `emit_simple_li_helper(rd, value, ...)`. -/
def emitSimpleLiHelper (rd : XRegister) (value : BitVec 64) : Option (List Insn) :=
  if isIntK 12 value then some [.addi rd Zero (value.setWidth 32)]
  else
    -- `CTZ(value) < 12 && IsInt(6 + CTZ(value), value)`
    (if value.ctz.toNat < 12 then isInt (6 + value.ctz.toNat) value else some false).map
      fun shortPair =>
        if shortPair then
          [.addi rd Zero ((value.sshiftRight value.ctz.toNat).setWidth 32), .slli rd rd value.ctz.toNat]
        else if value.toInt < -0x80000000 then
          [.lui rd (1 <<< 19), .addi rd rd ((value - BitVec.ofInt 64 (-0x80000000)).setWidth 32)]
        else
          let nearValue := (value + 0x800) &&& ~~~0xfff
          let smallValue := (value - nearValue).setWidth 32
          .lui rd (nearValue.setWidth 32 >>> 12) ::
            if smallValue ≠ 0 then [.addiw rd rd smallValue] else []

/-- `count_simple_li_instructions`: the helper run with counting callbacks. -/
def countSimpleLiInstructions (value : BitVec 64) : Option Nat :=
  (emitSimpleLiHelper Zero value).map List.length

/-- `kMaxNumSllAddi`: the slots of `addi_values` and `sll_shamts`. -/
def kMaxNumSllAddi : Nat := 3

/-- The `while` loop of `emit_with_slli_addi_helper`, run at most `fuel` times: the
`(addi_values[i], sll_shamts[i])` it records, first to last, and the value it leaves. -/
def decomposeSlliAddi : Nat → BitVec 64 → List (BitVec 32 × Nat) × BitVec 64
  | 0, value => ([], value)
  | fuel + 1, value =>
    if isSimpleLiValue value then ([], value)
    else
      -- the sign-extended low 12 bits for ADDI
      let addiValue := (value &&& 0xfff) - ((value &&& 0x800) <<< 1)
      let remaining := value - addiValue
      let shamt := remaining.ctz.toNat
      let rest := decomposeSlliAddi fuel (remaining.sshiftRight shamt)
      ((addiValue.setWidth 32, shamt) :: rest.1, rest.2)

/-- One `SLLI` and the `ADDI` after it, left out when its immediate is zero. -/
def slliAddi (rd : XRegister) (p : BitVec 32 × Nat) : List Insn :=
  .slli rd rd p.2 :: if p.1 ≠ 0 then [.addi rd rd p.1] else []

/-- `emit_with_slli_addi_helper(rd, value, ...)`. -/
def emitWithSlliAddiHelper (rd : XRegister) (value : BitVec 64) : Option (List Insn) :=
  let d := decomposeSlliAddi kMaxNumSllAddi value
  (if d.1 ≠ [] ∧ isIntK 20 d.2 ∧ !isIntK 12 d.2 then
      -- the signed 20-bit value by LUI, the last SLLI shorter by 12 to make up for it
      some ([.lui rd ((d.2 &&& 0xfffff).setWidth 32)], d.1.modifyLast fun p => (p.1, p.2 - 12))
    else (emitSimpleLiHelper rd d.2).map fun code => (code, d.1)).map
    -- `for (size_t i = num_sll_addi; i != 0u; )`: the pairs last to first
    fun headPairs => headPairs.1 ++ headPairs.2.reverse.flatMap (slliAddi rd)

/-- `count_instructions_with_slli_addi`. -/
def countInstructionsWithSlliAddi (value : BitVec 64) : Option Nat :=
  (emitWithSlliAddiHelper Zero value).map List.length

/-- `MaxInt<uint64_t>(bits)`. -/
def maxIntU64 (bits : Nat) : BitVec 64 := if bits = 64 then BitVec.allOnes 64 else (1 <<< bits) - 1

/-- `MaxInt<uint32_t>(bits)`. -/
def maxIntU32 (bits : Nat) : BitVec 32 := if bits = 32 then BitVec.allOnes 32 else (1 <<< bits) - 1

/-- `ScratchRegisterScope::AllocateXRegister`: the highest available scratch register. -/
def allocateXRegister (available : BitVec 32) : XRegister :=
  ⟨31 - available.clz.toNat, by omega⟩

/-- "Sometimes it's better to end with a SLLI": the instruction count and the trailing shift. -/
def chooseTrailingSlli (imm : BitVec 64) (insnsNeeded : Nat) : Option (Nat × Nat) :=
  if imm &&& 1 = 0 ∧ imm &&& 0xfff ≠ 0 then do
    let newInsnsNeeded := (← countInstructionsWithSlliAddi (imm.sshiftRight imm.ctz.toNat)) + 1
    pure (if insnsNeeded > newInsnsNeeded then (newInsnsNeeded, imm.ctz.toNat) else (insnsNeeded, 0))
  else some (insnsNeeded, 0)

/-- The `SRLI` sequence that loads the left-justified `value` by `emit_simple_li`, when `value` is
simple and the sequence shorter: `some` of it when emitted. -/
def srliViaSimpleLi (rd : XRegister) (value : BitVec 64) (shamt insnsNeeded : Nat) :
    Option (Option (List Insn)) :=
  if isSimpleLiValue value then do
    let newInsnsNeeded := (← countSimpleLiInstructions value) + 1
    -- in case of equal number of instructions, clang prefers the sequence without SRLI
    if newInsnsNeeded < insnsNeeded then
      -- the low bits shifted out set to one, as clang does
      let shiftedOut := (maxIntU32 shamt).signExtend 64
      let code ← emitSimpleLiHelper rd (if value &&& 0xfff = 0 then value else value + shiftedOut)
      pure (some (code ++ [.srli rd rd shamt]))
    else pure none
  else pure none

/-- The `SRLI` sequence that loads the left-justified `value` by `ADDI` or `LUI` and `SLLI`, when
it fits and is shorter. -/
def srliViaCtz (rd : XRegister) (value : BitVec 64) (shamt insnsNeeded : Nat) :
    Option (Option (List Insn)) := do
  let ctz := value.ctz.toNat
  if ← isInt (ctz + 20) value then
    if 3 < insnsNeeded then
      -- clang prefers ADDI+SLLI+SRLI over LUI+SLLI+SRLI
      let code ← (isInt (ctz + 12) value).map fun viaAddi =>
        if viaAddi then [.addi rd Zero ((value.sshiftRight ctz).setWidth 32), .slli rd rd ctz]
        else [.lui rd (((value >>> ctz) &&& 0xfffff).setWidth 32), .slli rd rd (ctz - 12)]
      pure (some (code ++ [.srli rd rd shamt]))
    else pure none
  else pure none

/-- "Sometimes we can emit a shorter sequence that ends with SRLI", for a positive `imm`: `some`
of the sequence when one is emitted. -/
def emitWithSrli (rd : XRegister) (imm : BitVec 64) (insnsNeeded : Nat) :
    Option (Option (List Insn)) :=
  let shamt := imm.clz.toNat
  if imm = maxIntU64 (64 - shamt) then some (some [.addi rd Zero (-1), .srli rd rd shamt])
  else do
    let value := imm <<< shamt
    match ← srliViaSimpleLi rd value shamt insnsNeeded with
    | some code => pure (some code)
    | none => srliViaCtz rd value shamt insnsNeeded

/-- "If we can use a scratch register": the high part shifted into place and the low part added
from the scratch register, when that is shorter. -/
def emitWithTmp (available : BitVec 32) (rd : XRegister) (imm : BitVec 64) (insnsNeeded : Nat) :
    Option (Option (List Insn)) := do
  let low := (imm &&& 0xffffffff) - ((imm &&& 0x80000000) <<< 1)
  let remainder := imm - low
  let slliShamt := remainder.ctz.toNat
  let high := remainder.sshiftRight slliShamt
  let newInsnsNeeded :=
    (if isIntK 20 high || high &&& 0xfff == 0 then 1 else 2) + (← countSimpleLiInstructions low) + 2
  if newInsnsNeeded < insnsNeeded then
    let tmp := allocateXRegister available
    let (highCode, slliShamt) ← (if isIntK 20 high && !isIntK 12 high then
        some ([.lui rd ((high &&& 0xfffff).setWidth 32)], slliShamt - 12)
      else (emitSimpleLiHelper rd high).map fun code => (code, slliShamt))
    let lowCode ← emitSimpleLiHelper tmp low
    pure (some (highCode ++ lowCode ++ [.slli rd rd slliShamt, .add rd rd tmp]))
  else pure none

/-- The last lines: the SLLI+ADDI sequence, of `imm` shifted right by the trailing shift, and the
trailing `SLLI`. -/
def emitWithTrailingSlli (rd : XRegister) (imm : BitVec 64) (trailingSlliShamt : Nat) :
    Option (List Insn) := do
  let code ← emitWithSlliAddiHelper rd
    (if trailingSlliShamt ≠ 0 then imm.sshiftRight trailingSlliShamt else imm)
  pure (if trailingSlliShamt ≠ 0 then code ++ [.slli rd rd trailingSlliShamt] else code)

/-- `Riscv64Assembler::LoadImmediate(rd, imm, can_use_tmp)`, with the scratch registers
`available_scratch_core_registers_`; `none` where one of its `CHECK`s fails. -/
def loadImmediate (available : BitVec 32) (rd : XRegister) (imm : BitVec 64) (canUseTmp : Bool) :
    Option (List Insn) :=
  -- `CHECK_EQ((1u << rd) & available_scratch_core_registers_, 0u)`
  if available.getLsbD rd.val then none
  -- `CHECK_IMPLIES(can_use_tmp, srs.AvailableXRegisters() != 0u)`
  else if canUseTmp ∧ available = 0 then none
  else do
    let insnsNeeded ← countInstructionsWithSlliAddi imm
    if insnsNeeded > 2 then
      let (insnsNeeded, trailingSlliShamt) ← chooseTrailingSlli imm insnsNeeded
      let viaSrli ← (if 0 < imm.toInt then emitWithSrli rd imm insnsNeeded else pure none)
      match viaSrli with
      | some code => pure code
      | none =>
        let viaTmp ← (if canUseTmp then emitWithTmp available rd imm insnsNeeded else pure none)
        match viaTmp with
        | some code => pure code
        | none => emitWithTrailingSlli rd imm trailingSlliShamt
    else emitWithTrailingSlli rd imm 0

/-! ### The semantics, instruction by instruction -/

section Semantics

variable {x : Regs} {r rd : XRegister} {v : BitVec 64}

@[simp] theorem read_zero (x : Regs) : read x Zero = 0 := if_pos rfl

theorem read_write_self (hrd : rd ≠ Zero) : read (write x rd v) rd = v := by
  simp [read, write, hrd]

theorem read_write_of_ne (h : r ≠ rd) : read (write x rd v) r = read x r := by
  simp only [read, write, Function.update_of_ne h]

@[simp] theorem run_nil (x : Regs) : run x [] = x := rfl

@[simp] theorem run_cons (x : Regs) (i : Insn) (code : List Insn) :
    run x (i :: code) = run (exec x i) code := rfl

theorem run_append (x : Regs) (code code' : List Insn) :
    run x (code ++ code') = run (run x code) code' := List.foldl_append

/-- The last instruction that writes a register decides what it holds. -/
theorem read_run_concat (x : Regs) (code : List Insn) (i : Insn) (hrd : i.dest ≠ Zero) :
    read (run x (code ++ [i])) i.dest = i.value (run x code) := by
  rw [run_append, run_cons, run_nil, exec, read_write_self hrd]

/-- Instructions that write other registers leave a register alone. -/
theorem read_run_of_dest_ne {code : List Insn} (h : ∀ i ∈ code, i.dest ≠ r) :
    read (run x code) r = read x r := by
  induction code generalizing x with
  | nil => rfl
  | cons i code ih =>
    rw [run_cons, ih fun j hj => h j (List.mem_cons_of_mem _ hj), exec,
      read_write_of_ne (h i List.mem_cons_self).symm]

end Semantics

/-! ### Immediates -/

section Immediates

theorem isIntK_iff {kBits : Nat} (hk : 0 < kBits) (hk64 : kBits < 64) {value : BitVec 64} :
    isIntK kBits value ↔ -2 ^ (kBits - 1) ≤ value.toInt ∧ value.toInt < 2 ^ (kBits - 1) := by
  simp [isIntK, show kBits ≠ 64 by omega]

theorem isInt_of_lt {n : Nat} (hn : 0 < n) (hn64 : n < 64) (value : BitVec 64) :
    isInt n value = some (isIntK n value) := by
  rw [isInt, if_neg (by omega), if_pos ⟨hn, hn64⟩]

theorem isInt_eq_some {n : Nat} (hn : 0 < n) (hn64 : n ≤ 64) (value : BitVec 64) :
    isInt n value = some (decide (-2 ^ (n - 1) ≤ value.toInt ∧ value.toInt < 2 ^ (n - 1))) := by
  by_cases h : n = 64
  · subst h
    have hlo := BitVec.le_toInt value
    have hhi := BitVec.toInt_lt (x := value)
    rw [isInt, if_pos rfl, decide_eq_true ⟨hlo, hhi⟩]
  · rw [isInt_of_lt hn (by omega), isIntK]
    simp [h]

theorem isSimpleLiValue_iff {value : BitVec 64} :
    isSimpleLiValue value ↔ -0x80000800 ≤ value.toInt ∧ value.toInt ≤ 0x7fffffff := by
  simp [isSimpleLiValue]

/-- An `int64_t` that fits 12 bits, passed as an `int32_t` immediate, is its own field. -/
theorem imm12Value_setWidth {value : BitVec 64} (hlo : -2048 ≤ value.toInt)
    (hhi : value.toInt < 2048) : imm12Value (value.setWidth 32) = value := by
  rw [imm12Value, BitVec.setWidth_setWidth_of_le _ (by omega)]
  exact BitVec.signExtend_setWidth_of_fits value (by omega) (by omega) hlo hhi

theorem toInt_setWidth_32 {value : BitVec 64} (hlo : -2 ^ 31 ≤ value.toInt)
    (hhi : value.toInt < 2 ^ 31) : (value.setWidth 32).toInt = value.toInt :=
  BitVec.toInt_setWidth_of_fits value (by omega) (by omega) hlo hhi

/-- An immediate that fits the field is read back whole. -/
theorem fits_addi_setWidth {rd rs1 : XRegister} {value : BitVec 64} (hlo : -2048 ≤ value.toInt)
    (hhi : value.toInt < 2048) : (Insn.addi rd rs1 (value.setWidth 32)).fits := by
  have h := toInt_setWidth_32 (show -2 ^ 31 ≤ value.toInt by omega)
    (show value.toInt < 2 ^ 31 by omega)
  simp only [Insn.fits, h]
  simp [hlo, hhi]

theorem setWidth_signExtend_32 (x : BitVec 32) : (x.signExtend 64).setWidth 32 = x := by
  ext i hi
  simp only [BitVec.getElem_setWidth, BitVec.getLsbD_signExtend]
  simp [hi, show i < 64 by omega]

/-- Clearing the bits of a mask subtracts them. -/
theorem and_not_eq_sub_and (x m : BitVec 64) : x &&& ~~~m = x - (x &&& m) := by
  have hdisj : (x &&& m) &&& (x &&& ~~~m) = 0 := by
    ext i hi
    simp only [BitVec.getElem_and, BitVec.getElem_not]
    cases x[i] <;> cases m[i] <;> simp
  have hsum : (x &&& m) + (x &&& ~~~m) = x := by
    rw [BitVec.add_eq_or_of_and_eq_zero _ _ hdisj, ← BitVec.and_or_distrib_left, BitVec.or_not_self,
      BitVec.and_allOnes]
  bv_omega

/-- The mask of the low `k` bits. -/
theorem getLsbD_ofNat_two_pow_sub_one {k : Nat} (hk : k ≤ 64) (j : Nat) :
    (BitVec.ofNat 64 (2 ^ k - 1)).getLsbD j = decide (j < k) := by
  rw [BitVec.getLsbD_ofNat, Nat.testBit_two_pow_sub_one]
  by_cases hj : j < k
  · simp [hj, show j < 64 by omega]
  · simp [hj]

theorem imm12Value_zero : imm12Value 0 = 0#64 := by decide

/-- The upper immediate the source passes to `LUI` for a 20-bit value: its low 20 bits, which
`LUI` shifts into place and sign-extends. -/
theorem setWidth_and_shiftLeft (v : BitVec 64) :
    ((v &&& 0xfffff).setWidth 32) <<< 12 = (v <<< 12).setWidth 32 := by
  have hmask : ∀ j, (0xfffff : BitVec 64).getLsbD j = decide (j < 20) :=
    getLsbD_ofNat_two_pow_sub_one (k := 20) (by omega)
  ext i hi
  simp only [BitVec.getElem_shiftLeft, BitVec.getElem_setWidth, BitVec.getLsbD_and, hmask,
    BitVec.getLsbD_shiftLeft]
  by_cases hi12 : i < 12
  · simp [hi12]
  · simp [hi12, show i - 12 < 20 by omega, show i < 64 by omega]

theorem lui_value_of_fits {v : BitVec 64} (hlo : -2 ^ 19 ≤ v.toInt) (hhi : v.toInt < 2 ^ 19) :
    (((v &&& 0xfffff).setWidth 32) <<< 12).signExtend 64 = v <<< 12 := by
  have h := BitVec.toInt_shiftLeft_of_fits v 12 (by omega) (by norm_num; omega) (by norm_num; omega)
  rw [setWidth_and_shiftLeft]
  exact BitVec.signExtend_setWidth_of_fits (v <<< 12) (k := 32) (by omega) (by omega)
    (by rw [h]; norm_num; omega) (by rw [h]; norm_num; omega)

end Immediates

/-! ### Sequences that load a value -/

/-- `code` leaves `value` in `rd` from any state, and every immediate in it fits its field. -/
structure Loads (rd : XRegister) (value : BitVec 64) (code : List Insn) : Prop where
  fits : ∀ i ∈ code, i.fits
  read_run : ∀ x, rd ≠ Zero → read (run x code) rd = value

section Loads

variable {rd : XRegister} {v v' : BitVec 64} {code : List Insn} {i : Insn}

theorem loads_singleton (hfits : i.fits) (hdest : i.dest = rd) (hvalue : ∀ x, i.value x = v) :
    Loads rd v [i] where
  fits j hj := by
    rw [List.mem_singleton.1 hj]
    exact hfits
  read_run x hrd := by
    subst hdest
    rw [run_cons, run_nil, exec, read_write_self hrd, hvalue]

/-- One more instruction on `rd`, whose result depends on `rd` only. -/
theorem Loads.concat (h : Loads rd v code) (hfits : i.fits) (hdest : i.dest = rd)
    (hvalue : ∀ x, read x rd = v → i.value x = v') : Loads rd v' (code ++ [i]) where
  fits j hj := by
    rcases List.mem_append.1 hj with hj | hj
    · exact h.fits j hj
    · rw [List.mem_singleton.1 hj]
      exact hfits
  read_run x hrd := by
    subst hdest
    rw [read_run_concat x code i hrd, hvalue _ (h.read_run x hrd)]

theorem Loads.slli (h : Loads rd v code) (shamt : Nat) (hshamt : shamt < 64) :
    Loads rd (v <<< shamt) (code ++ [.slli rd rd shamt]) :=
  h.concat (by simp [Insn.fits, hshamt]) rfl fun x hx => by rw [Insn.value, hx]

theorem Loads.srli (h : Loads rd v code) (shamt : Nat) (hshamt : shamt < 64) :
    Loads rd (v >>> shamt) (code ++ [.srli rd rd shamt]) :=
  h.concat (by simp [Insn.fits, hshamt]) rfl fun x hx => by rw [Insn.value, hx]

end Loads

/-! ### `emit_simple_li_helper` -/

section SimpleLi

variable {rd : XRegister} {value : BitVec 64}

/-- `ADDI rd, Zero, value` for a value of 12 bits. -/
theorem loads_addi_zero (rd : XRegister) (hlo : -2048 ≤ value.toInt) (hhi : value.toInt < 2048) :
    Loads rd value [.addi rd Zero (value.setWidth 32)] :=
  loads_singleton (fits_addi_setWidth hlo hhi) rfl fun x => by
    rw [Insn.value, read_zero, imm12Value_setWidth hlo hhi]
    simp

/-- A value of `6 + ctz` bits: its odd part by `ADDI`, shifted into place by `SLLI`. -/
theorem loads_shortPair (hctz : value.ctz.toNat < 12)
    (hfits : isIntK (6 + value.ctz.toNat) value) :
    Loads rd value [.addi rd Zero ((value.sshiftRight value.ctz.toNat).setWidth 32),
      .slli rd rd value.ctz.toNat] := by
  rw [isIntK_iff (by omega) (by omega)] at hfits
  have hpow : (2 : Int) ^ (6 + value.ctz.toNat - 1) = 32 * 2 ^ value.ctz.toNat := by
    rw [show 6 + value.ctz.toNat - 1 = 5 + value.ctz.toNat by omega, pow_add]
    norm_num
  have hpos : (0 : Int) < 2 ^ value.ctz.toNat := by positivity
  have hodd := SignedDivision.toInt_sshiftRight_eq_ediv value value.ctz.toNat
  have hlo : -2048 ≤ (value.sshiftRight value.ctz.toNat).toInt := by
    rw [hodd]
    exact Int.le_ediv_of_mul_le hpos (by omega)
  have hhi : (value.sshiftRight value.ctz.toNat).toInt < 2048 := by
    rw [hodd]
    exact Int.ediv_lt_of_lt_mul hpos (by omega)
  have h := (loads_addi_zero rd hlo hhi).slli value.ctz.toNat (by omega)
  rwa [BitVec.shiftLeft_sshiftRight_of_le_ctz le_rfl] at h

/-- A value below `-2 ^ 31`: `LUI` of `-2 ^ 31` and a negative `ADDI`. -/
theorem loads_lui_addi (hlo : -0x80000800 ≤ value.toInt) (hhi : value.toInt < -0x80000000) :
    Loads rd value [.lui rd (1 <<< 19),
      .addi rd rd ((value - BitVec.ofInt 64 (-0x80000000)).setWidth 32)] := by
  have hsmall : (value - BitVec.ofInt 64 (-0x80000000)).toInt = value.toInt + 0x80000000 := by
    rw [BitVec.toInt_sub, show (BitVec.ofInt 64 (-0x80000000)).toInt = -0x80000000 by decide]
    exact SignedDivision.bmod_two_pow_eq_self (by omega) (by omega) (by omega)
  have hlui : Loads rd (BitVec.ofInt 64 (-0x80000000)) [.lui rd (1 <<< 19)] :=
    loads_singleton (by simp only [Insn.fits]; decide) rfl fun x => by simp only [Insn.value]; decide
  refine hlui.concat (fits_addi_setWidth (by omega) (by omega)) rfl fun x hx => ?_
  rw [Insn.value, hx, imm12Value_setWidth (by omega) (by omega)]
  bv_omega

/-- `LUI` of the upper 20 bits of a word whose low 12 bits are clear loads that word,
sign-extended. -/
theorem lui_ushiftRight_value {n : BitVec 32} (h : ∀ i < 12, n.getLsbD i = false) :
    ((n >>> 12) <<< 12).signExtend 64 = n.signExtend 64 := by
  congr 1
  ext i hi
  rw [BitVec.getElem_shiftLeft, BitVec.getElem_ushiftRight]
  by_cases hlow : i < 12
  · rw [decide_eq_true hlow, Bool.not_true, Bool.false_and, ← BitVec.getLsbD_eq_getElem, h i hlow]
  · rw [decide_eq_false hlow, Bool.not_false, Bool.true_and, ← BitVec.getLsbD_eq_getElem]
    congr 1
    omega

/-- The rounded value of the last case has its low 12 bits clear. -/
theorem getLsbD_nearValue (value : BitVec 64) {i : Nat} (hi : i < 12) :
    (((value + 0x800) &&& ~~~0xfff).setWidth 32).getLsbD i = false := by
  have hmask : (0xfff : BitVec 64).getLsbD i = true := by
    rw [show (0xfff : BitVec 64) = BitVec.ofNat 64 (2 ^ 12 - 1) from rfl,
      getLsbD_ofNat_two_pow_sub_one (by omega), decide_eq_true hi]
  simp only [BitVec.getLsbD_setWidth, BitVec.getLsbD_and, BitVec.getLsbD_not, hmask]
  simp

/-- The remainder of the last case: the value less its rounding, within 12 signed bits. -/
theorem toInt_sub_nearValue (value : BitVec 64) :
    -2048 ≤ (value - ((value + 0x800) &&& ~~~0xfff)).toInt ∧
      (value - ((value + 0x800) &&& ~~~0xfff)).toInt < 2048 := by
  have hsub : value - ((value + 0x800) &&& ~~~0xfff) = ((value + 0x800) &&& 0xfff) - 0x800 := by
    rw [and_not_eq_sub_and]
    bv_omega
  have hlow : ((value + 0x800) &&& 0xfff).toNat ≤ 0xfff := by
    rw [BitVec.toNat_and]
    exact Nat.and_le_right.trans (by decide)
  have hval : (((value + 0x800) &&& 0xfff) - 0x800).toInt = ((value + 0x800) &&& 0xfff).toNat - 2048 := by
    rw [BitVec.toInt_sub, BitVec.toInt_eq_toNat_of_lt (by omega),
      show (0x800 : BitVec 64).toInt = 2048 by decide]
    exact SignedDivision.bmod_two_pow_eq_self (by omega) (by omega) (by omega)
  rw [hsub, hval]
  omega

/-- A 32-bit value: `LUI` of it rounded to a multiple of `0x1000`, and `ADDIW` of the rest unless
the rest is zero. -/
theorem loads_lui_addiw (hlo : -0x80000000 ≤ value.toInt) (hhi : value.toInt ≤ 0x7fffffff) :
    Loads rd value (.lui rd (((value + 0x800) &&& ~~~0xfff).setWidth 32 >>> 12) ::
      if (value - ((value + 0x800) &&& ~~~0xfff)).setWidth 32 ≠ 0 then
        [.addiw rd rd ((value - ((value + 0x800) &&& ~~~0xfff)).setWidth 32)] else []) := by
  have hrest := toInt_sub_nearValue value
  have hlui : Loads rd ((((value + 0x800) &&& ~~~0xfff).setWidth 32).signExtend 64)
      [.lui rd (((value + 0x800) &&& ~~~0xfff).setWidth 32 >>> 12)] := by
    refine loads_singleton ?_ rfl fun x => ?_
    · simp only [Insn.fits, BitVec.toNat_ushiftRight, decide_eq_true_eq]
      have := BitVec.isLt (((value + 0x800) &&& ~~~0xfff).setWidth 32)
      rw [Nat.shiftRight_eq_div_pow]
      omega
    · rw [Insn.value, lui_ushiftRight_value fun i hi => getLsbD_nearValue value hi]
  -- the rounding and the rest add up to the value in the low 32 bits
  have hsum : ((value + 0x800) &&& ~~~0xfff).setWidth 32 +
      (value - ((value + 0x800) &&& ~~~0xfff)).setWidth 32 = value.setWidth 32 := by
    rw [← BitVec.setWidth_add _ _ (by omega)]
    congr 1
    bv_omega
  have h32 : (value.setWidth 32).signExtend 64 = value :=
    BitVec.signExtend_setWidth_of_fits value (by omega) (by omega) (by omega) (by omega)
  generalize ((value + 0x800) &&& ~~~0xfff) = near at hrest hlui hsum ⊢
  split_ifs with hne
  · refine hlui.concat (i := .addiw rd rd ((value - near).setWidth 32)) ?_ rfl fun x hx => ?_
    · have h := toInt_setWidth_32 (show -2 ^ 31 ≤ (value - near).toInt by omega)
        (show (value - near).toInt < 2 ^ 31 by omega)
      simp only [Insn.fits, h]
      exact decide_eq_true hrest
    · rw [Insn.value, hx, imm12Value_setWidth hrest.1 hrest.2,
        BitVec.setWidth_add _ _ (by omega), setWidth_signExtend_32, hsum, h32]
  · rw [not_not] at hne
    have hnear : near.setWidth 32 = value.setWidth 32 := by
      rw [← hsum, hne]
      simp
    rw [hnear]
    rwa [hnear, h32] at hlui

/-- `emit_simple_li_helper` on a value in its range: one or two instructions on `rd` that load
it. -/
theorem emitSimpleLiHelper_spec (rd : XRegister) {value : BitVec 64} (hv : isSimpleLiValue value) :
    ∃ code, emitSimpleLiHelper rd value = some code ∧ Loads rd value code ∧
      (∀ i ∈ code, i.dest = rd) ∧ 1 ≤ code.length ∧ code.length ≤ 2 := by
  rw [isSimpleLiValue_iff] at hv
  unfold emitSimpleLiHelper
  by_cases h12 : isIntK 12 value
  · have hfits := (isIntK_iff (by omega) (by omega)).1 h12
    norm_num at hfits
    rw [if_pos h12]
    exact ⟨_, rfl, loads_addi_zero rd hfits.1 hfits.2, by simp [Insn.dest], by simp, by simp⟩
  have hshort : (if value.ctz.toNat < 12 then isInt (6 + value.ctz.toNat) value else some false) =
      some (decide (value.ctz.toNat < 12) && isIntK (6 + value.ctz.toNat) value) := by
    split_ifs with hctz
    · rw [isInt_of_lt (by omega) (by omega), decide_eq_true hctz, Bool.true_and]
    · rw [decide_eq_false hctz, Bool.false_and]
  rw [if_neg h12, hshort, Option.map_some]
  by_cases hpair : (decide (value.ctz.toNat < 12) && isIntK (6 + value.ctz.toNat) value) = true
  · rw [if_pos hpair]
    rw [Bool.and_eq_true, decide_eq_true_eq] at hpair
    exact ⟨_, rfl, loads_shortPair hpair.1 hpair.2, by simp [Insn.dest], by simp, by simp⟩
  rw [if_neg hpair]
  by_cases hlow : value.toInt < -0x80000000
  · rw [if_pos hlow]
    exact ⟨_, rfl, loads_lui_addi hv.1 hlow, by simp [Insn.dest], by simp, by simp⟩
  · rw [if_neg hlow]
    refine ⟨_, rfl, loads_lui_addiw (by omega) hv.2, ?_, by simp, ?_⟩
    · intro i hi
      simp only at hi
      split_ifs at hi
      · rcases List.mem_cons.1 hi with rfl | hi
        · rfl
        · rw [List.mem_singleton.1 hi]
          rfl
      · rw [List.mem_singleton.1 hi]
        rfl
    · simp only
      split_ifs <;> simp

theorem map_length_emitSimpleLiHelper (rd rd' : XRegister) (value : BitVec 64) :
    (emitSimpleLiHelper rd value).map List.length = (emitSimpleLiHelper rd' value).map List.length := by
  unfold emitSimpleLiHelper
  by_cases h12 : isIntK 12 value
  · rw [if_pos h12, if_pos h12]
    rfl
  · rw [if_neg h12, if_neg h12, Option.map_map, Option.map_map]
    congr 1
    funext b
    simp only [Function.comp_apply]
    split_ifs <;> rfl

end SimpleLi

/-! ### The `SLLI`+`ADDI` decomposition -/

/-- The signed low 12 bits the loop takes for `ADDI`. -/
theorem toInt_addiValue (value : BitVec 64) :
    ((value &&& 0xfff) - ((value &&& 0x800) <<< 1)).toInt = value.toInt.bmod 4096 :=
  BitVec.toInt_signedLow value (k := 12) (by omega) (by omega)

/-- The value the loop goes on with is a multiple of `2 ^ 12`. -/
theorem toNat_remaining_mod (value : BitVec 64) :
    (value - ((value &&& 0xfff) - ((value &&& 0x800) <<< 1))).toNat % 2 ^ 12 = 0 :=
  BitVec.toNat_sub_signedLow_mod value (k := 12) (by omega) (by omega)

/-- What a recorded pair does to the value in `rd`: `SLLI` by the shift, then `ADDI` of the
immediate. -/
def applySlliAddi (p : BitVec 32 × Nat) (v : BitVec 64) : BitVec 64 := (v <<< p.2) + imm12Value p.1

/-- A pair the loop records: an `ADDI` immediate of 12 bits and a shift in `[12, 64)`. -/
structure ValidPair (p : BitVec 32 × Nat) : Prop where
  addi_lo : -2048 ≤ p.1.toInt
  addi_hi : p.1.toInt < 2048
  shamt_ge : 12 ≤ p.2
  shamt_lt : p.2 < 64

section Decompose

variable {value : BitVec 64}

/-- The value the loop goes on with is a nonzero multiple of `2 ^ 12`: were it zero, the value
would be its own 12-bit part and simple. -/
theorem ctz_remaining (hv : ¬ isSimpleLiValue value) :
    12 ≤ (value - ((value &&& 0xfff) - ((value &&& 0x800) <<< 1))).ctz.toNat ∧
      (value - ((value &&& 0xfff) - ((value &&& 0x800) <<< 1))).ctz.toNat < 64 := by
  have hadd := toInt_addiValue value
  have hlo : -2048 ≤ value.toInt.bmod 4096 := Int.le_bmod (by norm_num)
  have hhi : value.toInt.bmod 4096 < 2048 := Int.bmod_lt (by norm_num)
  refine ⟨BitVec.le_ctz_of_toNat_mod_two_pow (by omega) (toNat_remaining_mod value),
    BitVec.ctz_toNat_lt_of_ne_zero fun h0 => hv ?_⟩
  have hval : value = (value &&& 0xfff) - ((value &&& 0x800) <<< 1) := by bv_omega
  rw [isSimpleLiValue_iff, hval, hadd]
  omega

/-- One pass of the loop on a value out of the simple range records a valid pair, and the pair
applied to the value it leaves gives the value back. -/
theorem decompose_step (hv : ¬ isSimpleLiValue value) :
    let addiValue := (value &&& 0xfff) - ((value &&& 0x800) <<< 1)
    let remaining := value - addiValue
    ValidPair (addiValue.setWidth 32, remaining.ctz.toNat) ∧
      applySlliAddi (addiValue.setWidth 32, remaining.ctz.toNat)
        (remaining.sshiftRight remaining.ctz.toNat) = value := by
  intro addiValue remaining
  have hadd : addiValue.toInt = value.toInt.bmod 4096 := toInt_addiValue value
  have hlo : -2048 ≤ addiValue.toInt := hadd ▸ Int.le_bmod (by norm_num)
  have hhi : addiValue.toInt < 2048 := hadd ▸ Int.bmod_lt (by norm_num)
  refine ⟨⟨?_, ?_, (ctz_remaining hv).1, (ctz_remaining hv).2⟩, ?_⟩
  · rw [toInt_setWidth_32 (by omega) (by omega)]
    exact hlo
  · rw [toInt_setWidth_32 (by omega) (by omega)]
    exact hhi
  · rw [applySlliAddi, BitVec.shiftLeft_sshiftRight_of_le_ctz le_rfl, imm12Value_setWidth hlo hhi]
    exact BitVec.sub_add_cancel value addiValue

/-- A value out of the simple range within `2 ^ a` leaves one within `2 ^ (a - 12)`: the
remaining value is a multiple of `2 ^ 12` still within `2 ^ a`, and the shift divides it by at
least `2 ^ 12`. -/
theorem decompose_step_bound (hv : ¬ isSimpleLiValue value) {a : Nat}
    (hlo : -2 ^ a ≤ value.toInt) (hhi : value.toInt ≤ 2 ^ a) :
    let remaining := value - ((value &&& 0xfff) - ((value &&& 0x800) <<< 1));
    -2 ^ (a - 12) ≤ (remaining.sshiftRight remaining.ctz.toNat).toInt ∧
      (remaining.sshiftRight remaining.ctz.toNat).toInt ≤ 2 ^ (a - 12) := by
  intro remaining
  have hadd := toInt_addiValue value
  have haddlo : -2048 ≤ value.toInt.bmod 4096 := Int.le_bmod (by norm_num)
  have haddhi : value.toInt.bmod 4096 < 2048 := Int.bmod_lt (by norm_num)
  have hsimple : ¬ (-0x80000800 ≤ value.toInt ∧ value.toInt ≤ 0x7fffffff) := by
    rwa [← isSimpleLiValue_iff]
  have ha : 12 ≤ a := by
    by_contra h
    have : (2 : Int) ^ a ≤ 2 ^ 11 := pow_le_pow_right₀ (by norm_num) (by omega)
    omega
  obtain ⟨M, hM⟩ : ∃ M : Int, M = 2 ^ (a - 12) := ⟨_, rfl⟩
  have hpowa : (2 : Int) ^ a = 4096 * M := by
    rw [hM, ← show (2 : Int) ^ 12 = 4096 by norm_num, ← pow_add, Nat.add_sub_cancel' ha]
  obtain ⟨hctz, -⟩ := ctz_remaining hv
  obtain ⟨q, hq⟩ : (4096 : Int) ∣ remaining.toInt :=
    BitVec.two_pow_dvd_toInt_of_le_ctz (k := 12) (by omega) hctz
  -- the remaining value within `2 ^ a`: exactly when nothing wraps, by the word's range otherwise
  have hrem : -M ≤ q ∧ q ≤ M := by
    by_cases ha62 : a ≤ 62
    · have h62 : (2 : Int) ^ a ≤ 2 ^ 62 := pow_le_pow_right₀ (by norm_num) ha62
      have hsub : remaining.toInt = value.toInt - value.toInt.bmod 4096 := by
        rw [BitVec.toInt_sub, hadd]
        exact SignedDivision.bmod_two_pow_eq_self (by omega) (by omega) (by omega)
      omega
    · have h63 : (2 : Int) ^ 63 ≤ 2 ^ a := pow_le_pow_right₀ (by norm_num) (by omega)
      have hlo63 := BitVec.le_toInt remaining
      have hhi63 := BitVec.toInt_lt (x := remaining)
      norm_num at h63 hlo63 hhi63
      omega
  have hshift := SignedDivision.toInt_sshiftRight_eq_ediv remaining remaining.ctz.toNat
  obtain ⟨P, hP⟩ : ∃ P : Int, P = 2 ^ (remaining.ctz.toNat - 12) := ⟨_, rfl⟩
  have hpowc : (2 : Int) ^ remaining.ctz.toNat = 4096 * P := by
    rw [hP, ← show (2 : Int) ^ 12 = 4096 by norm_num, ← pow_add, Nat.add_sub_cancel' hctz]
  have hP1 : 1 ≤ P := hP ▸ one_le_pow₀ (by norm_num)
  have hM0 : 0 ≤ M := by rw [hM]; positivity
  have hMP : M ≤ M * P := le_mul_of_one_le_right hM0 hP1
  have hMP' : M + 1 ≤ (M + 1) * P := le_mul_of_one_le_right (by omega) hP1
  rw [hshift, hq, hpowc, ← hM]
  constructor
  · apply Int.le_ediv_of_mul_le (by omega)
    calc -M * (4096 * P) = -(4096 * (M * P)) := by ring
      _ ≤ 4096 * q := by omega
  · apply Int.le_of_lt_add_one
    apply Int.ediv_lt_of_lt_mul (by omega)
    calc 4096 * q < 4096 * ((M + 1) * P) := by omega
      _ = (M + 1) * (4096 * P) := by ring

/-- The loop leaves the value whole when it is put back together. -/
theorem foldr_decomposeSlliAddi (fuel : Nat) (value : BitVec 64) :
    (decomposeSlliAddi fuel value).1.foldr applySlliAddi (decomposeSlliAddi fuel value).2 = value := by
  fun_induction decomposeSlliAddi fuel value with
  | case1 => rfl
  | case2 => rfl
  | case3 value fuel hv addiValue remaining shamt rest ih =>
    rw [List.foldr_cons, ih]
    exact (decompose_step hv).2

theorem validPair_of_mem_decomposeSlliAddi (fuel : Nat) (value : BitVec 64) :
    ∀ p ∈ (decomposeSlliAddi fuel value).1, ValidPair p := by
  fun_induction decomposeSlliAddi fuel value with
  | case1 => simp
  | case2 => simp
  | case3 value fuel hv addiValue remaining shamt rest ih =>
    intro p hp
    rcases List.mem_cons.1 hp with rfl | hp
    · exact (decompose_step hv).1
    · exact ih p hp

theorem length_decomposeSlliAddi_le (fuel : Nat) (value : BitVec 64) :
    (decomposeSlliAddi fuel value).1.length ≤ fuel := by
  fun_induction decomposeSlliAddi fuel value with
  | case1 => rfl
  | case2 => simp
  | case3 value fuel hv addiValue remaining shamt rest ih =>
    simpa using ih

/-- Each pass takes 12 bits off the magnitude, so `fuel` passes bring a value within
`2 ^ (12 * fuel + 30)` into the simple range. -/
theorem isSimpleLiValue_decomposeSlliAddi {fuel a : Nat} (hlo : -2 ^ a ≤ value.toInt)
    (hhi : value.toInt ≤ 2 ^ a) (ha : a < 12 * fuel + 31) :
    isSimpleLiValue (decomposeSlliAddi fuel value).2 := by
  induction fuel generalizing value a with
  | zero =>
    have : (2 : Int) ^ a ≤ 2 ^ 30 := pow_le_pow_right₀ (by norm_num) (by omega)
    show isSimpleLiValue value
    rw [isSimpleLiValue_iff]
    omega
  | succ fuel ih =>
    rw [decomposeSlliAddi]
    split_ifs with hv
    · exact hv
    · have h := decompose_step_bound hv hlo hhi
      exact ih h.1 h.2 (by omega)

/-- The three slots are enough for every `int64_t`. -/
theorem isSimpleLiValue_decompose (value : BitVec 64) :
    isSimpleLiValue (decomposeSlliAddi kMaxNumSllAddi value).2 := by
  have hlo := BitVec.le_toInt value
  have hhi := BitVec.toInt_lt (x := value)
  norm_num at hlo hhi
  exact isSimpleLiValue_decomposeSlliAddi (a := 63) (by norm_num; omega) (by norm_num; omega)
    (by decide)

theorem decomposeSlliAddi_of_simple (hv : isSimpleLiValue value) (fuel : Nat) :
    decomposeSlliAddi fuel value = ([], value) := by
  cases fuel with
  | zero => rfl
  | succ fuel => rw [decomposeSlliAddi, if_pos hv]

/-- Fuel beyond the point where the value is simple changes nothing: the loop has stopped. -/
theorem decomposeSlliAddi_add (fuel k : Nat) {value : BitVec 64}
    (h : isSimpleLiValue (decomposeSlliAddi fuel value).2) :
    decomposeSlliAddi (fuel + k) value = decomposeSlliAddi fuel value := by
  induction fuel generalizing value with
  | zero => exact (Nat.zero_add k).symm ▸ decomposeSlliAddi_of_simple h k
  | succ fuel ih =>
    rw [Nat.add_right_comm, decomposeSlliAddi, decomposeSlliAddi]
    split_ifs with hv
    · rfl
    · rw [decomposeSlliAddi, if_neg hv] at h
      dsimp only at h ⊢
      rw [ih h]

/-- The loop of the source runs at most `kMaxNumSllAddi` times: with more fuel, the model gives
the same pairs and value. -/
theorem decomposeSlliAddi_of_le {fuel : Nat} (hfuel : kMaxNumSllAddi ≤ fuel) (value : BitVec 64) :
    decomposeSlliAddi fuel value = decomposeSlliAddi kMaxNumSllAddi value := by
  obtain ⟨k, rfl⟩ := Nat.exists_eq_add_of_le hfuel
  exact decomposeSlliAddi_add _ k (isSimpleLiValue_decompose value)

end Decompose

/-! ### `emit_with_slli_addi_helper` -/

section SlliAddi

variable {rd : XRegister} {v : BitVec 64} {code : List Insn}

/-- A recorded pair: `SLLI`, then `ADDI` unless the immediate is zero. -/
theorem Loads.appendSlliAddi (h : Loads rd v code) {p : BitVec 32 × Nat} (hlo : -2048 ≤ p.1.toInt)
    (hhi : p.1.toInt < 2048) (hs : p.2 < 64) :
    Loads rd (applySlliAddi p v) (code ++ slliAddi rd p) := by
  have hslli := h.slli _ hs
  rw [slliAddi, ← List.singleton_append, ← List.append_assoc]
  split_ifs with h0
  · refine hslli.concat (by simp [Insn.fits, hlo, hhi]) rfl fun x hx => ?_
    rw [Insn.value, hx, applySlliAddi]
  · rw [not_not] at h0
    rwa [List.append_nil, applySlliAddi, h0, imm12Value_zero, BitVec.add_zero]

/-- The pairs emitted last to first apply them first to last. -/
theorem Loads.appendPairs (h : Loads rd v code) {pairs : List (BitVec 32 × Nat)}
    (hpairs : ∀ p ∈ pairs, ValidPair p) :
    Loads rd (pairs.foldr applySlliAddi v) (code ++ pairs.reverse.flatMap (slliAddi rd)) := by
  induction pairs with
  | nil => simpa using h
  | cons p pairs ih =>
    have hp := hpairs p List.mem_cons_self
    rw [List.reverse_cons, List.flatMap_append, List.flatMap_singleton, ← List.append_assoc,
      List.foldr_cons]
    exact (ih fun q hq => hpairs q (List.mem_cons_of_mem _ hq)).appendSlliAddi hp.addi_lo hp.addi_hi
      hp.shamt_lt

theorem dest_of_mem_slliAddi {p : BitVec 32 × Nat} {i : Insn} (hi : i ∈ slliAddi rd p) :
    i.dest = rd := by
  rw [slliAddi] at hi
  split_ifs at hi <;> simp at hi <;> rcases hi with rfl | rfl <;> rfl

theorem dest_of_mem_flatMap_slliAddi {pairs : List (BitVec 32 × Nat)} {i : Insn}
    (hi : i ∈ pairs.flatMap (slliAddi rd)) : i.dest = rd := by
  obtain ⟨p, -, hi⟩ := List.mem_flatMap.1 hi
  exact dest_of_mem_slliAddi hi

theorem length_flatMap_slliAddi_le (rd : XRegister) (pairs : List (BitVec 32 × Nat)) :
    (pairs.flatMap (slliAddi rd)).length ≤ 2 * pairs.length := by
  induction pairs with
  | nil => simp
  | cons p pairs ih =>
    rw [List.flatMap_cons, List.length_append, List.length_cons, slliAddi]
    split_ifs <;> simp only [List.length_cons, List.length_nil] <;> omega

/-- `LUI` of a 20-bit value's low 20 bits loads it shifted by 12. -/
theorem loads_lui_of_fits (rd : XRegister) (hlo : -2 ^ 19 ≤ v.toInt) (hhi : v.toInt < 2 ^ 19) :
    Loads rd (v <<< 12) [.lui rd ((v &&& 0xfffff).setWidth 32)] := by
  refine loads_singleton ?_ rfl fun x => lui_value_of_fits hlo hhi
  have hand : (v &&& 0xfffff).toNat ≤ 0xfffff := by
    rw [BitVec.toNat_and]
    exact Nat.and_le_right.trans (by decide)
  simp only [Insn.fits, BitVec.toNat_setWidth, decide_eq_true_eq]
  omega

theorem length_slliAddi (rd rd' : XRegister) (p : BitVec 32 × Nat) :
    (slliAddi rd p).length = (slliAddi rd' p).length := by
  unfold slliAddi
  split_ifs <;> rfl

theorem length_flatMap_slliAddi (rd rd' : XRegister) (pairs : List (BitVec 32 × Nat)) :
    (pairs.flatMap (slliAddi rd)).length = (pairs.flatMap (slliAddi rd')).length := by
  simp only [List.length_flatMap, length_slliAddi rd rd']

/-- `emit_with_slli_addi_helper`: the decomposition's final value by `emit_simple_li_helper`, or by
`LUI` when it has 20 bits but not 12, then the pairs; at most eight instructions, all on `rd`. -/
theorem emitWithSlliAddiHelper_spec (rd : XRegister) (value : BitVec 64) :
    ∃ code, emitWithSlliAddiHelper rd value = some code ∧ Loads rd value code ∧
      (∀ i ∈ code, i.dest = rd) ∧ 1 ≤ code.length ∧ code.length ≤ 8 := by
  obtain ⟨ps, d2, hd⟩ : ∃ ps d2, decomposeSlliAddi kMaxNumSllAddi value = (ps, d2) := ⟨_, _, rfl⟩
  have hsimple := isSimpleLiValue_decompose value
  have hfold := foldr_decomposeSlliAddi kMaxNumSllAddi value
  have hvalid := validPair_of_mem_decomposeSlliAddi kMaxNumSllAddi value
  have hlen := length_decomposeSlliAddi_le kMaxNumSllAddi value
  rw [hd] at hsimple hfold hvalid hlen
  dsimp only at hsimple hfold hvalid hlen
  unfold emitWithSlliAddiHelper
  rw [hd]
  dsimp only
  split_ifs with hlui
  · -- the last shift shortened by the 12 bits `LUI` shifts by
    obtain ⟨hne, h20, -⟩ := hlui
    obtain ⟨qs, ⟨a, s⟩, rfl⟩ := (List.eq_nil_or_concat' ps).resolve_left hne
    have hlast := hvalid (a, s) (by simp)
    have hqs : ∀ p ∈ qs, ValidPair p := fun p hp => hvalid p (by simp [hp])
    have h20' := (isIntK_iff (by omega) (by omega)).1 h20
    norm_num at h20'
    have hcode := ((loads_lui_of_fits rd (v := d2) (by norm_num; omega)
      (by norm_num; omega)).appendSlliAddi (p := (a, s - 12)) hlast.addi_lo hlast.addi_hi
      (by have := hlast.shamt_lt; omega)).appendPairs hqs
    have happ : applySlliAddi (a, s - 12) (d2 <<< 12) = applySlliAddi (a, s) d2 := by
      simp only [applySlliAddi]
      rw [← BitVec.shiftLeft_add, Nat.add_sub_cancel' hlast.shamt_ge]
    have hfold' : qs.foldr applySlliAddi (applySlliAddi (a, s) d2) = value := by
      rw [← hfold, List.foldr_append]
      rfl
    rw [happ, hfold'] at hcode
    refine ⟨_, ?_, hcode, ?_, by simp, ?_⟩
    · rw [List.modifyLast_concat]
      show some ([_] ++ (qs ++ [(a, s - 12)]).reverse.flatMap (slliAddi rd)) = _
      rw [List.reverse_append, List.reverse_singleton, List.flatMap_append, List.flatMap_singleton,
        List.append_assoc]
    · intro i hi
      rcases List.mem_append.1 hi with hi | hi
      · rcases List.mem_append.1 hi with hi | hi
        · rw [List.mem_singleton.1 hi]
          rfl
        · exact dest_of_mem_slliAddi hi
      · exact dest_of_mem_flatMap_slliAddi hi
    · have := length_flatMap_slliAddi_le rd (qs.reverse ++ [(a, s - 12)])
      simp only [List.flatMap_append, List.flatMap_singleton, List.length_append, List.length_reverse,
        List.length_singleton] at this hlen ⊢
      rw [kMaxNumSllAddi] at hlen
      omega
  · obtain ⟨code, hcode, hloads, hdest, h1, h2⟩ := emitSimpleLiHelper_spec rd hsimple
    rw [hcode]
    refine ⟨code ++ ps.reverse.flatMap (slliAddi rd), rfl, hfold ▸ hloads.appendPairs hvalid, ?_, ?_, ?_⟩
    · intro i hi
      rcases List.mem_append.1 hi with hi | hi
      · exact hdest i hi
      · exact dest_of_mem_flatMap_slliAddi hi
    · simp only [List.length_append]
      omega
    · have := length_flatMap_slliAddi_le rd ps.reverse
      simp only [List.length_append, List.length_reverse] at this ⊢
      rw [kMaxNumSllAddi] at hlen
      omega

theorem map_length_emitWithSlliAddiHelper (rd rd' : XRegister) (value : BitVec 64) :
    (emitWithSlliAddiHelper rd value).map List.length =
      (emitWithSlliAddiHelper rd' value).map List.length := by
  have hpairs := length_flatMap_slliAddi rd rd'
  unfold emitWithSlliAddiHelper
  dsimp only
  split_ifs
  · simp only [Option.map_some, List.length_append, List.length_singleton, hpairs]
  · have h := map_length_emitSimpleLiHelper rd rd' (decomposeSlliAddi kMaxNumSllAddi value).2
    cases h1 : emitSimpleLiHelper rd (decomposeSlliAddi kMaxNumSllAddi value).2 <;>
      cases h2 : emitSimpleLiHelper rd' (decomposeSlliAddi kMaxNumSllAddi value).2 <;>
      simp_all

end SlliAddi

/-! ### Counting -/

section Count

variable {value : BitVec 64}

/-- A simple value is left to `emit_simple_li_helper` alone. -/
theorem emitWithSlliAddiHelper_of_simple (rd : XRegister) (hv : isSimpleLiValue value) :
    emitWithSlliAddiHelper rd value = emitSimpleLiHelper rd value := by
  unfold emitWithSlliAddiHelper
  rw [decomposeSlliAddi_of_simple hv]
  dsimp only
  rw [if_neg (by simp), Option.map_map]
  simp [Function.comp_def]

/-- The counting run of the helper counts what the emitting run emits, whatever the register. -/
theorem countInstructionsWithSlliAddi_of_emit {rd : XRegister} {code : List Insn}
    (h : emitWithSlliAddiHelper rd value = some code) :
    countInstructionsWithSlliAddi value = some code.length := by
  rw [countInstructionsWithSlliAddi, map_length_emitWithSlliAddiHelper Zero rd, h, Option.map_some]

theorem countSimpleLiInstructions_of_emit {rd : XRegister} {code : List Insn}
    (h : emitSimpleLiHelper rd value = some code) :
    countSimpleLiInstructions value = some code.length := by
  rw [countSimpleLiInstructions, map_length_emitSimpleLiHelper Zero rd, h, Option.map_some]

/-- More than two instructions are counted only for a value out of the simple range. -/
theorem not_isSimpleLiValue_of_count {n : Nat} (hn : countInstructionsWithSlliAddi value = some n)
    (h2 : 2 < n) : ¬ isSimpleLiValue value := by
  intro hv
  obtain ⟨code, hcode, -, -, -, hlen⟩ := emitSimpleLiHelper_spec Zero hv
  rw [countInstructionsWithSlliAddi, emitWithSlliAddiHelper_of_simple Zero hv, hcode,
    Option.map_some, Option.some_inj] at hn
  omega

end Count

/-! ### The trailing `SLLI` -/

section TrailingSlli

theorem emitWithTrailingSlli_zero (rd : XRegister) (imm : BitVec 64) :
    emitWithTrailingSlli rd imm 0 = emitWithSlliAddiHelper rd imm := by
  simp [emitWithTrailingSlli]

/-- The trailing shift chosen, and the sequence the last lines then emit: it loads `imm`, with as
many instructions as counted. -/
theorem chooseTrailingSlli_spec (rd : XRegister) {imm : BitVec 64} {n : Nat}
    (hn : countInstructionsWithSlliAddi imm = some n) :
    ∃ n' t, chooseTrailingSlli imm n = some (n', t) ∧ n' ≤ n ∧
      ∃ code, emitWithTrailingSlli rd imm t = some code ∧ Loads rd imm code ∧ code.length = n' := by
  have hzero : ∃ code, emitWithTrailingSlli rd imm 0 = some code ∧ Loads rd imm code ∧
      code.length = n := by
    obtain ⟨code, hcode, hloads, -⟩ := emitWithSlliAddiHelper_spec rd imm
    rw [countInstructionsWithSlliAddi_of_emit hcode, Option.some_inj] at hn
    exact ⟨code, by rw [emitWithTrailingSlli_zero, hcode], hloads, hn⟩
  unfold chooseTrailingSlli
  split_ifs with hc
  · -- an even `imm` with low bits set: its odd part, then a trailing `SLLI`
    obtain ⟨hodd, hlow⟩ := hc
    have hne : imm ≠ 0 := by
      rintro rfl
      exact hlow BitVec.zero_and
    have hctz1 : 1 ≤ imm.ctz.toNat := by
      apply BitVec.le_ctz_of_toNat_mod_two_pow (by omega)
      have h := congrArg BitVec.toNat hodd
      simpa [BitVec.toNat_and, Nat.and_one_is_mod] using h
    have hctz64 := BitVec.ctz_toNat_lt_of_ne_zero hne
    obtain ⟨code, hcode, hloads, -⟩ := emitWithSlliAddiHelper_spec rd (imm.sshiftRight imm.ctz.toNat)
    rw [countInstructionsWithSlliAddi_of_emit hcode]
    by_cases hlt : n > code.length + 1
    · refine ⟨code.length + 1, imm.ctz.toNat, by simp [hlt], by omega,
        code ++ [.slli rd rd imm.ctz.toNat], ?_, ?_, by simp⟩
      · rw [emitWithTrailingSlli, if_pos (by omega), hcode]
        show some (if _ then _ else _) = _
        rw [if_pos (by omega)]
      · have h := hloads.slli _ hctz64
        rwa [BitVec.shiftLeft_sshiftRight_of_le_ctz le_rfl] at h
    · obtain ⟨c, hc, hl, hlen⟩ := hzero
      exact ⟨n, 0, by simp [hlt], le_rfl, c, hc, hl, hlen⟩
  · obtain ⟨c, hc, hl, hlen⟩ := hzero
    exact ⟨n, 0, rfl, le_rfl, c, hc, hl, hlen⟩

end TrailingSlli

/-! ### The `SRLI` sequences -/

section Srli

theorem maxIntU64_eq {k : Nat} (hk : k ≤ 64) : maxIntU64 k = BitVec.ofNat 64 (2 ^ k - 1) := by
  unfold maxIntU64
  split_ifs with h
  · subst h
    decide
  · apply BitVec.eq_of_toNat_eq
    have hlt : 2 ^ k - 1 < 2 ^ 64 := by
      have := Nat.pow_lt_pow_right (a := 2) (by decide) (show k < 64 by omega)
      omega
    rw [BitVec.toNat_ofNat, Nat.mod_eq_of_lt hlt]
    exact BitVec.toNat_one_shiftLeft_sub_one (by omega)

theorem maxIntU32_signExtend {k : Nat} (hk : k ≤ 31) :
    (maxIntU32 k).signExtend 64 = BitVec.ofNat 64 (2 ^ k - 1) := by
  have hpow : 2 ^ k ≤ 2 ^ 31 := Nat.pow_le_pow_right (by decide) hk
  have h : maxIntU32 k = (1#32 <<< k) - 1#32 := if_neg (by omega)
  have hnat := BitVec.toNat_one_shiftLeft_sub_one (w := 32) (k := k) (by omega)
  rw [h, BitVec.signExtend_eq_setWidth_of_msb_false (BitVec.msb_eq_false_iff_two_mul_lt.2 (by omega))]
  apply BitVec.eq_of_toNat_eq
  rw [BitVec.toNat_setWidth, hnat, BitVec.toNat_ofNat]

theorem allOnes_ushiftRight {s : Nat} (hs : s ≤ 64) : (-1 : BitVec 64) >>> s = maxIntU64 (64 - s) := by
  rw [maxIntU64_eq (by omega)]
  ext i hi
  rw [BitVec.getElem_ushiftRight, ← BitVec.getLsbD_eq_getElem, getLsbD_ofNat_two_pow_sub_one (by omega), show (-1 : BitVec 64) = BitVec.allOnes 64 by decide,
    BitVec.getLsbD_allOnes]
  simp only [decide_eq_decide]
  omega

variable {imm : BitVec 64}

/-- A positive `imm` has between 1 and 63 leading zeros, which bound it on both sides. -/
theorem clz_bounds_of_pos (hpos : 0 < imm.toInt) :
    1 ≤ imm.clz.toNat ∧ imm.clz.toNat ≤ 63 ∧ 2 ^ (63 - imm.clz.toNat) ≤ imm.toNat ∧
      imm.toNat < 2 ^ (64 - imm.clz.toNat) := by
  have hne : imm ≠ 0#64 := by
    rintro rfl
    simp at hpos
  have hlo := BitVec.two_pow_sub_clz_le_toNat_of_ne_zero (by omega) hne
  have hhi := BitVec.toNat_lt_two_pow_sub_clz (x := imm)
  have hmsb : imm.toNat < 2 ^ 63 := by
    rw [BitVec.toInt_eq_toNat_cond] at hpos
    split at hpos <;> omega
  refine ⟨?_, ?_, hlo, hhi⟩
  · by_contra h
    have h0 := (BitVec.clz_eq_zero_iff (x := imm) (by omega)).1 (by omega)
    omega
  · by_contra h
    rw [show 64 - imm.clz.toNat = 0 by omega, pow_zero] at hhi
    exact hne (BitVec.eq_of_toNat_eq (by simp; omega))

theorem toInt_eq_toNat_of_pos (hpos : 0 < imm.toInt) : imm.toInt = imm.toNat := by
  have hlt : 2 * imm.toNat < 2 ^ 64 := by
    by_contra h
    rw [BitVec.toInt_eq_toNat_cond, if_neg h] at hpos
    have := imm.isLt
    omega
  exact BitVec.toInt_eq_toNat_of_lt hlt

theorem toNat_shiftLeft_clz (hpos : 0 < imm.toInt) :
    (imm <<< imm.clz.toNat).toNat = imm.toNat * 2 ^ imm.clz.toNat := by
  obtain ⟨-, h63, -, hhi⟩ := clz_bounds_of_pos hpos
  have hlt : imm.toNat * 2 ^ imm.clz.toNat < 2 ^ 64 :=
    calc imm.toNat * 2 ^ imm.clz.toNat < 2 ^ (64 - imm.clz.toNat) * 2 ^ imm.clz.toNat :=
          Nat.mul_lt_mul_of_pos_right hhi (by positivity)
      _ = 2 ^ 64 := by rw [← pow_add, Nat.sub_add_cancel (by omega)]
  rw [BitVec.toNat_shiftLeft, Nat.shiftLeft_eq, Nat.mod_eq_of_lt hlt]

/-- `imm` shifted left by its leading zeros has its top bit set. -/
theorem toInt_shiftLeft_clz_neg (hpos : 0 < imm.toInt) : (imm <<< imm.clz.toNat).toInt < 0 := by
  obtain ⟨-, h63, hlo, -⟩ := clz_bounds_of_pos hpos
  have hge : 2 ^ 63 ≤ (imm <<< imm.clz.toNat).toNat := by
    rw [toNat_shiftLeft_clz hpos]
    calc 2 ^ 63 = 2 ^ (63 - imm.clz.toNat) * 2 ^ imm.clz.toNat := by
          rw [← pow_add, Nat.sub_add_cancel (by omega)]
      _ ≤ imm.toNat * 2 ^ imm.clz.toNat := Nat.mul_le_mul_right _ hlo
  have hlt := (imm <<< imm.clz.toNat).isLt
  rw [BitVec.toInt_eq_toNat_cond, if_neg (by omega)]
  omega

theorem shiftLeft_clz_ushiftRight (hpos : 0 < imm.toInt) :
    (imm <<< imm.clz.toNat) >>> imm.clz.toNat = imm := by
  apply BitVec.eq_of_toNat_eq
  rw [BitVec.toNat_ushiftRight, toNat_shiftLeft_clz hpos, Nat.shiftRight_eq_div_pow,
    Nat.mul_div_cancel _ (by positivity)]

theorem clz_le_ctz_shiftLeft_clz (hpos : 0 < imm.toInt) :
    imm.clz.toNat ≤ (imm <<< imm.clz.toNat).ctz.toNat :=
  BitVec.le_ctz_of_toNat_mod_two_pow (by have := (clz_bounds_of_pos hpos).2.1; omega)
    (by rw [toNat_shiftLeft_clz hpos, Nat.mul_mod_left])

/-- Ones below the trailing zeros are shifted out. -/
theorem add_low_ones_ushiftRight {v : BitVec 64} {s : Nat} (hs : s ≤ v.ctz.toNat) (hs64 : s < 64) :
    (v + BitVec.ofNat 64 (2 ^ s - 1)) >>> s = v >>> s := by
  have hdisj : v &&& BitVec.ofNat 64 (2 ^ s - 1) = 0#64 := by
    ext j hj
    rw [BitVec.getElem_and, ← BitVec.getLsbD_eq_getElem, ← BitVec.getLsbD_eq_getElem,
      getLsbD_ofNat_two_pow_sub_one (by omega)]
    by_cases hjs : j < s
    · rw [BitVec.getLsbD_false_of_lt_ctz (by omega)]
      simp
    · simp [hjs]
  rw [BitVec.add_eq_or_of_and_eq_zero _ _ hdisj]
  ext i hi
  rw [BitVec.getElem_ushiftRight, BitVec.getElem_ushiftRight, BitVec.getLsbD_or,
    getLsbD_ofNat_two_pow_sub_one (by omega)]
  simp

/-- `srliViaSimpleLi` on the left-justified `value`: when it emits, the sequence loads `value`
shifted back, in at most three instructions; it emits nothing only for a value out of the simple
range or a count of at most three. -/
theorem srliViaSimpleLi_spec (rd : XRegister) {value imm : BitVec 64} {shamt n : Nat}
    (hv : value >>> shamt = imm) (hctz : shamt ≤ value.ctz.toNat) (hneg : value.toInt < 0) :
    ∃ r, srliViaSimpleLi rd value shamt n = some r ∧
      (∀ code, r = some code → Loads rd imm code ∧ code.length ≤ 3) ∧
      (r = none → ¬ isSimpleLiValue value ∨ n ≤ 3) := by
  unfold srliViaSimpleLi
  by_cases hs : isSimpleLiValue value
  · rw [if_pos hs]
    have hs' := isSimpleLiValue_iff.1 hs
    obtain ⟨c0, hc0, -, -, -, hlen0⟩ := emitSimpleLiHelper_spec rd hs
    rw [countSimpleLiInstructions_of_emit hc0]
    have hne : value ≠ 0#64 := by
      rintro rfl
      simp at hneg
    have h64 := BitVec.ctz_toNat_lt_of_ne_zero hne
    -- a negative multiple of `2 ^ shamt` in the simple range: `shamt` is at most 31
    obtain ⟨q, hq⟩ := BitVec.two_pow_dvd_toInt_of_le_ctz (k := shamt) (by omega) hctz
    have hpos : (0 : Int) < 2 ^ shamt := by positivity
    have hq0 : q ≤ -1 := by
      by_contra h
      have : 0 ≤ (2 : Int) ^ shamt * q := mul_nonneg hpos.le (by omega)
      omega
    have hle : value.toInt ≤ -2 ^ shamt := by
      have h := mul_le_mul_of_nonneg_left hq0 hpos.le
      rw [hq]
      linarith
    have h31 : shamt ≤ 31 := by
      by_contra h
      have h32 : (2 : Int) ^ 32 ≤ 2 ^ shamt := pow_le_pow_right₀ (by norm_num) (by omega)
      norm_num at h32
      omega
    by_cases hlt : c0.length + 1 < n
    · -- the value emitted: `value`, or `value` with the shifted-out bits set
      obtain ⟨v', hv'⟩ : ∃ v', v' = if value &&& 0xfff = 0 then value
          else value + (maxIntU32 shamt).signExtend 64 := ⟨_, rfl⟩
      have hv's : isSimpleLiValue v' ∧ v' >>> shamt = imm := by
        rw [maxIntU32_signExtend h31] at hv'
        split_ifs at hv'
        · exact ⟨hv' ▸ hs, hv' ▸ hv⟩
        · refine ⟨?_, by rw [hv', add_low_ones_ushiftRight hctz (by omega), hv]⟩
          have hlow : (BitVec.ofNat 64 (2 ^ shamt - 1)).toInt = 2 ^ shamt - 1 := by
            have : 2 ^ shamt ≤ 2 ^ 31 := Nat.pow_le_pow_right (by decide) h31
            rw [BitVec.toInt_eq_toNat_of_lt (by rw [BitVec.toNat_ofNat]; omega), BitVec.toNat_ofNat,
              Nat.mod_eq_of_lt (by omega)]
            push_cast [Nat.one_le_two_pow]
            rfl
          rw [isSimpleLiValue_iff, hv', BitVec.toInt_add, hlow,
            SignedDivision.bmod_two_pow_eq_self (by omega) (by omega) (by omega)]
          omega
      obtain ⟨c, hc, hloads, -, -, hlen⟩ := emitSimpleLiHelper_spec rd hv's.1
      refine ⟨some (c ++ [.srli rd rd shamt]), ?_, ?_, by simp⟩
      · show (if c0.length + 1 < n then _ else _) = _
        rw [if_pos hlt, ← hv', hc]
        rfl
      · rintro code ⟨⟩
        refine ⟨hv's.2 ▸ hloads.srli shamt (by omega), ?_⟩
        simp only [List.length_append, List.length_singleton]
        omega
    · refine ⟨none, ?_, by simp, fun _ => Or.inr (by omega)⟩
      show (if c0.length + 1 < n then _ else _) = _
      rw [if_neg hlt]
      rfl
  · rw [if_neg hs]
    exact ⟨none, rfl, by simp, fun _ => Or.inl hs⟩

/-- Up to 20 bits above the trailing zeros, the logical and the arithmetic shift agree. -/
theorem ushiftRight_and_fffff (v : BitVec 64) {c : Nat} (hc : c + 20 ≤ 64) :
    (v >>> c) &&& 0xfffff = v.sshiftRight c &&& 0xfffff := by
  have hmask : ∀ j, (0xfffff : BitVec 64).getLsbD j = decide (j < 20) :=
    getLsbD_ofNat_two_pow_sub_one (k := 20) (by omega)
  ext i hi
  rw [BitVec.getElem_and, BitVec.getElem_and, ← BitVec.getLsbD_eq_getElem (x := 0xfffff), hmask,
    BitVec.getElem_ushiftRight, BitVec.getElem_sshiftRight]
  by_cases hi20 : i < 20
  · rw [dif_pos (by omega), BitVec.getLsbD_eq_getElem]
  · simp [hi20]

/-- `srliViaCtz` on a left-justified `value` out of the simple range whenever more than three
instructions are counted: when it emits, the sequence loads `value` shifted back, in three
instructions. -/
theorem srliViaCtz_spec (rd : XRegister) {value imm : BitVec 64} {shamt n : Nat}
    (hv : value >>> shamt = imm) (hshamt : shamt < 64) (hneg : value.toInt < 0)
    (hctz : value.ctz.toNat ≤ 44) (hsimple : 3 < n → ¬ isSimpleLiValue value) :
    ∃ r, srliViaCtz rd value shamt n = some r ∧
      ∀ code, r = some code → Loads rd imm code ∧ code.length ≤ 3 := by
  have hne : value ≠ 0#64 := by
    rintro rfl
    simp at hneg
  have hc64 := BitVec.ctz_toNat_lt_of_ne_zero hne
  unfold srliViaCtz
  dsimp only
  rw [isInt_eq_some (by omega) (by omega)]
  by_cases h20 : -2 ^ (value.ctz.toNat + 20 - 1) ≤ value.toInt ∧
      value.toInt < 2 ^ (value.ctz.toNat + 20 - 1)
  · rw [decide_eq_true h20]
    by_cases hn : 3 < n
    · have hns := hsimple hn
      rw [isSimpleLiValue_iff] at hns
      set c := value.ctz.toNat with hc
      have hpow20 : (2 : Int) ^ (c + 20 - 1) = 2 ^ 19 * 2 ^ c := by
        rw [show c + 20 - 1 = 19 + c by omega, pow_add]
      have hpowc : (0 : Int) < 2 ^ c := by positivity
      -- out of the simple range yet within `2 ^ (c + 19)`: at least 13 trailing zeros
      have hc13 : 13 ≤ c := by
        by_contra h
        have : (2 : Int) ^ (c + 20 - 1) ≤ 2 ^ 31 := pow_le_pow_right₀ (by norm_num) (by omega)
        omega
      -- the value above the trailing zeros, a negative 20-bit value
      have hu := SignedDivision.toInt_sshiftRight_eq_ediv value c
      have hulo : -2 ^ 19 ≤ (value.sshiftRight c).toInt := by
        rw [hu]
        exact Int.le_ediv_of_mul_le hpowc (by rw [neg_mul, ← hpow20]; exact h20.1)
      have huhi : (value.sshiftRight c).toInt < 0 := by
        rw [hu]
        exact Int.ediv_lt_of_lt_mul hpowc (by omega)
      have hback : (value.sshiftRight c) <<< c = value :=
        BitVec.shiftLeft_sshiftRight_of_le_ctz le_rfl
      rw [isInt_eq_some (by omega) (by omega)]
      by_cases h12 : -2 ^ (c + 12 - 1) ≤ value.toInt ∧ value.toInt < 2 ^ (c + 12 - 1)
      · -- `ADDI` of the 12-bit value, `SLLI` back, `SRLI` to `imm`
        have hpow12 : (2 : Int) ^ (c + 12 - 1) = 2048 * 2 ^ c := by
          rw [show c + 12 - 1 = 11 + c by omega, pow_add]
          norm_num
        have hulo12 : -2048 ≤ (value.sshiftRight c).toInt := by
          rw [hu]
          exact Int.le_ediv_of_mul_le hpowc (by rw [neg_mul, ← hpow12]; exact h12.1)
        have h := ((loads_addi_zero rd hulo12 (by omega)).slli c hc64).srli shamt hshamt
        rw [hback, hv] at h
        refine ⟨some ([.addi rd Zero ((value.sshiftRight c).setWidth 32), .slli rd rd c] ++
          [.srli rd rd shamt]), ?_, fun code hcode => ?_⟩
        · show (if 3 < n then _ else _) = _
          rw [if_pos hn, decide_eq_true h12]
          rfl
        · cases hcode
          exact ⟨h, by simp⟩
      · -- `LUI` of the 20-bit value, `SLLI` by 12 less, `SRLI` to `imm`
        have h := ((loads_lui_of_fits rd (v := value.sshiftRight c) (by omega)
          (by omega)).slli (c - 12) (by omega)).srli shamt hshamt
        rw [← BitVec.shiftLeft_add, Nat.add_sub_cancel' (by omega), hback, hv,
          ← ushiftRight_and_fffff value (by omega)] at h
        refine ⟨some ([.lui rd (((value >>> c) &&& 0xfffff).setWidth 32), .slli rd rd (c - 12)] ++
          [.srli rd rd shamt]), ?_, fun code hcode => ?_⟩
        · show (if 3 < n then _ else _) = _
          rw [if_pos hn, decide_eq_false h12]
          rfl
        · cases hcode
          exact ⟨h, by simp⟩
    · refine ⟨none, ?_, by simp⟩
      show (if 3 < n then _ else _) = _
      rw [if_neg hn]
      rfl
  · refine ⟨none, ?_, by simp⟩
    rw [decide_eq_false h20]
    rfl

/-- `emit_with_srli` for a positive `imm` whose left-justified value has at most 44 trailing zeros:
when it emits, the sequence loads `imm`, in at most three instructions. -/
theorem emitWithSrli_spec (rd : XRegister) {imm : BitVec 64} (hpos : 0 < imm.toInt)
    (hctz : (imm <<< imm.clz.toNat).ctz.toNat ≤ 44) (n : Nat) :
    ∃ r, emitWithSrli rd imm n = some r ∧
      ∀ code, r = some code → Loads rd imm code ∧ code.length ≤ 3 := by
  obtain ⟨-, h63, -, -⟩ := clz_bounds_of_pos hpos
  have hback := shiftLeft_clz_ushiftRight hpos
  have hneg := toInt_shiftLeft_clz_neg hpos
  unfold emitWithSrli
  dsimp only
  split_ifs with hones
  · -- all ones below the leading zeros: `ADDI -1`, then `SRLI`
    refine ⟨_, rfl, fun code hcode => ?_⟩
    cases hcode
    have hm1 : Loads rd (-1) [.addi rd Zero (-1)] :=
      loads_singleton (by simp only [Insn.fits]; decide) rfl fun x => by
        simp only [Insn.value, read_zero]
        decide
    have h := hm1.srli imm.clz.toNat (by omega)
    rw [allOnes_ushiftRight (by omega), ← hones] at h
    exact ⟨h, by simp⟩
  · obtain ⟨r1, hr1, hsome1, hnone1⟩ := srliViaSimpleLi_spec rd (n := n) hback
      (clz_le_ctz_shiftLeft_clz hpos) hneg
    rw [hr1]
    cases r1 with
    | some code => exact ⟨some code, rfl, fun c hc => Option.some_inj.1 hc ▸ hsome1 code rfl⟩
    | none =>
      have hs := hnone1 rfl
      exact srliViaCtz_spec rd (n := n) hback (by omega) hneg hctz fun hn => hs.resolve_right (by omega)

/-- A value out of the simple range with 12 trailing zeros and a simple value above them: one
pass, with no `ADDI`. -/
theorem decomposeSlliAddi_of_le_ctz {v : BitVec 64} (hns : ¬ isSimpleLiValue v)
    (hc : 12 ≤ v.ctz.toNat) (hus : isSimpleLiValue (v.sshiftRight v.ctz.toNat)) (fuel : Nat) :
    decomposeSlliAddi (fuel + 1) v = ([(0, v.ctz.toNat)], v.sshiftRight v.ctz.toNat) := by
  -- the source's mask `0xfff` is elaborated as a cast of the natural number
  have hlow : v &&& ((0xfff : Nat) : BitVec 64) = 0#64 := by
    apply BitVec.eq_of_toNat_eq
    rw [show ((0xfff : Nat) : BitVec 64) = BitVec.ofNat 64 (2 ^ 12 - 1) from rfl,
      BitVec.toNat_and_ofNat_two_pow_sub_one v 12 (by decide), BitVec.toNat_mod_two_pow_of_le_ctz hc]
    rfl
  have hsign : v &&& 0x800 = 0#64 := by
    rw [show (0x800 : BitVec 64) = ((0xfff : Nat) : BitVec 64) &&& 0x800 by decide,
      ← BitVec.and_assoc, hlow,
      BitVec.zero_and]
  rw [decomposeSlliAddi, if_neg hns]
  dsimp only
  rw [hlow, hsign, BitVec.zero_shiftLeft, BitVec.sub_zero, BitVec.sub_zero,
    decomposeSlliAddi_of_simple hus]
  rfl

/-- Such a value, with a 20-bit value above the trailing zeros, takes two instructions. -/
theorem countInstructionsWithSlliAddi_of_le_ctz {v : BitVec 64} (hns : ¬ isSimpleLiValue v)
    (hc : 12 ≤ v.ctz.toNat) (hulo : -2 ^ 19 ≤ (v.sshiftRight v.ctz.toNat).toInt)
    (huhi : (v.sshiftRight v.ctz.toNat).toInt < 2 ^ 19) :
    countInstructionsWithSlliAddi v = some 2 := by
  have h20 : isIntK 20 (v.sshiftRight v.ctz.toNat) := (isIntK_iff (by omega) (by omega)).2 ⟨hulo, huhi⟩
  have hus : isSimpleLiValue (v.sshiftRight v.ctz.toNat) := by
    rw [isSimpleLiValue_iff]
    omega
  unfold countInstructionsWithSlliAddi emitWithSlliAddiHelper
  rw [show kMaxNumSllAddi = 2 + 1 from rfl, decomposeSlliAddi_of_le_ctz hns hc hus]
  dsimp only
  by_cases h12 : isIntK 12 (v.sshiftRight v.ctz.toNat)
  · rw [if_neg (by simp [h12]), emitSimpleLiHelper, if_pos h12]
    rfl
  · rw [if_pos ⟨by simp, h20, by simpa using h12⟩]
    rfl

/-- When more than two instructions are counted for a positive `imm`, its left-justified value
has at most 44 trailing zeros, so that the source's `IsInt(ctz + 20, value)` keeps within 64
bits: with 45 or more, `imm` would be a value of 19 bits shifted left, loaded in two. -/
theorem ctz_shiftLeft_clz_le {imm : BitVec 64} (hpos : 0 < imm.toInt) {n : Nat}
    (hn : countInstructionsWithSlliAddi imm = some n) (h2 : 2 < n) :
    (imm <<< imm.clz.toNat).ctz.toNat ≤ 44 := by
  by_contra hgt
  have hns := not_isSimpleLiValue_of_count hn h2
  obtain ⟨-, h63, -, hhi⟩ := clz_bounds_of_pos hpos
  have hne : imm ≠ 0#64 := by
    rintro rfl
    simp at hpos
  have himm := toInt_eq_toNat_of_pos hpos
  have hbig : 0x7fffffff < imm.toNat := by
    rw [isSimpleLiValue_iff, himm] at hns
    omega
  have hs32 : imm.clz.toNat ≤ 32 := by
    by_contra h
    have : 2 ^ (64 - imm.clz.toNat) ≤ 2 ^ 31 := Nat.pow_le_pow_right (by decide) (by omega)
    omega
  -- `2 ^ (45 - clz)` divides `imm`, as `2 ^ 45` divides it shifted left by `clz`
  have hdvd : 2 ^ (45 - imm.clz.toNat) ∣ imm.toNat := by
    have h45 : 2 ^ 45 ∣ (imm <<< imm.clz.toNat).toNat :=
      Nat.dvd_of_mod_eq_zero (BitVec.toNat_mod_two_pow_of_le_ctz (by omega))
    have hpow : 2 ^ (45 - imm.clz.toNat) * 2 ^ imm.clz.toNat = 2 ^ 45 := by
      rw [← pow_add, Nat.sub_add_cancel (by omega)]
    rw [toNat_shiftLeft_clz hpos, ← hpow] at h45
    exact Nat.dvd_of_mul_dvd_mul_right (by positivity) h45
  have hc : 45 - imm.clz.toNat ≤ imm.ctz.toNat :=
    BitVec.le_ctz_of_toNat_mod_two_pow (by omega) (Nat.mod_eq_zero_of_dvd hdvd)
  -- the value above the trailing zeros is below `2 ^ 19`
  have hu := SignedDivision.toInt_sshiftRight_eq_ediv imm imm.ctz.toNat
  have hpowc : (0 : Int) < 2 ^ imm.ctz.toNat := by positivity
  have hle : (2 : Int) ^ (64 - imm.clz.toNat) ≤ 2 ^ 19 * 2 ^ imm.ctz.toNat := by
    rw [← pow_add]
    exact pow_le_pow_right₀ (by norm_num) (by omega)
  have hhi' : (imm.toNat : Int) < 2 ^ (64 - imm.clz.toNat) := by exact_mod_cast hhi
  have huhi : (imm.sshiftRight imm.ctz.toNat).toInt < 2 ^ 19 := by
    rw [hu]
    exact Int.ediv_lt_of_lt_mul hpowc (by omega)
  have hulo : -2 ^ 19 ≤ (imm.sshiftRight imm.ctz.toNat).toInt := by
    have h0 : (0 : Int) ≤ 2 ^ 19 * 2 ^ imm.ctz.toNat := by positivity
    rw [hu]
    exact Int.le_ediv_of_mul_le hpowc
      (by rw [neg_mul, himm]; exact (neg_nonpos.2 h0).trans (Int.natCast_nonneg _))
  rw [countInstructionsWithSlliAddi_of_le_ctz hns (by omega) hulo huhi, Option.some_inj] at hn
  omega

end Srli

/-! ### The scratch register -/

section Tmp

theorem getLsbD_allocateXRegister {available : BitVec 32} (h : available ≠ 0#32) :
    available.getLsbD (allocateXRegister available).val = true :=
  BitVec.getLsbD_true_clz_of_ne_zero (by omega) h

variable {rd tmp : XRegister}

/-- The high part shifted into place in `rd` and the low part added from `tmp`, which the code of
the one does not write and that of the other does not read. -/
theorem loads_add_tmp {a b : BitVec 64} {codeA codeB : List Insn} {s : Nat}
    (hA : Loads rd a (codeA ++ [.slli rd rd s])) (hB : Loads tmp b codeB)
    (hBd : ∀ i ∈ codeB, i.dest = tmp) (hne : tmp ≠ rd) (htmp : tmp ≠ Zero) :
    Loads rd (a + b) (codeA ++ codeB ++ [.slli rd rd s, .add rd rd tmp]) where
  fits i hi := by
    simp only [List.mem_append, List.mem_cons, List.mem_nil_iff, or_false] at hi
    rcases hi with (hi | hi) | rfl | rfl
    · exact hA.fits i (List.mem_append_left _ hi)
    · exact hB.fits i hi
    · exact hA.fits _ (List.mem_append_right _ List.mem_cons_self)
    · rfl
  read_run x hrd := by
    have hkeep : read (run (run x codeA) codeB) rd = read (run x codeA) rd :=
      read_run_of_dest_ne fun i hi => (hBd i hi).symm ▸ hne
    have hshift : read (run x codeA) rd <<< s = a := by
      have hlast := read_run_concat x codeA (.slli rd rd s) hrd
      simp only [Insn.dest, Insn.value] at hlast
      rw [← hlast, hA.read_run x hrd]
    have hlow := hB.read_run (run x codeA) htmp
    rw [run_append, run_append, run_cons, run_cons, run_nil, exec, exec]
    simp only [Insn.dest, Insn.value]
    rw [read_write_self hrd, read_write_of_ne hne, read_write_self hrd, hkeep, hshift, hlow]

/-- The high part: `LUI` with the shift 12 less, or `emit_simple_li`; with the `SLLI` after it,
it loads the high part shifted into place. -/
theorem highPart_spec (rd : XRegister) {high : BitVec 64} {s : Nat} (hs12 : 12 ≤ s) (hs64 : s < 64)
    (hlo : -2 ^ 31 ≤ high.toInt) (hhi : high.toInt < 2 ^ 31) :
    ∃ hc : List Insn × Nat, (if isIntK 20 high && !isIntK 12 high then
        some ([.lui rd ((high &&& 0xfffff).setWidth 32)], s - 12)
      else (emitSimpleLiHelper rd high).map fun code => (code, s)) = some hc ∧
      Loads rd (high <<< s) (hc.1 ++ [.slli rd rd hc.2]) ∧ hc.1.length ≤ 2 := by
  split_ifs with hlui
  · rw [Bool.and_eq_true, isIntK_iff (by omega) (by omega)] at hlui
    have h := (loads_lui_of_fits rd (v := high) (by omega) (by omega)).slli (s - 12) (by omega)
    rw [← BitVec.shiftLeft_add, Nat.add_sub_cancel' hs12] at h
    exact ⟨_, rfl, h, by simp⟩
  · have hsimple : isSimpleLiValue high := by
      rw [isSimpleLiValue_iff]
      omega
    obtain ⟨code, hcode, hloads, -, -, hlen⟩ := emitSimpleLiHelper_spec rd hsimple
    exact ⟨(code, s), by rw [hcode]; rfl, hloads.slli _ hs64, hlen⟩

/-- `emit_with_tmp` for a value out of the simple range, with a scratch register available and
`rd` not among the scratch registers: when it emits, the sequence loads `imm` in at most six
instructions; it emits nothing only for a count of at most six. -/
theorem emitWithTmp_spec {available : BitVec 32} (rd : XRegister) {imm : BitVec 64}
    (hns : ¬ isSimpleLiValue imm) (hrd : available.getLsbD rd.val = false)
    (h0 : available.getLsbD 0 = false) (havail : available ≠ 0#32) (n : Nat) :
    ∃ r, emitWithTmp available rd imm n = some r ∧
      (∀ code, r = some code → Loads rd imm code ∧ code.length ≤ 6) ∧ (r = none → n ≤ 6) := by
  -- the scratch register is available: neither `rd` nor `Zero`
  have htmpbit := getLsbD_allocateXRegister havail
  have hne : allocateXRegister available ≠ rd := by
    intro h
    rw [h, hrd] at htmpbit
    contradiction
  have htmp : allocateXRegister available ≠ Zero := by
    intro h
    rw [h] at htmpbit
    exact absurd htmpbit (by rw [show Zero.val = 0 from rfl, h0]; decide)
  -- the low 32 bits, signed, and the rest, a nonzero multiple of `2 ^ 32`
  obtain ⟨low, hlow⟩ : ∃ low, low = (imm &&& 0xffffffff) - ((imm &&& 0x80000000) <<< 1) :=
    ⟨_, rfl⟩
  have hlowInt : low.toInt = imm.toInt.bmod (2 ^ 32) :=
    hlow ▸ BitVec.toInt_signedLow imm (k := 32) (by omega) (by omega)
  have hlowlo : -2 ^ 31 ≤ low.toInt := hlowInt ▸ Int.le_bmod (by norm_num)
  have hlowhi : low.toInt < 2 ^ 31 := hlowInt ▸ Int.bmod_lt (by norm_num)
  obtain ⟨rem, hrem⟩ : ∃ rem, rem = imm - low := ⟨_, rfl⟩
  have hremne : rem ≠ 0#64 := by
    intro h0
    have himm : imm = low := by
      rw [hrem] at h0
      bv_omega
    rw [isSimpleLiValue_iff, himm] at hns
    omega
  have hs : 32 ≤ rem.ctz.toNat :=
    BitVec.le_ctz_of_toNat_mod_two_pow (by omega)
      (hrem ▸ hlow ▸ BitVec.toNat_sub_signedLow_mod imm (k := 32) (by omega) (by omega))
  have hs64 := BitVec.ctz_toNat_lt_of_ne_zero hremne
  -- the high part, a 32-bit value
  have hu := SignedDivision.toInt_sshiftRight_eq_ediv rem rem.ctz.toNat
  have hpows : (2 : Int) ^ 32 ≤ 2 ^ rem.ctz.toNat := pow_le_pow_right₀ (by norm_num) hs
  have hremlo := BitVec.le_toInt rem
  have hremhi := BitVec.toInt_lt (x := rem)
  norm_num at hremlo hremhi
  have hmul : (2 : Int) ^ 31 * 2 ^ 32 ≤ 2 ^ 31 * 2 ^ rem.ctz.toNat :=
    mul_le_mul_of_nonneg_left hpows (by positivity)
  have hhighlo : -2 ^ 31 ≤ (rem.sshiftRight rem.ctz.toNat).toInt := by
    rw [hu]
    apply Int.le_ediv_of_mul_le (by positivity)
    calc -2 ^ 31 * 2 ^ rem.ctz.toNat = -(2 ^ 31 * 2 ^ rem.ctz.toNat) := neg_mul _ _
      _ ≤ -(2 ^ 31 * 2 ^ 32) := neg_le_neg hmul
      _ ≤ rem.toInt := by norm_num; omega
  have hhighhi : (rem.sshiftRight rem.ctz.toNat).toInt < 2 ^ 31 := by
    rw [hu]
    apply Int.ediv_lt_of_lt_mul (by positivity)
    calc rem.toInt < 2 ^ 31 * 2 ^ 32 := by norm_num; omega
      _ ≤ 2 ^ 31 * 2 ^ rem.ctz.toNat := hmul
  have hback : (rem.sshiftRight rem.ctz.toNat) <<< rem.ctz.toNat = rem :=
    BitVec.shiftLeft_sshiftRight_of_le_ctz le_rfl
  have hlowSimple : isSimpleLiValue low := by
    rw [isSimpleLiValue_iff]
    omega
  obtain ⟨cl, hcl, hloadsL, hdestL, -, hlenL⟩ :=
    emitSimpleLiHelper_spec (allocateXRegister available) hlowSimple
  unfold emitWithTmp
  dsimp only
  rw [← hlow, ← hrem, countSimpleLiInstructions_of_emit hcl]
  obtain ⟨hc, hhc, hloadsH, hlenH⟩ := highPart_spec rd (by omega) hs64 hhighlo hhighhi
  rw [hback] at hloadsH
  -- the count of the scratch sequence against the count so far
  by_cases hlt : (if isIntK 20 (rem.sshiftRight rem.ctz.toNat) ||
      rem.sshiftRight rem.ctz.toNat &&& 0xfff == 0 then 1 else 2) + cl.length + 2 < n
  · refine ⟨some (hc.1 ++ cl ++ [.slli rd rd hc.2, .add rd rd (allocateXRegister available)]), ?_,
      fun code hcode => ?_, by simp⟩
    · show (if _ < n then _ else _) = _
      rw [if_pos hlt, hhc, hcl]
      rfl
    · cases hcode
      have h := loads_add_tmp hloadsH hloadsL hdestL hne htmp
      rw [hrem, BitVec.sub_add_cancel] at h
      refine ⟨h, ?_⟩
      simp only [List.length_append, List.length_cons, List.length_nil]
      omega
  · refine ⟨none, ?_, by simp, fun _ => ?_⟩
    · show (if _ < n then _ else _) = _
      rw [if_neg hlt]
      rfl
    · split_ifs at hlt <;> omega

end Tmp

/-! ### `LoadImmediate` -/

section LoadImmediate

/-- An `Option` computation whose first step succeeds goes on as its second. -/
theorem exists_bind_of_eq_some {α β : Type} {o : Option α} {f : α → Option β} {a : α}
    {P : β → Prop} (ho : o = some a) (h : ∃ b, f a = some b ∧ P b) :
    ∃ b, o.bind f = some b ∧ P b := by
  rw [ho]
  exact h

/-- `LoadImmediate` into a register that is not a scratch register, with `Zero` never a scratch
register and one available when the scratch register may be used: the sequence loads `imm`, with
at most eight instructions, six when the scratch register may be used. -/
theorem loadImmediate_spec {available : BitVec 32} {rd : XRegister}
    (hrd : available.getLsbD rd.val = false) (h0 : available.getLsbD 0 = false) (imm : BitVec 64)
    (canUseTmp : Bool) (htmp : canUseTmp → available ≠ 0#32) :
    ∃ code, loadImmediate available rd imm canUseTmp = some code ∧ Loads rd imm code ∧
      code.length ≤ 8 ∧ (canUseTmp → code.length ≤ 6) := by
  obtain ⟨c0, hc0, hloads0, -, -, hlen0⟩ := emitWithSlliAddiHelper_spec rd imm
  have hn := countInstructionsWithSlliAddi_of_emit hc0
  unfold loadImmediate
  rw [if_neg (by rw [hrd]; decide), if_neg fun h => htmp h.1 h.2]
  refine exists_bind_of_eq_some hn ?_
  by_cases h2 : c0.length > 2
  · rw [if_pos h2]
    obtain ⟨n', t, hchoose, hle, ct, hct, hloadsT, hlenT⟩ := chooseTrailingSlli_spec rd hn
    have hns := not_isSimpleLiValue_of_count hn h2
    refine exists_bind_of_eq_some hchoose ?_
    -- the `SRLI` sequences, for a positive `imm`
    obtain ⟨rs, hrs, hsomeS⟩ : ∃ rs, (if 0 < imm.toInt then emitWithSrli rd imm n' else pure none) =
        some rs ∧ ∀ code, rs = some code → Loads rd imm code ∧ code.length ≤ 3 := by
      split_ifs with hpos
      · exact emitWithSrli_spec rd hpos (ctz_shiftLeft_clz_le hpos hn h2) n'
      · exact ⟨none, rfl, by simp⟩
    refine exists_bind_of_eq_some hrs ?_
    cases rs with
    | some code =>
      obtain ⟨h, hl⟩ := hsomeS code rfl
      exact ⟨code, rfl, h, by omega, fun _ => by omega⟩
    | none =>
      -- the scratch-register sequence, when it may be used
      obtain ⟨rt, hrt, hsomeT, hnoneT⟩ : ∃ rt,
          (if canUseTmp then emitWithTmp available rd imm n' else pure none) = some rt ∧
          (∀ code, rt = some code → Loads rd imm code ∧ code.length ≤ 6) ∧
          (rt = none → canUseTmp → n' ≤ 6) := by
        split_ifs with hc
        · obtain ⟨r, hr, hsome, hnone⟩ := emitWithTmp_spec rd hns hrd h0 (htmp hc) n'
          exact ⟨r, hr, hsome, fun h _ => hnone h⟩
        · exact ⟨none, rfl, by simp, fun _ h => absurd h hc⟩
      refine exists_bind_of_eq_some hrt ?_
      cases rt with
      | some code =>
        obtain ⟨h, hl⟩ := hsomeT code rfl
        exact ⟨code, rfl, h, by omega, fun _ => hl⟩
      | none =>
        -- the last lines, with the trailing shift chosen
        exact ⟨ct, hct, hloadsT, by omega, fun hc => by have := hnoneT rfl hc; omega⟩
  · rw [if_neg h2]
    exact ⟨c0, by rw [emitWithTrailingSlli_zero, hc0], hloads0, hlen0, fun _ => by omega⟩

/-- The initial scratch registers are `TMP` and `TMP2` only; `Zero` is not one of them. -/
theorem getLsbD_kInitialScratchCoreRegisters {rd : XRegister} (hscratch : rd ≠ TMP ∧ rd ≠ TMP2) :
    kInitialScratchCoreRegisters.getLsbD rd.val = false := by
  revert rd
  decide

/-- `LoadImmediate` with the assembler's scratch registers, into any register but `Zero` and the
scratch registers, with or without the scratch register: from any register state the sequence
leaves `imm` in `rd`, every immediate fits its field, and there are at most eight instructions,
six when the scratch register may be used. The `SLLI`+`ADDI` loop stops within its three slots. -/
theorem loadImmediate_exact (rd : XRegister) (imm : BitVec 64) (canUseTmp : Bool) (hrd : rd ≠ Zero)
    (hscratch : rd ≠ TMP ∧ rd ≠ TMP2) :
    (∃ code, loadImmediate kInitialScratchCoreRegisters rd imm canUseTmp = some code ∧
      (∀ x, read (run x code) rd = imm) ∧ (∀ i ∈ code, i.fits) ∧
      code.length ≤ 8 ∧ (canUseTmp → code.length ≤ 6)) ∧
    ∀ fuel value, kMaxNumSllAddi ≤ fuel →
      decomposeSlliAddi fuel value = decomposeSlliAddi kMaxNumSllAddi value := by
  obtain ⟨code, hcode, hloads, hlen, htmp⟩ :=
    loadImmediate_spec (getLsbD_kInitialScratchCoreRegisters hscratch) (by decide) imm canUseTmp
      fun _ => by decide
  exact ⟨⟨code, hcode, fun x => hloads.read_run x hrd, hloads.fits, hlen, htmp⟩,
    fun fuel value hfuel => decomposeSlliAddi_of_le hfuel value⟩

theorem loadImmediate_exact_a0 :
    (∃ code, loadImmediate kInitialScratchCoreRegisters 10 0x123456789abcdef0 true = some code ∧
      (∀ x, read (run x code) 10 = 0x123456789abcdef0) ∧ (∀ i ∈ code, i.fits) ∧
      code.length ≤ 8 ∧ (true → code.length ≤ 6)) ∧
    ∀ fuel value, kMaxNumSllAddi ≤ fuel →
      decomposeSlliAddi fuel value = decomposeSlliAddi kMaxNumSllAddi value :=
  loadImmediate_exact 10 0x123456789abcdef0 true (by decide) (by decide)

/-- `Zero` is not a scratch register, yet a constant loaded into it is lost: `LoadImmediate` emits
`ADDI Zero, Zero, 1` for 1, which leaves `Zero` reading 0. -/
theorem loadImmediate_zero_register :
    kInitialScratchCoreRegisters.getLsbD Zero.val = false ∧
      loadImmediate kInitialScratchCoreRegisters Zero 1 false = some [.addi Zero Zero 1] ∧
      ∀ x, read (run x [.addi Zero Zero 1]) Zero ≠ 1 :=
  ⟨by decide, by decide, fun x => by rw [read_zero]; decide⟩

end LoadImmediate

end Riscv64

end Art
