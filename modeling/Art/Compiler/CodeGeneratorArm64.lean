import Art.Compiler.CodeGeneratorUtils
import Art.Lib.SignedDivision

/-!
# Division by a constant on arm64 (`compiler/optimizing/code_generator_arm64.cc`)

The instructions `InstructionCodeGeneratorARM64` emits for an `HDiv` or `HRem` whose divisor is a
constant, as lists of `vixl::aarch64::MacroAssembler` instructions, and what they compute.
An instruction names its registers by number and carries their size in bits (`W` registers are
32, `X` registers 64): reading a `W` register reads the low half, writing one clears the high
half. The scratch registers of `UseScratchRegisterScope` are `ip0` and `ip1`, in that order;
the register allocator never hands them out. `Mov` and the immediate forms are the macro
instructions: they stand for their value whatever sequence VIXL picks to build it.

Every sequence leaves Java's quotient or remainder in the output register
(`generateIntDivForConstDenom_correct`, `generateIntRemForConstDenom_correct`). The sequences that
skip the sign correction rely on `HasNonNegativeInputAt` and `HasNonNegativeOrMinIntInputAt`,
proved sound in `CodeGeneratorUtils`; the others on `CalculateMagicAndShiftForDivRem`.
-/

namespace Art

open MagicDivision

namespace Arm64

/-- The conditions the division code tests. -/
inductive Condition where
  | lt | ge | mi
  deriving DecidableEq, Repr

/-- The shifts of a shifted-register operand. -/
inductive Shift where
  | lsl | lsr | asr
  deriving DecidableEq, Repr

/-- `vixl::aarch64::Operand`: an immediate, a register, or a register shifted by an amount. -/
inductive Operand where
  | imm (value : Int)
  | reg (r : Fin 32)
  | shifted (r : Fin 32) (shift : Shift) (amount : ℕ)
  deriving DecidableEq, Repr

/-- The macro instructions of the division code; `w` is the size of the registers in bits. -/
inductive Instr where
  | mov (w : ℕ) (rd : Fin 32) (imm : Int)
  | add (w : ℕ) (rd rn : Fin 32) (op : Operand)
  | adds (w : ℕ) (rd rn : Fin 32) (op : Operand)
  | subs (w : ℕ) (rd rn : Fin 32) (op : Operand)
  | cmp (w : ℕ) (rn : Fin 32) (op : Operand)
  | neg (w : ℕ) (rd : Fin 32) (op : Operand)
  | negs (w : ℕ) (rd rn : Fin 32)
  | and (w : ℕ) (rd rn : Fin 32) (op : Operand)
  | asr (w : ℕ) (rd rn : Fin 32) (shift : ℕ)
  | lsr (w : ℕ) (rd rn : Fin 32) (shift : ℕ)
  | csel (w : ℕ) (rd rn rm : Fin 32) (cond : Condition)
  | csneg (w : ℕ) (rd rn rm : Fin 32) (cond : Condition)
  | cinc (w : ℕ) (rd rn : Fin 32) (cond : Condition)
  /-- The high half of the 128-bit product of two `X` registers. -/
  | smulh (rd rn rm : Fin 32)
  /-- The 64-bit product of two `W` registers, into an `X` register. -/
  | smull (rd rn rm : Fin 32)
  | msub (w : ℕ) (rd rn rm ra : Fin 32)
  deriving DecidableEq, Repr

/-- The general registers and the `NZCV` flags. -/
structure State where
  x : Fin 32 → BitVec 64
  n : Bool
  z : Bool
  c : Bool
  v : Bool

/-- The scratch registers `ip0` (`x16`) and `ip1` (`x17`). -/
def ip0 : Fin 32 := 16
def ip1 : Fin 32 := 17

namespace State

variable (s : State)

/-- A register read at `w` bits: its low `w` bits. -/
def read (w : ℕ) (r : Fin 32) : BitVec w :=
  (s.x r).setWidth w

/-- A `w`-bit result written to a register, zero-extended. -/
def write {w : ℕ} (r : Fin 32) (value : BitVec w) : State :=
  { s with x := Function.update s.x r (value.setWidth 64) }

/-- The flags of `a + b` (`adds`). -/
def setAddFlags {w : ℕ} (a b : BitVec w) : State :=
  { s with n := (a + b).msb, z := a + b == 0, c := decide (2 ^ w ≤ a.toNat + b.toNat),
           v := decide ((a + b).toInt ≠ a.toInt + b.toInt) }

/-- The flags of `a - b` (`subs`, `cmp`, `negs`). -/
def setSubFlags {w : ℕ} (a b : BitVec w) : State :=
  { s with n := (a - b).msb, z := a - b == 0, c := decide (b.toNat ≤ a.toNat),
           v := decide ((a - b).toInt ≠ a.toInt - b.toInt) }

/-- Whether a condition holds on the flags. -/
def holds : Condition → Bool
  | .lt => s.n != s.v
  | .ge => s.n == s.v
  | .mi => s.n

end State

/-- The value of an operand at `w` bits. -/
def Operand.value (s : State) (w : ℕ) : Operand → BitVec w
  | .imm value => BitVec.ofInt w value
  | .reg r => s.read w r
  | .shifted r .lsl amount => s.read w r <<< amount
  | .shifted r .lsr amount => s.read w r >>> amount
  | .shifted r .asr amount => (s.read w r).sshiftRight amount

/-- One instruction. -/
def exec (s : State) : Instr → State
  | .mov w rd imm => s.write rd (BitVec.ofInt w imm)
  | .add w rd rn op => s.write rd (s.read w rn + op.value s w)
  | .adds w rd rn op => (s.setAddFlags (s.read w rn) (op.value s w)).write rd (s.read w rn + op.value s w)
  | .subs w rd rn op => (s.setSubFlags (s.read w rn) (op.value s w)).write rd (s.read w rn - op.value s w)
  | .cmp w rn op => s.setSubFlags (s.read w rn) (op.value s w)
  | .neg w rd op => s.write rd (-op.value s w)
  | .negs w rd rn => (s.setSubFlags 0 (s.read w rn)).write rd (0 - s.read w rn)
  | .and w rd rn op => s.write rd (s.read w rn &&& op.value s w)
  | .asr w rd rn shift => s.write rd ((s.read w rn).sshiftRight shift)
  | .lsr w rd rn shift => s.write rd (s.read w rn >>> shift)
  | .csel w rd rn rm cond => s.write rd (if s.holds cond then s.read w rn else s.read w rm)
  | .csneg w rd rn rm cond => s.write rd (if s.holds cond then s.read w rn else -s.read w rm)
  | .cinc w rd rn cond => s.write rd (if s.holds cond then s.read w rn + 1 else s.read w rn)
  | .smulh rd rn rm =>
    s.write rd (BitVec.ofInt 64 ((s.read 64 rn).toInt * (s.read 64 rm).toInt / 2 ^ 64))
  | .smull rd rn rm => s.write rd (BitVec.ofInt 64 ((s.read 32 rn).toInt * (s.read 32 rm).toInt))
  | .msub w rd rn rm ra => s.write rd (s.read w ra - s.read w rn * s.read w rm)

/-- A sequence of instructions. -/
def run (s : State) (code : List Instr) : State :=
  code.foldl exec s

@[simp] theorem run_nil (s : State) : run s [] = s := rfl

@[simp] theorem run_cons (s : State) (i : Instr) (code : List Instr) :
    run s (i :: code) = run (exec s i) code := rfl

@[simp] theorem run_append (s : State) (code code' : List Instr) :
    run s (code ++ code') = run (run s code) code' :=
  List.foldl_append

/-- The register an instruction writes; `cmp` writes none. -/
def Instr.dest : Instr → Option (Fin 32)
  | .mov _ rd _ | .add _ rd _ _ | .adds _ rd _ _ | .subs _ rd _ _ | .neg _ rd _ | .negs _ rd _
  | .and _ rd _ _ | .asr _ rd _ _ | .lsr _ rd _ _ | .csel _ rd _ _ _ | .csneg _ rd _ _ _
  | .cinc _ rd _ _ | .smulh rd _ _ | .smull rd _ _ | .msub _ rd _ _ _ => some rd
  | .cmp .. => none

namespace State

variable (s : State) {w v : ℕ}

@[simp] theorem read_write_self (hv : v ≤ 64) (r : Fin 32) (value : BitVec w) :
    (s.write r value).read v r = value.setWidth v := by
  simp [read, write, BitVec.setWidth_setWidth_of_le _ hv]

@[simp] theorem read_write_of_ne {r r' : Fin 32} (h : r' ≠ r) (value : BitVec w) :
    (s.write r value).read v r' = s.read v r' := by
  simp [read, write, h]

@[simp] theorem write_n (r : Fin 32) (value : BitVec w) : (s.write r value).n = s.n := rfl
@[simp] theorem write_v (r : Fin 32) (value : BitVec w) : (s.write r value).v = s.v := rfl

@[simp] theorem holds_write (r : Fin 32) (value : BitVec w) (cond : Condition) :
    (s.write r value).holds cond = s.holds cond := rfl

@[simp] theorem read_64_setWidth_32 (r : Fin 32) : (s.read 64 r).setWidth 32 = s.read 32 r := by
  simp [read]

@[simp] theorem read_setAddFlags (a b : BitVec w) (r : Fin 32) :
    (s.setAddFlags a b).read v r = s.read v r := rfl
@[simp] theorem read_setSubFlags (a b : BitVec w) (r : Fin 32) :
    (s.setSubFlags a b).read v r = s.read v r := rfl

@[simp] theorem setAddFlags_n (a b : BitVec w) : (s.setAddFlags a b).n = (a + b).msb := rfl
@[simp] theorem setSubFlags_n (a b : BitVec w) : (s.setSubFlags a b).n = (a - b).msb := rfl
@[simp] theorem setSubFlags_v (a b : BitVec w) :
    (s.setSubFlags a b).v = decide ((a - b).toInt ≠ a.toInt - b.toInt) := rfl

/-- `cmp x, #0` sets `lt` exactly for a negative `x`: the subtraction never overflows. -/
theorem holds_lt_setSubFlags_zero (x : BitVec w) :
    (s.setSubFlags x (BitVec.ofInt w 0)).holds .lt = decide (x.toInt < 0) := by
  simp [holds, BitVec.msb_eq_toInt]

/-- `cmp x, #0` sets `ge` exactly for a non-negative `x`. -/
theorem holds_ge_setSubFlags_zero (x : BitVec w) :
    (s.setSubFlags x (BitVec.ofInt w 0)).holds .ge = decide (0 ≤ x.toInt) := by
  simp only [holds, setSubFlags_n, setSubFlags_v]
  simp only [BitVec.msb_eq_toInt]
  simp only [BitVec.ofInt_ofNat, BitVec.sub_zero, BitVec.toInt_zero, Int.sub_zero, ne_eq,
    not_true_eq_false, decide_false, beq_false, ← decide_not, decide_eq_decide]
  omega

end State

/-- An instruction leaves the registers it does not write as they were. -/
theorem read_exec_of_dest_ne {s : State} {i : Instr} {r : Fin 32} (h : i.dest ≠ some r) (v : ℕ) :
    (exec s i).read v r = s.read v r := by
  -- `cmp` only sets the flags; every other instruction writes `dest`
  cases i <;> first
    | rfl
    | simp only [Instr.dest, ne_eq, Option.some.injEq] at h
      simp [exec, State.read_write_of_ne _ (Ne.symm h)]

/-- The frame rule of a sequence: a register no instruction writes keeps its value. -/
theorem read_run_of_dest_ne {r : Fin 32} {code : List Instr} (h : ∀ i ∈ code, i.dest ≠ some r)
    (s : State) (v : ℕ) : (run s code).read v r = s.read v r := by
  induction code generalizing s with
  | nil => rfl
  | cons i code ih =>
    rw [run_cons, ih (fun j hj => h j (List.mem_cons_of_mem _ hj)),
      read_exec_of_dest_ne (h i List.mem_cons_self)]

/-! ### The code generators -/

section Generators

variable {ι β : Type} [Fintype ι] [DecidableEq ι] [DecidableEq β] (g : HGraph ι β)

/-- `GenerateIntDivForPower2Denom`: `out = dividend / imm` for `|imm|` a power of two. -/
def generateIntDivForPower2Denom (instr : ι) (type : IntType) (imm : BitVec 64)
    (out dividend : Fin 32) : List Instr :=
  let w := type.bits
  let absImm := (absOrMin imm).toNat
  let (adjust, finalDividend) :=
    if hasNonNegativeOrMinIntInputAt g instr 0 then ([], dividend)
    else if absImm = 2 then ([.add w out dividend (.shifted dividend .lsr (w - 1))], out)
    else ([.add w ip0 dividend (.imm (absImm - 1)), .cmp w dividend (.imm 0),
      .csel w out ip0 dividend .lt], out)
  let ctzImm := ctz (absOrMin imm)
  adjust ++
    if 0 < imm.toInt then [.asr w out finalDividend ctzImm]
    else [.neg w out (.shifted finalDividend .asr ctzImm)]

/-- `GenerateIntRemForPower2Denom`: `out = dividend % imm` for `|imm|` a power of two. -/
def generateIntRemForPower2Denom (instr : ι) (type : IntType) (imm : BitVec 64)
    (out dividend : Fin 32) : List Instr :=
  let w := type.bits
  let absImm := (absOrMin imm).toNat
  if hasNonNegativeOrMinIntInputAt g instr 0 then [.and w out dividend (.imm (absImm - 1))]
  else if absImm = 2 then
    [.cmp w dividend (.imm 0), .and w out dividend (.imm 1), .csneg w out out out .ge]
  else
    [.negs w ip0 dividend, .and w out dividend (.imm (absImm - 1)),
      .and w ip0 ip0 (.imm (absImm - 1)), .csneg w out out ip0 .mi]

/-- `NeedToAddDividend`: the magic number stands for itself plus `2 ^ w`. -/
def needToAddDividend (magic divisor : BitVec 64) : Bool :=
  0 < divisor.toInt && magic.toInt < 0

/-- `NeedToSubDividend`: the magic number stands for itself minus `2 ^ w`. -/
def needToSubDividend (magic divisor : BitVec 64) : Bool :=
  divisor.toInt < 0 && 0 < magic.toInt

/-- `GenerateIncrementNegativeByOne`: `out = in + 1` if `in` is negative. -/
def generateIncrementNegativeByOne (w : ℕ) (out input : Fin 32) (useCondInc : Bool) : List Instr :=
  if useCondInc then [.cinc w out input .mi]
  else [.add w out input (.shifted input .lsr (w - 1))]

/-- `GenerateResultRemWithAnyConstant`: `out = dividend - quotient * divisor`, the divisor in
`ip1`. -/
def generateResultRemWithAnyConstant (w : ℕ) (out dividend quotient : Fin 32)
    (divisor : BitVec 64) : List Instr :=
  [.mov w ip1 divisor.toInt, .msub w out quotient ip1 dividend]

/-- `GenerateInt64UnsignedDivRemWithAnyPositiveConstant`, for a non-negative dividend. -/
def generateInt64UnsignedDivRemWithAnyPositiveConstant (isDiv : Bool) (imm : BitVec 64)
    (out dividend : Fin 32) : List Instr :=
  match calculateMagicAndShiftForDivRem imm true 64 with
  | some (magic, shift) =>
    let generateUnsignedDivCode (out dividend temp : Fin 32) : List Instr :=
      .mov 64 temp magic.toInt ::
        if 0 < magic.toInt && shift = 0 then [.smulh out dividend temp]
        else
          .smulh temp dividend temp ::
            ((if magic.toInt < 0 then [.add 64 temp temp (.reg dividend)] else []) ++
              [.lsr 64 out temp shift.toNat])
    if isDiv then generateUnsignedDivCode out dividend ip0
    else generateUnsignedDivCode ip0 dividend ip0 ++
      generateResultRemWithAnyConstant 64 out dividend ip0 imm
  | none => []

/-- `GenerateInt64DivRemWithAnyConstant`. -/
def generateInt64DivRemWithAnyConstant (isDiv : Bool) (imm : BitVec 64) (out dividend : Fin 32) :
    List Instr :=
  match calculateMagicAndShiftForDivRem imm true 64 with
  | some (magic, shift) =>
    let useCondInc := needToAddDividend magic imm || needToSubDividend magic imm
    [.mov 64 ip0 magic.toInt, .smulh ip0 dividend ip0] ++
      (if needToAddDividend magic imm then [.adds 64 ip0 ip0 (.reg dividend)]
        else if needToSubDividend magic imm then [.subs 64 ip0 ip0 (.reg dividend)] else []) ++
      (if shift ≠ 0 then [.asr 64 ip0 ip0 shift.toNat] else []) ++
      if isDiv then generateIncrementNegativeByOne 64 out ip0 useCondInc
      else generateIncrementNegativeByOne 64 ip0 ip0 useCondInc ++
        generateResultRemWithAnyConstant 64 out dividend ip0 imm
  | none => []

/-- `GenerateInt32DivRemWithAnyConstant`: the product in an `X` register, the correction in its
high half. -/
def generateInt32DivRemWithAnyConstant (instr : ι) (isDiv : Bool) (imm : BitVec 64)
    (out dividend : Fin 32) : List Instr :=
  match calculateMagicAndShiftForDivRem imm false 64 with
  | some (magic, shift) =>
    let useCondInc := needToAddDividend magic imm || needToSubDividend magic imm
    [.mov 32 ip0 magic.toInt, .smull ip0 dividend ip0] ++
      (if needToAddDividend magic imm then [.adds 64 ip0 ip0 (.shifted dividend .lsl 32)]
        else if needToSubDividend magic imm then [.subs 64 ip0 ip0 (.shifted dividend .lsl 32)]
        else []) ++
      if 0 < imm.toInt && hasNonNegativeInputAt g instr 0 then
        if isDiv then [.lsr 64 out ip0 (32 + shift).toNat]
        else .lsr 64 ip0 ip0 (32 + shift).toNat ::
          generateResultRemWithAnyConstant 32 out dividend ip0 imm
      else
        .asr 64 ip0 ip0 (32 + shift).toNat ::
          if isDiv then generateIncrementNegativeByOne 32 out ip0 useCondInc
          else generateIncrementNegativeByOne 32 ip0 ip0 useCondInc ++
            generateResultRemWithAnyConstant 32 out dividend ip0 imm
  | none => []

/-- `GenerateDivRemWithAnyConstant`. -/
def generateDivRemWithAnyConstant (instr : ι) (isDiv : Bool) (type : IntType) (divisor : BitVec 64)
    (out dividend : Fin 32) : List Instr :=
  match type with
  | .int64 =>
    if 0 < divisor.toInt && hasNonNegativeInputAt g instr 0 then
      generateInt64UnsignedDivRemWithAnyPositiveConstant isDiv divisor out dividend
    else generateInt64DivRemWithAnyConstant isDiv divisor out dividend
  | .int32 => generateInt32DivRemWithAnyConstant g instr isDiv divisor out dividend

/-- `GenerateIntDivForConstDenom`: nothing for a zero divisor, which `HDivZeroCheck` guards. -/
def generateIntDivForConstDenom (instr : ι) (type : IntType) (imm : BitVec 64)
    (out dividend : Fin 32) : List Instr :=
  if imm = 0 then []
  else if isPowerOfTwo (absOrMin imm) then generateIntDivForPower2Denom g instr type imm out dividend
  else generateDivRemWithAnyConstant g instr true type imm out dividend

/-- `GenerateIntRemForConstDenom`. -/
def generateIntRemForConstDenom (instr : ι) (type : IntType) (imm : BitVec 64)
    (out dividend : Fin 32) : List Instr :=
  if imm = 0 then []
  else if isPowerOfTwo (absOrMin imm) then generateIntRemForPower2Denom g instr type imm out dividend
  else generateDivRemWithAnyConstant g instr false type imm out dividend

end Generators

/-! ### Division by a power of two -/

section Power2

variable {ι β : Type} [Fintype ι] [DecidableEq ι] [DecidableEq β] (g : HGraph ι β)

/-- The last instruction of `GenerateIntDivForPower2Denom`: an arithmetic shift by `k` of a
register whose shift is the truncating quotient by `2 ^ k`, negated for a negative divisor. -/
theorem run_asr_quotient (type : IntType) {d : Int} (hd : type.InRange d) {k : ℕ}
    (hk : d.natAbs = 2 ^ k) (s : State) (out src : Fin 32) (n : BitVec type.bits)
    (hsrc : ((s.read type.bits src).sshiftRight k).toInt = n.toInt.tdiv (2 ^ k)) :
    (run s (if 0 < (BitVec.ofInt 64 d).toInt then [.asr type.bits out src k]
      else [.neg type.bits out (.shifted src .asr k)])).read type.bits out =
      n.sdiv (.ofInt type.bits d) := by
  obtain ⟨hpos, hneg⟩ := SignedDivision.sdiv_eq_of_toInt (d := BitVec.ofInt type.bits d) hsrc
  have hbits := type.bits_le_64
  have hpow : (0 : Int) < 2 ^ k := by positivity
  rw [hd.toInt_ofInt_64]
  rcases SignedDivision.eq_two_pow_or_eq_neg_of_natAbs hk with hd' | hd'
  · rw [if_pos (by omega)]
    simp only [run_cons, run_nil, exec, State.read_write_self _ hbits, BitVec.setWidth_eq]
    rw [hpos (by rw [hd.toInt_ofInt, hd'])]
  · rw [if_neg (by omega)]
    simp only [run_cons, run_nil, exec, Operand.value, State.read_write_self _ hbits,
      BitVec.setWidth_eq]
    rw [hneg (by rw [hd.toInt_ofInt, hd'])]

/-- `GenerateIntDivForPower2Denom` leaves `dividend / d` in `out`. -/
theorem generateIntDivForPower2Denom_correct (instr : ι) (type : IntType) {d : Int}
    (hd : type.InRange d) {k : ℕ} (hk : d.natAbs = 2 ^ k) {out dividend : Fin 32}
    (hdividend : dividend ≠ ip0) (s : State)
    (hmin : hasNonNegativeOrMinIntInputAt g instr 0 = true →
      0 ≤ (s.read type.bits dividend).toInt ∨ s.read type.bits dividend = BitVec.intMin type.bits) :
    (run s (generateIntDivForPower2Denom g instr type (.ofInt 64 d) out dividend)).read type.bits out =
      (s.read type.bits dividend).sdiv (.ofInt type.bits d) := by
  set n := s.read type.bits dividend with hn
  have hkw := hd.lt_bits_of_natAbs_eq hk
  have hbits := type.bits_le_64
  have hbits1 := type.one_lt_bits
  have habs : (absOrMin (.ofInt 64 d)).toNat = 2 ^ k := by
    rw [toNat_absOrMin, hd.toInt_ofInt_64, hk]
  have hctz : ctz (absOrMin (.ofInt 64 d)) = k :=
    SignedDivision.toNat_ctz_of_toNat_eq_two_pow _ habs
  unfold generateIntDivForPower2Denom
  simp only [habs, hctz]
  by_cases hnn : hasNonNegativeOrMinIntInputAt g instr 0 = true
  · -- a non-negative dividend, or `MIN_VALUE`, is shifted as it is
    rw [if_pos hnn, List.nil_append]
    exact run_asr_quotient type hd hk s out dividend n
      (SignedDivision.toInt_sshiftRight_of_nonneg_or_intMin n hkw (hmin hnn))
  rw [if_neg hnn]
  by_cases h2 : 2 ^ k = 2
  · -- `|d| = 2`: the bias is the sign bit
    have hk1 : k = 1 := Nat.pow_right_injective (le_refl 2) (h2.trans (pow_one 2).symm)
    subst hk1
    rw [if_pos h2, run_append]
    apply run_asr_quotient type hd hk _ out out n
    simp only [run_cons, run_nil, exec, Operand.value, State.read_write_self _ hbits,
      BitVec.setWidth_eq]
    rw [SignedDivision.toInt_sshiftRight_eq_ediv, SignedDivision.toInt_add_ushiftRight n hbits1,
      SignedDivision.tdiv_two_pow_eq]
    norm_num
  · -- otherwise `csel` picks `dividend + (2 ^ k - 1)` for a negative dividend
    rw [if_neg h2, run_append]
    apply run_asr_quotient type hd hk _ out out n
    simp only [run_cons, run_nil, exec, Operand.value, State.read_write_self _ hbits,
      State.read_write_of_ne _ hdividend, State.read_setSubFlags, State.holds_lt_setSubFlags_zero,
      BitVec.setWidth_eq]
    have hbias := SignedDivision.toInt_sshiftRight_biased n hkw
    push_cast at hbias ⊢
    simpa only [decide_eq_true_eq] using hbias

/-- `GenerateIntRemForPower2Denom` leaves `dividend % d` in `out`. -/
theorem generateIntRemForPower2Denom_correct (instr : ι) (type : IntType) {d : Int}
    (hd : type.InRange d) {k : ℕ} (hk : d.natAbs = 2 ^ k) {out dividend : Fin 32}
    (hout : out ≠ ip0) (hdividend : dividend ≠ ip0) (s : State)
    (hmin : hasNonNegativeOrMinIntInputAt g instr 0 = true →
      0 ≤ (s.read type.bits dividend).toInt ∨ s.read type.bits dividend = BitVec.intMin type.bits) :
    (run s (generateIntRemForPower2Denom g instr type (.ofInt 64 d) out dividend)).read type.bits out =
      (s.read type.bits dividend).srem (.ofInt type.bits d) := by
  set n := s.read type.bits dividend with hn
  have hkw := hd.lt_bits_of_natAbs_eq hk
  have hbits := type.bits_le_64
  have habs : (absOrMin (.ofInt 64 d)).toNat = 2 ^ k := by
    rw [toNat_absOrMin, hd.toInt_ofInt_64, hk]
  have hD : (BitVec.ofInt type.bits d).toInt = 2 ^ k ∨ (BitVec.ofInt type.bits d).toInt = -2 ^ k := by
    rw [hd.toInt_ofInt]
    exact SignedDivision.eq_two_pow_or_eq_neg_of_natAbs hk
  refine (SignedDivision.srem_eq_of_toInt hD ?_).symm
  unfold generateIntRemForPower2Denom
  simp only [habs]
  split_ifs with hnn h2
  · -- a non-negative dividend, or `MIN_VALUE`: the mask alone
    simp only [run_cons, run_nil, exec, Operand.value, State.read_write_self _ hbits,
      BitVec.setWidth_eq]
    rw [← hn]
    push_cast
    exact SignedDivision.toInt_and_mask_of_nonneg_or_intMin n hkw (hmin hnn)
  · -- `|d| = 2`: the low bit, negated for a negative dividend
    have hk1 : k = 1 := Nat.pow_right_injective (le_refl 2) (h2.trans (pow_one 2).symm)
    subst hk1
    simp only [run_cons, run_nil, exec, Operand.value, State.read_write_self _ hbits,
      State.read_setSubFlags, State.holds_write, State.holds_ge_setSubFlags_zero,
      BitVec.setWidth_eq]
    rw [← hn]
    have hmask : (n &&& BitVec.ofInt type.bits 1).toInt = n.toInt % 2 :=
      SignedDivision.toInt_and_mask (k := 1) n hkw
    have hneg : (-(n &&& BitVec.ofInt type.bits 1)).toInt = -(n.toInt % 2) :=
      SignedDivision.toInt_neg_and_mask (k := 1) n hkw
    split_ifs with hsign
    · rw [hmask, Int.tmod_eq_emod_of_nonneg (of_decide_eq_true hsign), pow_one]
    · rw [hneg, SignedDivision.tmod_two_pow_of_nonpos (by simp at hsign; omega)]
      omega
  · -- otherwise `csneg` on the sign of `-dividend`
    simp only [run_cons, run_nil, exec, Operand.value, State.read_write_self _ hbits,
      State.read_write_of_ne _ hdividend, State.read_write_of_ne _ hout,
      State.read_write_of_ne _ (Ne.symm hout), State.read_setSubFlags, State.holds,
      State.write_n, State.setSubFlags_n, BitVec.setWidth_eq, BitVec.ofNat_eq_ofNat,
      BitVec.zero_sub]
    rw [← hn]
    push_cast
    exact SignedDivision.toInt_mask_or_neg_mask n hkw

end Power2

/-! ### Division by any other constant -/

section AnyConstant

variable {ι β : Type} [Fintype ι] [DecidableEq ι] [DecidableEq β] (g : HGraph ι β)

/-- `GenerateIncrementNegativeByOne` adds one to a negative `input`; `cinc` reads the sign from
`N`, which the caller has set from the same value. -/
theorem toInt_run_generateIncrementNegativeByOne {w : ℕ} (hw : 1 < w) (hw64 : w ≤ 64) (s : State)
    (out input : Fin 32) (useCondInc : Bool)
    (hflag : useCondInc = true → s.n = decide ((s.read w input).toInt < 0)) :
    ((run s (generateIncrementNegativeByOne w out input useCondInc)).read w out).toInt =
      (s.read w input).toInt + if (s.read w input).toInt < 0 then 1 else 0 := by
  unfold generateIncrementNegativeByOne
  cases useCondInc with
  | false =>
    simp only [Bool.false_eq_true, ↓reduceIte, run_cons, run_nil, exec, Operand.value,
      State.read_write_self _ hw64, BitVec.setWidth_eq]
    exact SignedDivision.toInt_add_ushiftRight _ hw
  | true =>
    simp only [↓reduceIte, run_cons, run_nil, exec, State.read_write_self _ hw64,
      BitVec.setWidth_eq, State.holds, hflag rfl, decide_eq_true_eq]
    split_ifs with h
    · exact SignedDivision.toInt_add_one_of_neg _ hw h
    · rw [Int.add_zero]

/-- `GenerateResultRemWithAnyConstant`: `msub` with the divisor moved into `ip1`. -/
theorem run_generateResultRemWithAnyConstant {w : ℕ} (hw64 : w ≤ 64) (s : State)
    {out dividend quotient : Fin 32} (hdividend : dividend ≠ ip1) (hquotient : quotient ≠ ip1)
    (divisor : BitVec 64) :
    (run s (generateResultRemWithAnyConstant w out dividend quotient divisor)).read w out =
      s.read w dividend - s.read w quotient * BitVec.ofInt w divisor.toInt := by
  simp only [generateResultRemWithAnyConstant, run_cons, run_nil, exec,
    State.read_write_self _ hw64, State.read_write_of_ne _ hdividend,
    State.read_write_of_ne _ hquotient, BitVec.setWidth_eq]

/-- The `asr` of `GenerateInt64DivRemWithAnyConstant`, left out for a zero shift. -/
theorem toInt_run_asr_shift (s : State) (shift : Int) :
    ((run s (if shift ≠ 0 then [.asr 64 ip0 ip0 shift.toNat] else [])).read 64 ip0).toInt =
      (s.read 64 ip0).toInt / 2 ^ shift.toNat := by
  split_ifs with h
  · simp only [run_cons, run_nil, exec, State.read_write_self _ le_rfl, BitVec.setWidth_eq]
    exact SignedDivision.toInt_sshiftRight_eq_ediv _ _
  · obtain rfl : shift = 0 := not_not.1 h
    simp

theorem n_run_asr_shift (s : State) (shift : Int) :
    (run s (if shift ≠ 0 then [.asr 64 ip0 ip0 shift.toNat] else [])).n = s.n := by
  split_ifs <;> rfl

/-- `NeedToAddDividend` and `NeedToSubDividend` are the two corrections of `correctedMagic`. -/
theorem needToAddDividend_ofInt {t : IntType} {d : Int} (hd : t.InRange d) (magic : BitVec 64) :
    needToAddDividend magic (.ofInt 64 d) = decide (0 < d ∧ magic.toInt < 0) := by
  simp [needToAddDividend, hd.toInt_ofInt_64]

theorem needToSubDividend_ofInt {t : IntType} {d : Int} (hd : t.InRange d) (magic : BitVec 64) :
    needToSubDividend magic (.ofInt 64 d) = decide (d < 0 ∧ 0 < magic.toInt) := by
  simp [needToSubDividend, hd.toInt_ofInt_64]

/-- The product of `GenerateInt64DivRemWithAnyConstant`: `smulh` by the magic number, then the
dividend added or subtracted, leave in `ip0` the high half of the product with the corrected
multiplier, and its sign in `N` when a correction ran. -/
theorem run_int64MagicProduct (s : State) {dividend : Fin 32} (hdividend : dividend ≠ ip0)
    (magic : BitVec 64) {d : Int} (hd : IntType.int64.InRange d) {s' : State}
    (hs' : s' = run (run s [.mov 64 ip0 magic.toInt, .smulh ip0 dividend ip0])
      (if needToAddDividend magic (.ofInt 64 d) then [.adds 64 ip0 ip0 (.reg dividend)]
        else if needToSubDividend magic (.ofInt 64 d) then [.subs 64 ip0 ip0 (.reg dividend)]
        else [])) :
    (s'.read 64 ip0).toInt = (s.read 64 dividend).toInt * correctedMagic 64 magic d / 2 ^ 64 ∧
      ((needToAddDividend magic (.ofInt 64 d) || needToSubDividend magic (.ofInt 64 d)) = true →
        s'.n = decide ((s'.read 64 ip0).toInt < 0)) := by
  subst hs'
  set x := s.read 64 dividend with hx
  have hxlo := BitVec.le_toInt x
  have hxhi := BitVec.toInt_lt (x := x)
  have hmlo := BitVec.le_toInt magic
  have hmhi := BitVec.toInt_lt (x := magic)
  have hhigh := fun M => SignedDivision.bmod_mul_ediv_two_pow x (by norm_num) (M := M)
  have hv0 : (BitVec.ofInt 64 (x.toInt * magic.toInt / 2 ^ 64)).toInt =
      x.toInt * magic.toInt / 2 ^ 64 := by
    rw [BitVec.toInt_ofInt, hhigh _ (by omega) (by omega)]
  simp only [run_cons, run_nil, exec, State.read_write_self _ le_rfl,
    State.read_write_of_ne _ hdividend, BitVec.setWidth_eq, BitVec.ofInt_toInt,
    needToAddDividend_ofInt hd, needToSubDividend_ofInt hd]
  unfold correctedMagic
  by_cases hadd : 0 < d ∧ magic.toInt < 0
  · -- `adds`: the multiplier stands for `magic + 2 ^ 64`
    simp only [hadd, and_self, decide_true, ↓reduceIte, Bool.true_or, run_cons, run_nil, exec,
      Operand.value, State.read_write_self _ le_rfl, State.read_write_of_ne _ hdividend,
      BitVec.setWidth_eq, State.write_n, State.setAddFlags_n, BitVec.msb_eq_toInt, forall_const,
      and_true]
    rw [BitVec.toInt_add, hv0, SignedDivision.mul_ediv_two_pow_add, hhigh _ (by omega) (by omega)]
  by_cases hsub : d < 0 ∧ 0 < magic.toInt
  · -- `subs`: the multiplier stands for `magic - 2 ^ 64`
    have hnadd : ¬(0 < d ∧ magic.toInt < 0) := hadd
    simp only [hnadd, hsub, and_self, decide_true, decide_false, Bool.false_eq_true, ↓reduceIte,
      Bool.or_true, run_cons, run_nil, exec, Operand.value, State.read_write_self _ le_rfl,
      State.read_write_of_ne _ hdividend, BitVec.setWidth_eq, State.write_n,
      State.setSubFlags_n, BitVec.msb_eq_toInt, forall_const, and_true]
    rw [BitVec.toInt_sub, hv0, SignedDivision.mul_ediv_two_pow_sub, hhigh _ (by omega) (by omega)]
  · simp only [hadd, hsub, decide_false, Bool.false_eq_true, ↓reduceIte, run_nil, Bool.or_self,
      false_implies, and_true]
    exact hv0

/-- The quotient part of `GenerateInt64DivRemWithAnyConstant`, with the magic number and shift
that `CalculateMagicAndShiftForDivRem` returns for `d`. -/
theorem toInt_run_int64Quotient (s : State) {dividend : Fin 32} (hdividend : dividend ≠ ip0)
    {d : Int} (hd : IntType.int64.InRange d) {magic : BitVec 64} {shift : Int} (hs0 : 0 ≤ shift)
    (hq : ∀ n : Int, -2 ^ 63 ≤ n → n < 2 ^ 63 →
      signedQuotient (correctedMagic 64 magic d) (64 + shift).toNat n = n.tdiv d)
    (out : Fin 32) :
    ((run s ([.mov 64 ip0 magic.toInt, .smulh ip0 dividend ip0] ++
      (if needToAddDividend magic (.ofInt 64 d) then [.adds 64 ip0 ip0 (.reg dividend)]
        else if needToSubDividend magic (.ofInt 64 d) then [.subs 64 ip0 ip0 (.reg dividend)]
        else []) ++
      (if shift ≠ 0 then [.asr 64 ip0 ip0 shift.toNat] else []) ++
      generateIncrementNegativeByOne 64 out ip0
        (needToAddDividend magic (.ofInt 64 d) || needToSubDividend magic (.ofInt 64 d)))).read
        64 out).toInt = (s.read 64 dividend).toInt.tdiv d := by
  obtain ⟨hA, hAflag⟩ := run_int64MagicProduct s hdividend magic hd rfl
  simp only [run_append]
  rw [toInt_run_generateIncrementNegativeByOne (by norm_num) le_rfl, toInt_run_asr_shift, hA,
    Int.ediv_ediv_of_nonneg (by positivity), ← pow_add]
  · -- the sequence computes `signedQuotient` of the corrected multiplier
    have hlo := BitVec.le_toInt (s.read 64 dividend)
    have hhi := BitVec.toInt_lt (x := s.read 64 dividend)
    have h := hq _ hlo hhi
    rw [signedQuotient, show (64 + shift).toNat = 64 + shift.toNat by omega] at h
    exact h
  · -- `cinc` tests the sign of the product before the shift, which the shift keeps
    intro hcond
    rw [n_run_asr_shift, toInt_run_asr_shift, hAflag hcond, decide_eq_decide,
      SignedDivision.ediv_two_pow_neg_iff]

/-- `GenerateInt64DivRemWithAnyConstant` leaves `dividend / d` or `dividend % d` in `out`. -/
theorem generateInt64DivRemWithAnyConstant_correct (isDiv : Bool) {d : Int}
    (hd : IntType.int64.InRange d) (habs : 2 ≤ d.natAbs) (hpow : ∀ j, d.natAbs ≠ 2 ^ j)
    {out dividend : Fin 32} (hdividend0 : dividend ≠ ip0) (hdividend1 : dividend ≠ ip1)
    (s : State) :
    (run s (generateInt64DivRemWithAnyConstant isDiv (.ofInt 64 d) out dividend)).read 64 out =
      if isDiv then (s.read 64 dividend).sdiv (.ofInt 64 d)
      else (s.read 64 dividend).srem (.ofInt 64 d) := by
  obtain ⟨magic, shift, hcalc, hs0, -, hq⟩ := calculateMagicAndShiftForDivRem_spec true d
    (by simpa [divWidth] using hd.1) (by simpa [divWidth] using hd.2) habs hpow
  have hq' : ∀ n : Int, -2 ^ 63 ≤ n → n < 2 ^ 63 →
      signedQuotient (correctedMagic 64 magic d) (64 + shift).toNat n = n.tdiv d := by
    simpa [divWidth] using hq
  -- the quotient, left in `out` or in `ip0`
  have hquot := fun r => SignedDivision.sdiv_eq_of_toInt_eq_tdiv (n := s.read 64 dividend)
    (d := BitVec.ofInt 64 d) ((toInt_run_int64Quotient s hdividend0 hd hs0 hq' r).trans (by rw [hd.toInt_ofInt_64]))
  unfold generateInt64DivRemWithAnyConstant
  rw [hcalc 64 (by simp [divWidth])]
  cases isDiv with
  | true =>
    simp only [↓reduceIte]
    exact (hquot out).symm
  | false =>
    simp only [Bool.false_eq_true, ↓reduceIte]
    rw [← List.append_assoc, run_append,
      run_generateResultRemWithAnyConstant le_rfl _ hdividend1 (by decide), BitVec.ofInt_toInt,
      read_run_of_dest_ne ?frame, ← hquot ip0, SignedDivision.sub_sdiv_mul]
    -- the quotient code writes only `ip0`
    unfold generateIncrementNegativeByOne
    split_ifs <;> simp [Instr.dest, Ne.symm hdividend0]

/-- `lsl #32` of an `X` register: its low `W` half, read signed, times `2 ^ 32`. -/
theorem shiftLeft_32_eq_ofInt (x : BitVec 64) :
    x <<< 32 = BitVec.ofInt 64 ((x.setWidth 32).toInt * 2 ^ 32) := by
  apply BitVec.eq_of_toNat_eq
  rw [BitVec.toNat_shiftLeft, BitVec.toNat_ofInt, BitVec.toInt_eq_toNat_cond, BitVec.toNat_setWidth,
    Nat.shiftLeft_eq]
  have := x.isLt
  split_ifs <;> omega

/-- The product of `GenerateInt32DivRemWithAnyConstant`: `smull` by the magic number, then the
dividend shifted into the high half added or subtracted, leave in `ip0` the exact product with the
corrected multiplier, and its sign in `N` when a correction ran. Only `ip0` changes. -/
theorem run_int32MagicProduct (s : State) {dividend : Fin 32} (hdividend : dividend ≠ ip0)
    {magic : BitVec 64} (hm : -2 ^ 31 ≤ magic.toInt ∧ magic.toInt < 2 ^ 31) {d : Int}
    (hd : IntType.int32.InRange d) (rest : List Instr) :
    ∃ s', run s ([.mov 32 ip0 magic.toInt, .smull ip0 dividend ip0] ++
        (if needToAddDividend magic (.ofInt 64 d) then [.adds 64 ip0 ip0 (.shifted dividend .lsl 32)]
          else if needToSubDividend magic (.ofInt 64 d) then
            [.subs 64 ip0 ip0 (.shifted dividend .lsl 32)]
          else []) ++ rest) = run s' rest ∧
      (s'.read 64 ip0).toInt = (s.read 32 dividend).toInt * correctedMagic 32 magic d ∧
      ((needToAddDividend magic (.ofInt 64 d) || needToSubDividend magic (.ofInt 64 d)) = true →
        s'.n = decide ((s'.read 64 ip0).toInt < 0)) ∧
      ∀ v r, r ≠ ip0 → s'.read v r = s.read v r := by
  set x := s.read 32 dividend with hx
  have hxlo := BitVec.le_toInt x
  have hxhi := BitVec.toInt_lt (x := x)
  obtain ⟨hmlo, hmhi⟩ := hm
  have hm32 : (BitVec.ofInt 32 magic.toInt).toInt = magic.toInt :=
    BitVec.toInt_ofInt_eq_self (by norm_num) hmlo hmhi
  -- every multiplier that occurs is below `2 ^ 32` in size: the product is exact in 64 bits
  have hexact : ∀ M : Int, -2 ^ 32 < M → M < 2 ^ 32 →
      (x.toInt * M).bmod (2 ^ 64) = x.toInt * M := fun M h1 h2 => by
    have hxa : |x.toInt| ≤ 2 ^ 31 := abs_le.2 ⟨by omega, by omega⟩
    have hMa : |M| ≤ 2 ^ 32 - 1 := abs_le.2 ⟨by omega, by omega⟩
    have hprod : |x.toInt * M| ≤ 2 ^ 31 * (2 ^ 32 - 1) := by
      rw [abs_mul]
      exact mul_le_mul hxa hMa (abs_nonneg _) (by norm_num)
    have := abs_le.1 hprod
    exact SignedDivision.bmod_two_pow_eq_self (by norm_num) (by omega) (by omega)
  have hshl : s.read 64 dividend <<< 32 = BitVec.ofInt 64 (x.toInt * 2 ^ 32) := by
    rw [shiftLeft_32_eq_ofInt, State.read_64_setWidth_32]
  refine ⟨_, by rw [run_append], ?_, ?_, fun v r hr => ?_⟩
  · simp only [run_append, run_cons, run_nil, exec, State.read_write_self _ (by norm_num : 32 ≤ 64),
      State.read_write_of_ne _ hdividend, BitVec.setWidth_eq, hm32,
      needToAddDividend_ofInt hd, needToSubDividend_ofInt hd]
    rw [← hx]
    unfold correctedMagic
    by_cases hadd : 0 < d ∧ magic.toInt < 0
    · -- `adds`: the multiplier stands for `magic + 2 ^ 32`
      simp only [hadd, and_self, decide_true, ↓reduceIte, run_cons, run_nil, exec, Operand.value,
        State.read_write_self _ le_rfl, State.read_write_of_ne _ hdividend, BitVec.setWidth_eq]
      rw [hshl, ← BitVec.ofInt_add, BitVec.toInt_ofInt, ← Int.mul_add, hexact _ (by omega) (by omega)]
    by_cases hsub : d < 0 ∧ 0 < magic.toInt
    · -- `subs`: the multiplier stands for `magic - 2 ^ 32`
      have hnadd : ¬(0 < d ∧ magic.toInt < 0) := hadd
      simp only [hnadd, hsub, and_self, decide_true, decide_false, Bool.false_eq_true, ↓reduceIte,
        run_cons, run_nil, exec, Operand.value, State.read_write_self _ le_rfl,
        State.read_write_of_ne _ hdividend, BitVec.setWidth_eq]
      rw [hshl, BitVec.sub_eq_add_neg, ← BitVec.ofInt_neg, ← BitVec.ofInt_add, BitVec.toInt_ofInt,
        show x.toInt * magic.toInt + -(x.toInt * 2 ^ 32) = x.toInt * (magic.toInt - 2 ^ 32) by ring,
        hexact _ (by omega) (by omega)]
    · simp only [hadd, hsub, decide_false, Bool.false_eq_true, ↓reduceIte, run_nil,
        State.read_write_self _ le_rfl, BitVec.setWidth_eq, BitVec.toInt_ofInt]
      exact hexact _ (by omega) (by omega)
  · simp only [needToAddDividend_ofInt hd, needToSubDividend_ofInt hd]
    by_cases hadd : 0 < d ∧ magic.toInt < 0
    · simp only [hadd, and_self, decide_true, ↓reduceIte, Bool.true_or, run_append, run_cons,
        run_nil, exec, State.write_n, State.setAddFlags_n, State.read_write_self _ le_rfl,
        BitVec.setWidth_eq, BitVec.msb_eq_toInt, forall_const]
    by_cases hsub : d < 0 ∧ 0 < magic.toInt
    · have hnadd : ¬(0 < d ∧ magic.toInt < 0) := hadd
      simp only [hnadd, hsub, and_self, decide_true, decide_false, Bool.false_eq_true, ↓reduceIte,
        Bool.or_true, run_append, run_cons, run_nil, exec, State.write_n, State.setSubFlags_n,
        State.read_write_self _ le_rfl, BitVec.setWidth_eq, BitVec.msb_eq_toInt, forall_const]
    · simp [hadd, hsub]
  · -- the frame: every instruction writes `ip0`
    apply read_run_of_dest_ne
    split_ifs <;> simp [Instr.dest, Ne.symm hr]

/-- The `lsr` of `GenerateInt32DivRemWithAnyConstant` for a non-negative product: the quotient
in the low half of `r`. -/
theorem toInt_exec_lsr_32 (s : State) (r : Fin 32) (p : ℕ) (hv : 0 ≤ (s.read 64 ip0).toInt)
    (hq : (s.read 64 ip0).toInt / 2 ^ p < 2 ^ 31) :
    ((exec s (.lsr 64 r ip0 p)).read 32 r).toInt = (s.read 64 ip0).toInt / 2 ^ p := by
  have hpos : 0 ≤ (s.read 64 ip0).toInt / 2 ^ p := Int.ediv_nonneg hv (by positivity)
  simp only [exec, State.read_write_self _ (by norm_num : 32 ≤ 64)]
  rw [BitVec.toInt_setWidth_eq_bmod _ (by norm_num),
    SignedDivision.toInt_ushiftRight_of_nonneg _ hv,
    SignedDivision.bmod_two_pow_eq_self (by norm_num) (by omega) (by omega)]

/-- The `asr` and the increment of `GenerateInt32DivRemWithAnyConstant`: the shifted product,
one more when negative, in the low half of `out`, when it fits. -/
theorem toInt_run_asr_increment_32 (s : State) (out : Fin 32) (p : ℕ) (useCondInc : Bool)
    (hq : -2 ^ 31 ≤ (s.read 64 ip0).toInt / 2 ^ p ∧ (s.read 64 ip0).toInt / 2 ^ p < 2 ^ 31)
    (hflag : useCondInc = true → s.n = decide ((s.read 64 ip0).toInt < 0)) :
    ((run s (.asr 64 ip0 ip0 p :: generateIncrementNegativeByOne 32 out ip0 useCondInc)).read 32
        out).toInt =
      (s.read 64 ip0).toInt / 2 ^ p + if (s.read 64 ip0).toInt / 2 ^ p < 0 then 1 else 0 := by
  have hlow : ((exec s (.asr 64 ip0 ip0 p)).read 32 ip0).toInt = (s.read 64 ip0).toInt / 2 ^ p := by
    simp only [exec, State.read_write_self _ (by norm_num : 32 ≤ 64)]
    rw [BitVec.toInt_setWidth_eq_bmod _ (by norm_num), SignedDivision.toInt_sshiftRight_eq_ediv,
      SignedDivision.bmod_two_pow_eq_self (by norm_num) hq.1 hq.2]
  rw [run_cons, toInt_run_generateIncrementNegativeByOne (by norm_num) (by norm_num), hlow]
  -- the shift keeps the sign that `N` holds
  intro h
  rw [show (exec s (.asr 64 ip0 ip0 p)).n = s.n from rfl, hlow, hflag h, decide_eq_decide,
    SignedDivision.ediv_two_pow_neg_iff]

/-- `GenerateInt32DivRemWithAnyConstant` leaves `dividend / d` or `dividend % d` in `out`. -/
theorem generateInt32DivRemWithAnyConstant_correct (instr : ι) (isDiv : Bool) {d : Int}
    (hd : IntType.int32.InRange d) (habs : 2 ≤ d.natAbs) (hpow : ∀ j, d.natAbs ≠ 2 ^ j)
    {out dividend : Fin 32} (hdividend0 : dividend ≠ ip0) (hdividend1 : dividend ≠ ip1)
    (s : State) (hnonneg : hasNonNegativeInputAt g instr 0 = true → 0 ≤ (s.read 32 dividend).toInt) :
    (run s (generateInt32DivRemWithAnyConstant g instr isDiv (.ofInt 64 d) out dividend)).read 32
        out =
      if isDiv then (s.read 32 dividend).sdiv (.ofInt 32 d)
      else (s.read 32 dividend).srem (.ofInt 32 d) := by
  obtain ⟨magic, shift, hcalc, hs0, -, hq⟩ := calculateMagicAndShiftForDivRem_spec false d
    (by simpa [divWidth] using hd.1) (by simpa [divWidth] using hd.2) habs hpow
  have hm := calculateMagicAndShiftForDivRem_int32_magic (hcalc 32 (by simp [divWidth]))
  set x := s.read 32 dividend with hx
  have hxlo := BitVec.le_toInt x
  have hxhi := BitVec.toInt_lt (x := x)
  have hqx : signedQuotient (correctedMagic 32 magic d) (32 + shift).toNat x.toInt =
      x.toInt.tdiv d := by
    simpa [divWidth] using hq x.toInt (by simpa [divWidth] using hxlo) (by simpa [divWidth] using hxhi)
  have hrange := SignedDivision.tdiv_mem_half_range (w := 32) (by norm_num) hxlo hxhi habs
  -- a value whose integer is the truncating quotient is `sdiv`
  have hquot : ∀ q : BitVec 32, q.toInt = x.toInt.tdiv d → x.sdiv (.ofInt 32 d) = q := fun q h =>
    SignedDivision.sdiv_eq_of_toInt_eq_tdiv (by rw [h, hd.toInt_ofInt])
  have hdivisor : BitVec.ofInt 32 (BitVec.ofInt 64 d).toInt = BitVec.ofInt 32 d := by
    rw [hd.toInt_ofInt_64]
  unfold generateInt32DivRemWithAnyConstant
  rw [hcalc 64 (by simp [divWidth])]
  dsimp only
  obtain ⟨s1, hrun, hA, hAflag, hframe⟩ := run_int32MagicProduct s hdividend0 hm hd _
  rw [hrun]
  -- `t`, the floor of the product by `2 ^ (32 + shift)`, is the quotient up to the increment
  have htq : (s1.read 64 ip0).toInt / 2 ^ (32 + shift).toNat +
      (if (s1.read 64 ip0).toInt / 2 ^ (32 + shift).toNat < 0 then 1 else 0) = x.toInt.tdiv d := by
    rw [hA, ← hqx]
    rfl
  have htrange : -2 ^ 31 ≤ (s1.read 64 ip0).toInt / 2 ^ (32 + shift).toNat ∧
      (s1.read 64 ip0).toInt / 2 ^ (32 + shift).toNat < 2 ^ 31 := by
    split_ifs at htq <;> omega
  by_cases hc : (0 < (BitVec.ofInt 64 d).toInt && hasNonNegativeInputAt g instr 0) = true
  · -- a positive divisor and a non-negative dividend: a logical shift and no increment
    rw [if_pos hc]
    rw [Bool.and_eq_true, decide_eq_true_eq, hd.toInt_ofInt_64] at hc
    have hM : 0 ≤ correctedMagic 32 magic d := by
      unfold correctedMagic
      split_ifs <;> omega
    have hv : 0 ≤ (s1.read 64 ip0).toInt := by
      rw [hA]
      exact Int.mul_nonneg (hnonneg hc.2) hM
    have ht : (s1.read 64 ip0).toInt / 2 ^ (32 + shift).toNat = x.toInt.tdiv d := by
      have := Int.ediv_nonneg hv (show (0 : Int) ≤ 2 ^ (32 + shift).toNat by positivity)
      rw [if_neg (by omega)] at htq
      omega
    cases isDiv with
    | true =>
      simp only [↓reduceIte, run_cons, run_nil]
      exact (hquot _ ((toInt_exec_lsr_32 s1 out _ hv htrange.2).trans ht)).symm
    | false =>
      simp only [Bool.false_eq_true, ↓reduceIte]
      rw [run_cons, run_generateResultRemWithAnyConstant (by norm_num) _ hdividend1 (by decide),
        read_exec_of_dest_ne (by simp [Instr.dest, Ne.symm hdividend0]), hframe 32 _ hdividend0, ← hx,
        hdivisor, ← hquot _ ((toInt_exec_lsr_32 s1 ip0 _ hv htrange.2).trans ht),
        SignedDivision.sub_sdiv_mul]
  · -- otherwise an arithmetic shift, then one more for a negative quotient
    rw [if_neg hc]
    have hflag := hAflag
    cases isDiv with
    | true =>
      simp only [↓reduceIte]
      exact (hquot _ ((toInt_run_asr_increment_32 s1 out _ _ htrange hflag).trans htq)).symm
    | false =>
      simp only [Bool.false_eq_true, ↓reduceIte]
      rw [← List.cons_append, run_append,
        run_generateResultRemWithAnyConstant (by norm_num) _ hdividend1 (by decide),
        read_run_of_dest_ne ?frame, hframe 32 _ hdividend0, ← hx, hdivisor,
        ← hquot _ ((toInt_run_asr_increment_32 s1 ip0 _ _ htrange hflag).trans htq),
        SignedDivision.sub_sdiv_mul]
      -- the quotient code writes only `ip0`
      unfold generateIncrementNegativeByOne
      split_ifs <;> simp [Instr.dest, Ne.symm hdividend0]

/-- The quotient code of `GenerateInt64UnsignedDivRemWithAnyPositiveConstant` for a non-negative
dividend and a positive divisor: the high half of the product, the dividend added back for a
negative magic number, then a logical shift. -/
theorem toInt_run_unsignedDivCode (s : State) {dividend : Fin 32} (hdividend : dividend ≠ ip0)
    {d : Int} (hd0 : 0 < d) {magic : BitVec 64} {shift : Int} (hs0 : 0 ≤ shift)
    (hq : ∀ n : Int, -2 ^ 63 ≤ n → n < 2 ^ 63 →
      signedQuotient (correctedMagic 64 magic d) (64 + shift).toNat n = n.tdiv d)
    (hx0 : 0 ≤ (s.read 64 dividend).toInt) (out : Fin 32) :
    ((run s (.mov 64 ip0 magic.toInt ::
      if 0 < magic.toInt && shift = 0 then [.smulh out dividend ip0]
      else .smulh ip0 dividend ip0 ::
        ((if magic.toInt < 0 then [.add 64 ip0 ip0 (.reg dividend)] else []) ++
          [.lsr 64 out ip0 shift.toNat]))).read 64 out).toInt =
      (s.read 64 dividend).toInt.tdiv d := by
  set x := s.read 64 dividend with hx
  have hmlo := BitVec.le_toInt magic
  have hmhi := BitVec.toInt_lt (x := magic)
  have hhigh := fun M => SignedDivision.bmod_mul_ediv_two_pow x (by norm_num) (M := M)
  -- with a positive divisor the multiplier is `magic`, moved up by `2 ^ 64` when negative
  have hM : correctedMagic 64 magic d =
      if magic.toInt < 0 then magic.toInt + 2 ^ 64 else magic.toInt := by
    unfold correctedMagic
    split_ifs <;> omega
  have hMnn : 0 ≤ correctedMagic 64 magic d := by
    rw [hM]
    split_ifs <;> omega
  -- the floor is non-negative, so it is the quotient
  have ht : x.toInt * correctedMagic 64 magic d / 2 ^ 64 / 2 ^ shift.toNat = x.toInt.tdiv d := by
    have h := hq x.toInt (BitVec.le_toInt x) BitVec.toInt_lt
    have hnn : 0 ≤ x.toInt * correctedMagic 64 magic d / 2 ^ (64 + shift.toNat) :=
      Int.ediv_nonneg (Int.mul_nonneg hx0 hMnn) (by positivity)
    rw [signedQuotient, show (64 + shift).toNat = 64 + shift.toNat by omega,
      if_neg (by omega), Int.add_zero] at h
    rw [Int.ediv_ediv_of_nonneg (by positivity), ← pow_add, h]
  by_cases hshort : (0 < magic.toInt && shift = 0) = true
  · -- `smulh` alone
    rw [Bool.and_eq_true, decide_eq_true_eq, decide_eq_true_eq] at hshort
    rw [if_pos (by simp [hshort])]
    simp only [run_cons, run_nil, exec, State.read_write_self _ le_rfl,
      State.read_write_of_ne _ hdividend, BitVec.setWidth_eq, BitVec.ofInt_toInt, ← hx]
    rw [BitVec.toInt_ofInt, hhigh _ (by omega) (by omega), ← ht, hM, if_neg (by omega), hshort.2]
    simp
  · rw [if_neg hshort]
    have hv0 : (BitVec.ofInt 64 (x.toInt * magic.toInt / 2 ^ 64)).toInt =
        x.toInt * magic.toInt / 2 ^ 64 := by
      rw [BitVec.toInt_ofInt, hhigh _ (by omega) (by omega)]
    -- the value that the logical shift reads: the high half of the corrected product
    have hv1 : ((run (exec (exec s (.mov 64 ip0 magic.toInt)) (.smulh ip0 dividend ip0))
        (if magic.toInt < 0 then [.add 64 ip0 ip0 (.reg dividend)] else [])).read 64 ip0).toInt =
        x.toInt * correctedMagic 64 magic d / 2 ^ 64 := by
      simp only [exec, State.read_write_self _ le_rfl, State.read_write_of_ne _ hdividend,
        BitVec.setWidth_eq, BitVec.ofInt_toInt, ← hx]
      rw [hM]
      split_ifs with hneg
      · simp only [run_cons, run_nil, exec, Operand.value, State.read_write_self _ le_rfl,
          State.read_write_of_ne _ hdividend, BitVec.setWidth_eq, ← hx]
        rw [BitVec.toInt_add, hv0, SignedDivision.mul_ediv_two_pow_add,
          hhigh _ (by omega) (by omega)]
      · simpa using hv0
    have hv1nn : 0 ≤ x.toInt * correctedMagic 64 magic d / 2 ^ 64 :=
      Int.ediv_nonneg (Int.mul_nonneg hx0 hMnn) (by positivity)
    have hlsr : ∀ s' : State, (exec s' (.lsr 64 out ip0 shift.toNat)).read 64 out =
        s'.read 64 ip0 >>> shift.toNat := fun s' => by
      simp [exec]
    rw [run_cons, run_cons, run_append, run_cons, run_nil, hlsr,
      SignedDivision.toInt_ushiftRight_of_nonneg _ (by rw [hv1]; exact hv1nn), hv1, ht]

/-- `GenerateInt64UnsignedDivRemWithAnyPositiveConstant` leaves `dividend / d` or `dividend % d`
in `out` for a non-negative dividend and a positive divisor. -/
theorem generateInt64UnsignedDivRemWithAnyPositiveConstant_correct (isDiv : Bool) {d : Int}
    (hd : IntType.int64.InRange d) (hd0 : 0 < d) (habs : 2 ≤ d.natAbs) (hpow : ∀ j, d.natAbs ≠ 2 ^ j)
    {out dividend : Fin 32} (hdividend0 : dividend ≠ ip0) (hdividend1 : dividend ≠ ip1)
    (s : State) (hx0 : 0 ≤ (s.read 64 dividend).toInt) :
    (run s (generateInt64UnsignedDivRemWithAnyPositiveConstant isDiv (.ofInt 64 d) out
        dividend)).read 64 out =
      if isDiv then (s.read 64 dividend).sdiv (.ofInt 64 d)
      else (s.read 64 dividend).srem (.ofInt 64 d) := by
  obtain ⟨magic, shift, hcalc, hs0, -, hq⟩ := calculateMagicAndShiftForDivRem_spec true d
    (by simpa [divWidth] using hd.1) (by simpa [divWidth] using hd.2) habs hpow
  have hq' : ∀ n : Int, -2 ^ 63 ≤ n → n < 2 ^ 63 →
      signedQuotient (correctedMagic 64 magic d) (64 + shift).toNat n = n.tdiv d := by
    simpa [divWidth] using hq
  have hquot := fun r => SignedDivision.sdiv_eq_of_toInt_eq_tdiv (n := s.read 64 dividend)
    (d := BitVec.ofInt 64 d)
    ((toInt_run_unsignedDivCode s hdividend0 hd0 hs0 hq' hx0 r).trans (by rw [hd.toInt_ofInt_64]))
  unfold generateInt64UnsignedDivRemWithAnyPositiveConstant
  rw [hcalc 64 (by simp [divWidth])]
  cases isDiv with
  | true =>
    simp only [↓reduceIte]
    exact (hquot out).symm
  | false =>
    simp only [Bool.false_eq_true, ↓reduceIte]
    rw [run_append, run_generateResultRemWithAnyConstant le_rfl _ hdividend1 (by decide),
      BitVec.ofInt_toInt, read_run_of_dest_ne ?frame, ← hquot ip0, SignedDivision.sub_sdiv_mul]
    -- the quotient code writes only `ip0`
    split_ifs <;> simp [Instr.dest, Ne.symm hdividend0]

/-- `GenerateDivRemWithAnyConstant`: the unsigned code for a `long` dividend that the analysis
shows non-negative and a positive divisor, the signed code otherwise. -/
theorem generateDivRemWithAnyConstant_correct (instr : ι) (isDiv : Bool) (type : IntType) {d : Int}
    (hd : type.InRange d) (habs : 2 ≤ d.natAbs) (hpow : ∀ j, d.natAbs ≠ 2 ^ j)
    {out dividend : Fin 32} (hdividend0 : dividend ≠ ip0) (hdividend1 : dividend ≠ ip1)
    (s : State)
    (hnonneg : hasNonNegativeInputAt g instr 0 = true → 0 ≤ (s.read type.bits dividend).toInt) :
    (run s (generateDivRemWithAnyConstant g instr isDiv type (.ofInt 64 d) out dividend)).read
        type.bits out =
      if isDiv then (s.read type.bits dividend).sdiv (.ofInt type.bits d)
      else (s.read type.bits dividend).srem (.ofInt type.bits d) := by
  cases type with
  | int64 =>
    simp only [generateDivRemWithAnyConstant]
    by_cases hc : (0 < (BitVec.ofInt 64 d).toInt && hasNonNegativeInputAt g instr 0) = true
    · rw [if_pos hc]
      rw [Bool.and_eq_true, decide_eq_true_eq, hd.toInt_ofInt_64] at hc
      exact generateInt64UnsignedDivRemWithAnyPositiveConstant_correct isDiv hd hc.1 habs hpow
        hdividend0 hdividend1 s (hnonneg hc.2)
    · rw [if_neg hc]
      exact generateInt64DivRemWithAnyConstant_correct isDiv hd habs hpow hdividend0 hdividend1 s
  | int32 =>
    exact generateInt32DivRemWithAnyConstant_correct g instr isDiv hd habs hpow hdividend0
      hdividend1 s hnonneg

end AnyConstant

/-! ### Division by a constant -/

section ConstDenom

variable {ι β : Type} [Fintype ι] [DecidableEq ι] [DecidableEq β] (g : HGraph ι β)

/-- `GenerateIntDivForConstDenom` leaves Java's `dividend / d` in `out`, for every non-zero
divisor of the type. The analysis facts are what `HasNonNegativeInputAt` and
`HasNonNegativeOrMinIntInputAt` promise. -/
theorem generateIntDivForConstDenom_correct (instr : ι) (type : IntType) {d : Int}
    (hd : type.InRange d) (hd0 : d ≠ 0) {out dividend : Fin 32} (hdividend0 : dividend ≠ ip0)
    (hdividend1 : dividend ≠ ip1) (s : State)
    (hnonneg : hasNonNegativeInputAt g instr 0 = true → 0 ≤ (s.read type.bits dividend).toInt)
    (hmin : hasNonNegativeOrMinIntInputAt g instr 0 = true →
      0 ≤ (s.read type.bits dividend).toInt ∨ s.read type.bits dividend = BitVec.intMin type.bits) :
    (run s (generateIntDivForConstDenom g instr type (.ofInt 64 d) out dividend)).read type.bits
        out = (s.read type.bits dividend).sdiv (.ofInt type.bits d) := by
  obtain ⟨himm, hpow2, hother⟩ := constDenom_cases hd hd0
  unfold generateIntDivForConstDenom
  rw [if_neg himm]
  cases hp : isPowerOfTwo (absOrMin (.ofInt 64 d)) with
  | true =>
    obtain ⟨k, hk⟩ := hpow2 hp
    exact generateIntDivForPower2Denom_correct g instr type hd hk hdividend0 s hmin
  | false =>
    obtain ⟨habs, hpow⟩ := hother hp
    simpa using generateDivRemWithAnyConstant_correct g instr true type hd habs hpow hdividend0
      hdividend1 s hnonneg

/-- `GenerateIntRemForConstDenom` leaves Java's `dividend % d` in `out`, for every non-zero
divisor of the type. -/
theorem generateIntRemForConstDenom_correct (instr : ι) (type : IntType) {d : Int}
    (hd : type.InRange d) (hd0 : d ≠ 0) {out dividend : Fin 32} (hout : out ≠ ip0)
    (hdividend0 : dividend ≠ ip0) (hdividend1 : dividend ≠ ip1) (s : State)
    (hnonneg : hasNonNegativeInputAt g instr 0 = true → 0 ≤ (s.read type.bits dividend).toInt)
    (hmin : hasNonNegativeOrMinIntInputAt g instr 0 = true →
      0 ≤ (s.read type.bits dividend).toInt ∨ s.read type.bits dividend = BitVec.intMin type.bits) :
    (run s (generateIntRemForConstDenom g instr type (.ofInt 64 d) out dividend)).read type.bits
        out = (s.read type.bits dividend).srem (.ofInt type.bits d) := by
  obtain ⟨himm, hpow2, hother⟩ := constDenom_cases hd hd0
  unfold generateIntRemForConstDenom
  rw [if_neg himm]
  cases hp : isPowerOfTwo (absOrMin (.ofInt 64 d)) with
  | true =>
    obtain ⟨k, hk⟩ := hpow2 hp
    exact generateIntRemForPower2Denom_correct g instr type hd hk hout hdividend0 s hmin
  | false =>
    obtain ⟨habs, hpow⟩ := hother hp
    simpa using generateDivRemWithAnyConstant_correct g instr false type hd habs hpow hdividend0
      hdividend1 s hnonneg

end ConstDenom

end Arm64

end Art
