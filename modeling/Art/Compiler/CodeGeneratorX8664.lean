import Art.Compiler.CodeGeneratorUtils
import Art.Lib.SignedDivision

/-!
# Division by a constant on x86-64 (`compiler/optimizing/code_generator_x86_64.cc`)

The instructions `InstructionCodeGeneratorX86_64::GenerateDivRemIntegral` emits for an `HDiv` or
`HRem` whose divisor is a constant: `DivRemOneOrMinusOne`, `DivByPowerOfTwo`, `RemByPowerOfTwo`
and `GenerateDivRemWithAnyConstant`, as lists of `X86_64Assembler` instructions, and what they
compute. The locations (`LocationsBuilderX86_64::VisitDiv`, `VisitRem`) fix the dividend in `rax`,
the quotient in `rax` and the remainder in `rdx`; `rdx` is the first temporary of a division and
one more temporary `temp`, some other register, holds the numerator.

An instruction carries its operand size in bits (`l` is 32, `q` is 64); a 32-bit result clears
the upper half of its register. `and` and `test` set `ZF` and `SF` and clear `OF`, which
`j(kZero)` and `cmov` read; the flags the other instructions set are never read by these
sequences, and the model leaves them as they were. `j(kZero, &done)` is a forward jump over the
instructions up to `Bind(&done)`, given by their number.

Every sequence leaves Java's quotient or remainder in its output register
(`generateDivRemIntegral_correct`).
-/

namespace Art

open MagicDivision

namespace X8664

/-- The general registers. -/
inductive Reg where
  | rax | rcx | rdx | rbx | rsp | rbp | rsi | rdi
  | r8 | r9 | r10 | r11 | r12 | r13 | r14 | r15
  deriving DecidableEq, Repr

/-- The conditions the division code tests. -/
inductive Condition where
  | zero | less | greaterEqual
  deriving DecidableEq, Repr

/-- The instructions of the division code; `w` is the operand size in bits. -/
inductive Instr where
  | mov (w : ℕ) (dst src : Reg)
  /-- `movl` of an immediate, and `Load64BitValue`. -/
  | movImm (w : ℕ) (dst : Reg) (imm : Int)
  /-- `leal dst, [base + disp]`. -/
  | lea (dst base : Reg) (disp : Int)
  | add (w : ℕ) (dst src : Reg)
  | sub (w : ℕ) (dst src : Reg)
  | neg (w : ℕ) (dst : Reg)
  | and (w : ℕ) (dst src : Reg)
  | andImm (w : ℕ) (dst : Reg) (imm : Int)
  | or (w : ℕ) (dst src : Reg)
  | xor (w : ℕ) (dst src : Reg)
  | test (w : ℕ) (a b : Reg)
  | shl (w : ℕ) (dst : Reg) (n : ℕ)
  | shr (w : ℕ) (dst : Reg) (n : ℕ)
  | sar (w : ℕ) (dst : Reg) (n : ℕ)
  /-- `cmov`, of the whole register or, when `is64bit` is false, of the low half. -/
  | cmov (cond : Condition) (dst src : Reg) (is64bit : Bool)
  /-- The one-operand signed multiply: `rdx:rax = rax * src`. -/
  | imul (w : ℕ) (src : Reg)
  /-- `imul dst, imm`: the low half of the product. -/
  | imulImm (w : ℕ) (dst : Reg) (imm : Int)
  /-- `j(kZero, &done)`, with the number of instructions it jumps over. -/
  | jz (skip : ℕ)
  deriving DecidableEq, Repr

/-- The general registers and the flags the division code reads. -/
structure State where
  x : Reg → BitVec 64
  zf : Bool
  sf : Bool
  of : Bool

namespace State

variable (s : State)

/-- A register read at `w` bits: its low `w` bits. -/
def read (w : ℕ) (r : Reg) : BitVec w :=
  (s.x r).setWidth w

/-- A `w`-bit result written to a register, zero-extended. -/
def write {w : ℕ} (r : Reg) (value : BitVec w) : State :=
  { s with x := Function.update s.x r (value.setWidth 64) }

/-- The flags of a logical result (`and`, `test`). -/
def setLogicFlags {w : ℕ} (value : BitVec w) : State :=
  { s with zf := value == 0, sf := value.msb, of := false }

/-- Whether a condition holds on the flags. -/
def holds : Condition → Bool
  | .zero => s.zf
  | .less => s.sf != s.of
  | .greaterEqual => s.sf == s.of

end State

/-- One instruction other than a jump. -/
def exec (s : State) : Instr → State
  | .mov w dst src => s.write dst (s.read w src)
  | .movImm w dst imm => s.write dst (BitVec.ofInt w imm)
  | .lea dst base disp => s.write dst (s.read 32 base + BitVec.ofInt 32 disp)
  | .add w dst src => s.write dst (s.read w dst + s.read w src)
  | .sub w dst src => s.write dst (s.read w dst - s.read w src)
  | .neg w dst => s.write dst (-s.read w dst)
  | .and w dst src =>
    (s.setLogicFlags (s.read w dst &&& s.read w src)).write dst (s.read w dst &&& s.read w src)
  | .andImm w dst imm =>
    (s.setLogicFlags (s.read w dst &&& BitVec.ofInt w imm)).write dst
      (s.read w dst &&& BitVec.ofInt w imm)
  | .or w dst src => s.write dst (s.read w dst ||| s.read w src)
  | .xor w dst src => s.write dst (s.read w dst ^^^ s.read w src)
  | .test w a b => s.setLogicFlags (s.read w a &&& s.read w b)
  | .shl w dst n => s.write dst (s.read w dst <<< n)
  | .shr w dst n => s.write dst (s.read w dst >>> n)
  | .sar w dst n => s.write dst ((s.read w dst).sshiftRight n)
  | .cmov cond dst src is64bit =>
    if is64bit then (if s.holds cond then s.write dst (s.read 64 src) else s)
    else s.write dst (if s.holds cond then s.read 32 src else s.read 32 dst)
  | .imul w src =>
    let product := (s.read w .rax).toInt * (s.read w src).toInt
    (s.write .rax (BitVec.ofInt w product)).write .rdx (BitVec.ofInt w (product / 2 ^ w))
  | .imulImm w dst imm => s.write dst (s.read w dst * BitVec.ofInt w imm)
  | .jz _ => s

/-- A sequence of instructions; `jz` skips forward when `ZF` is set. The other instructions are
listed one by one so that each has its own equation. -/
def run (s : State) : List Instr → State
  | [] => s
  | .jz skip :: code => if s.zf then run s (code.drop skip) else run s code
  | i@(.mov ..) :: code | i@(.movImm ..) :: code | i@(.lea ..) :: code | i@(.add ..) :: code
  | i@(.sub ..) :: code | i@(.neg ..) :: code | i@(.and ..) :: code | i@(.andImm ..) :: code
  | i@(.or ..) :: code | i@(.xor ..) :: code | i@(.test ..) :: code | i@(.shl ..) :: code
  | i@(.shr ..) :: code | i@(.sar ..) :: code | i@(.cmov ..) :: code | i@(.imul ..) :: code
  | i@(.imulImm ..) :: code => run (exec s i) code
termination_by code => code.length
decreasing_by
  all_goals simp only [List.length_cons, List.length_drop]
  all_goals omega

/-- Whether an instruction is the jump. -/
def Instr.isJump : Instr → Bool
  | .jz _ => true
  | .mov .. | .movImm .. | .lea .. | .add .. | .sub .. | .neg .. | .and .. | .andImm .. | .or ..
  | .xor .. | .test .. | .shl .. | .shr .. | .sar .. | .cmov .. | .imul .. | .imulImm .. => false

@[simp] theorem run_nil (s : State) : run s [] = s := by
  rw [run]

theorem run_jz (s : State) (skip : ℕ) (code : List Instr) :
    run s (.jz skip :: code) = if s.zf then run s (code.drop skip) else run s code := by
  rw [run]

theorem run_cons (s : State) {i : Instr} (hi : i.isJump = false) (code : List Instr) :
    run s (i :: code) = run (exec s i) code := by
  cases i
  case jz => simp [Instr.isJump] at hi
  all_goals rw [run]

/-- Straight-line code runs one part after the other. -/
theorem run_append {code : List Instr} (h : ∀ i ∈ code, i.isJump = false) (s : State)
    (code' : List Instr) : run s (code ++ code') = run (run s code) code' := by
  induction code generalizing s with
  | nil => rw [List.nil_append, run_nil]
  | cons i code ih =>
    have hi := h i List.mem_cons_self
    rw [List.cons_append, run_cons _ hi, run_cons _ hi,
      ih (fun j hj => h j (List.mem_cons_of_mem _ hj))]

namespace State

variable (s : State) {w v : ℕ}

@[simp] theorem read_write_self (hv : v ≤ 64) (r : Reg) (value : BitVec w) :
    (s.write r value).read v r = value.setWidth v := by
  simp [read, write, BitVec.setWidth_setWidth_of_le _ hv]

@[simp] theorem read_write_of_ne {r r' : Reg} (h : r' ≠ r) (value : BitVec w) :
    (s.write r value).read v r' = s.read v r' := by
  simp [read, write, h]

@[simp] theorem write_zf (r : Reg) (value : BitVec w) : (s.write r value).zf = s.zf := rfl

@[simp] theorem holds_write (r : Reg) (value : BitVec w) (cond : Condition) :
    (s.write r value).holds cond = s.holds cond := rfl

@[simp] theorem read_setLogicFlags (value : BitVec w) (r : Reg) :
    (s.setLogicFlags value).read v r = s.read v r := rfl

@[simp] theorem setLogicFlags_zf (value : BitVec w) : (s.setLogicFlags value).zf = (value == 0) :=
  rfl

/-- A `cmov` that may not move: the register read from the state it leaves. -/
@[simp] theorem read_ite (c : Prop) [Decidable c] (s₁ s₂ : State) (r : Reg) :
    (if c then s₁ else s₂).read v r = if c then s₁.read v r else s₂.read v r := by
  split_ifs <;> rfl

@[simp] theorem read_64_setWidth (r : Reg) : (s.read 64 r).setWidth v = s.read v r := by
  simp [read]

/-- `test x, x` sets `less` exactly for a negative `x`. -/
theorem holds_less_test (x : BitVec w) : (s.setLogicFlags (x &&& x)).holds .less = decide (x.toInt < 0) := by
  simp [holds, setLogicFlags, BitVec.msb_eq_toInt]

/-- `test x, x` sets `greaterEqual` exactly for a non-negative `x`. -/
theorem holds_greaterEqual_test (x : BitVec w) :
    (s.setLogicFlags (x &&& x)).holds .greaterEqual = decide (0 ≤ x.toInt) := by
  simp only [holds, setLogicFlags, BitVec.and_self, BitVec.msb_eq_toInt, beq_false]
  by_cases h : x.toInt < 0
  · simp [h]
  · simp [h]
    omega

end State

/-! ### The code generators -/

/-- `DivRemOneOrMinusOne`: `dividend` or its negation, or zero for a remainder. -/
def divRemOneOrMinusOne (isDiv : Bool) (type : IntType) (imm : BitVec 64) (out input : Reg) :
    List Instr :=
  if isDiv then .mov type.bits out input :: if imm.toInt = -1 then [.neg type.bits out] else []
  else [.xor 32 out out]

/-- `RemByPowerOfTwo`: the low bits of the numerator, moved down by `|imm|` for a negative
numerator unless they are zero. -/
def remByPowerOfTwo (type : IntType) (imm : BitVec 64) (out numerator tmp : Reg) : List Instr :=
  let absImm := (absOrMin imm).toNat
  match type with
  | .int32 =>
    [.mov 32 out numerator, .andImm 32 out (absImm - 1), .jz 3,
      .lea tmp out ((~~~(BitVec.ofNat 64 (absImm - 1))).setWidth 32).toInt,
      .test 32 numerator numerator, .cmov .less out tmp false]
  | .int64 =>
    [.movImm 64 tmp (absImm - 1), .mov 64 out numerator, .and 64 out tmp, .jz 4,
      .mov 64 tmp numerator, .sar 64 tmp 63, .shl 64 tmp (ctz (absOrMin imm)), .or 64 out tmp]

/-- `DivByPowerOfTwo`: the numerator plus `|imm| - 1` when negative, shifted right by
`CTZ(imm)`, negated for a negative divisor. -/
def divByPowerOfTwo (type : IntType) (imm : BitVec 64) (out numerator tmp : Reg) : List Instr :=
  let absImm := (absOrMin imm).toNat
  let shift := ctz imm
  let w := type.bits
  (match type with
    | .int32 =>
      if absImm = 2 then [.lea tmp numerator 0, .shr 32 tmp 31, .add 32 tmp numerator]
      else [.lea tmp numerator (absImm - 1), .test 32 numerator numerator,
        .cmov .greaterEqual tmp numerator true]
    | .int64 =>
      if absImm = 2 then [.mov 64 tmp numerator, .shr 64 tmp 63, .add 64 tmp numerator]
      else [.movImm 64 tmp (absImm - 1), .add 64 tmp numerator, .test 64 numerator numerator,
        .cmov .greaterEqual tmp numerator true]) ++
    .sar w tmp shift :: (if imm.toInt < 0 then [.neg w tmp] else []) ++ [.mov w out tmp]

/-- `GenerateDivRemWithAnyConstant`: the numerator saved in `numerator`, `rdx:rax` its product
with the magic number, the dividend added or subtracted, the shift, one more for a negative
quotient; the remainder as the numerator minus the quotient times `imm`. `IsInt<32>(imm)` only
picks the encoding of the last multiply. -/
def generateDivRemWithAnyConstant (isDiv : Bool) (type : IntType) (imm : BitVec 64)
    (numerator : Reg) : List Instr :=
  let w := type.bits
  match calculateMagicAndShiftForDivRem imm (type = .int64) 64 with
  | some (magic, shift) =>
    [.mov w numerator .rax, .movImm w .rax magic.toInt, .imul w numerator] ++
      (if 0 < imm.toInt ∧ magic.toInt < 0 then [.add w .rdx numerator]
        else if imm.toInt < 0 ∧ 0 < magic.toInt then [.sub w .rdx numerator] else []) ++
      (if shift ≠ 0 then [.sar w .rdx shift.toNat] else []) ++
      [.mov w .rax .rdx, .shr w .rdx (w - 1), .add w .rdx .rax] ++
      if isDiv then [.mov w .rax .rdx]
      else [.mov w .rax numerator, .imulImm w .rdx imm.toInt, .sub w .rax .rdx, .mov w .rdx .rax]
  | none => []

/-- `GenerateDivRemIntegral` for a constant divisor, with the registers of its locations: the
output is `rax` for a division and `rdx` for a remainder. Nothing for a zero divisor, which
`HDivZeroCheck` guards. -/
def generateDivRemIntegral (isDiv : Bool) (type : IntType) (imm : BitVec 64) (temp : Reg) :
    List Instr :=
  let out := if isDiv then Reg.rax else Reg.rdx
  if imm = 0 then []
  else if imm.toInt = 1 ∨ imm.toInt = -1 then divRemOneOrMinusOne isDiv type imm out .rax
  else if isPowerOfTwo (absOrMin imm) then
    if isDiv then divByPowerOfTwo type imm out .rax .rdx else remByPowerOfTwo type imm out .rax temp
  else generateDivRemWithAnyConstant isDiv type imm temp

/-! ### Division by `±1` and by a power of two -/

section Power2

/-- `DivRemOneOrMinusOne` leaves `input / d` or `input % d` in `out`, for `d = ±1`. -/
theorem divRemOneOrMinusOne_correct (isDiv : Bool) (type : IntType) {d : Int}
    (hd : type.InRange d) (h1 : d.natAbs = 1) (out input : Reg) (s : State) :
    (run s (divRemOneOrMinusOne isDiv type (.ofInt 64 d) out input)).read type.bits out =
      if isDiv then (s.read type.bits input).sdiv (.ofInt type.bits d)
      else (s.read type.bits input).srem (.ofInt type.bits d) := by
  set n := s.read type.bits input with hn
  have hbits := type.bits_le_64
  -- `±1` is `±2 ^ 0`, and the library's power-of-two facts apply with `k = 0`
  have hk : d.natAbs = 2 ^ 0 := h1
  have hD : (BitVec.ofInt type.bits d).toInt = 2 ^ 0 ∨
      (BitVec.ofInt type.bits d).toInt = -2 ^ 0 := by
    rw [hd.toInt_ofInt]
    exact SignedDivision.eq_two_pow_or_eq_neg_of_natAbs hk
  obtain ⟨hpos, hneg⟩ := SignedDivision.sdiv_eq_of_toInt (d := BitVec.ofInt type.bits d) (x := n)
    (k := 0) (by rw [pow_zero, Int.tdiv_one])
  cases isDiv with
  | false =>
    -- `xorl out, out`
    simp only [divRemOneOrMinusOne, Bool.false_eq_true, ↓reduceIte, run,
      run_nil, exec, State.read_write_self _ hbits, BitVec.xor_self, BitVec.setWidth_zero]
    refine (SignedDivision.srem_eq_of_toInt hD ?_).symm
    rw [pow_zero, Int.tmod_one, BitVec.toInt_zero]
  | true =>
    simp only [divRemOneOrMinusOne, ↓reduceIte, hd.toInt_ofInt_64]
    rcases SignedDivision.eq_two_pow_or_eq_neg_of_natAbs hk with hd' | hd'
    · rw [if_neg (by omega)]
      simp only [run, run_nil, exec, State.read_write_self _ hbits,
        BitVec.setWidth_eq]
      exact (hpos (by rw [hd.toInt_ofInt, hd'])).symm
    · rw [if_pos (by omega)]
      simp only [run, run_nil, exec, State.read_write_self _ hbits,
        BitVec.setWidth_eq]
      exact (hneg (by rw [hd.toInt_ofInt, hd'])).symm

/-- The tail of `DivByPowerOfTwo`: `sar` by `k` of a register whose shift is the truncating
quotient by `2 ^ k`, negated for a negative divisor, moved to `out`. -/
theorem run_sar_quotient (type : IntType) {d : Int} (hd : type.InRange d) {k : ℕ}
    (hk : d.natAbs = 2 ^ k) (s : State) (out tmp : Reg) (n : BitVec type.bits)
    (hsrc : ((s.read type.bits tmp).sshiftRight k).toInt = n.toInt.tdiv (2 ^ k)) :
    (run s (.sar type.bits tmp k :: (if (BitVec.ofInt 64 d).toInt < 0 then [.neg type.bits tmp]
      else []) ++ [.mov type.bits out tmp])).read type.bits out =
      n.sdiv (.ofInt type.bits d) := by
  obtain ⟨hpos, hneg⟩ := SignedDivision.sdiv_eq_of_toInt (d := BitVec.ofInt type.bits d) hsrc
  have hbits := type.bits_le_64
  have hpow : (0 : Int) < 2 ^ k := by positivity
  rw [hd.toInt_ofInt_64]
  rcases SignedDivision.eq_two_pow_or_eq_neg_of_natAbs hk with hd' | hd'
  · rw [if_neg (by omega)]
    simp only [List.cons_append, List.nil_append, run, run_nil, exec,
      State.read_write_self _ hbits, BitVec.setWidth_eq]
    rw [hpos (by rw [hd.toInt_ofInt, hd'])]
  · rw [if_pos (by omega)]
    simp only [List.cons_append, List.nil_append, run, run_nil, exec,
      State.read_write_self _ hbits, BitVec.setWidth_eq]
    rw [hneg (by rw [hd.toInt_ofInt, hd'])]

/-- `DivByPowerOfTwo` leaves `numerator / d` in `out`. -/
theorem divByPowerOfTwo_correct (type : IntType) {d : Int} (hd : type.InRange d) {k : ℕ}
    (hk : d.natAbs = 2 ^ k) {out numerator tmp : Reg} (htmp : tmp ≠ numerator) (s : State) :
    (run s (divByPowerOfTwo type (.ofInt 64 d) out numerator tmp)).read type.bits out =
      (s.read type.bits numerator).sdiv (.ofInt type.bits d) := by
  set n := s.read type.bits numerator with hn
  have hkw := hd.lt_bits_of_natAbs_eq hk
  have hbits := type.bits_le_64
  have habs : (absOrMin (.ofInt 64 d)).toNat = 2 ^ k := by
    rw [toNat_absOrMin, hd.toInt_ofInt_64, hk]
  have hctz : ctz (.ofInt 64 d) = k := SignedDivision.ctz_ofInt_of_natAbs_eq (by omega) hk
  unfold divByPowerOfTwo
  simp only [habs, hctz]
  -- the code before the `sar` has no jump
  rw [List.append_assoc, run_append (by cases type <;> split_ifs <;> simp [Instr.isJump])]
  apply run_sar_quotient type hd hk _ out tmp n
  have hnum := Ne.symm htmp
  by_cases h2 : 2 ^ k = 2
  · -- `|d| = 2`: the bias is the sign bit
    have hk1 : k = 1 := Nat.pow_right_injective (le_refl 2) (h2.trans (pow_one 2).symm)
    subst hk1
    cases type with
    | int32 =>
      simp only [h2, ↓reduceIte, run, run_nil, exec, State.read_write_self _ hbits,
        State.read_write_of_ne _ hnum, BitVec.setWidth_eq, BitVec.ofInt_ofNat, BitVec.add_zero, ← hn,
        pow_one]
      rw [BitVec.add_comm]
      exact SignedDivision.toInt_sshiftRight_one_add_ushiftRight n (by decide)
    | int64 =>
      simp only [h2, ↓reduceIte, run, run_nil, exec, State.read_write_self _ hbits,
        State.read_write_of_ne _ hnum, BitVec.setWidth_eq, ← hn, pow_one]
      rw [BitVec.add_comm]
      exact SignedDivision.toInt_sshiftRight_one_add_ushiftRight n (by decide)
  · -- otherwise `cmov` keeps `numerator + (2 ^ k - 1)` for a negative numerator
    rw [← SignedDivision.toInt_sshiftRight_biased n hkw]
    congr 2
    cases type with
    | int32 =>
      simp only [h2, ↓reduceIte, run, run_nil, exec, State.read_ite, State.read_write_self _ hbits,
        State.read_write_of_ne _ hnum, State.read_setLogicFlags, State.read_64_setWidth,
        State.holds_greaterEqual_test, BitVec.setWidth_eq, ← hn]
      by_cases hneg : n.toInt < 0
      · simp only [hneg, decide_false, show ¬0 ≤ n.toInt by omega, ↓reduceIte, Bool.false_eq_true]
        push_cast
        rfl
      · simp only [hneg, show 0 ≤ n.toInt by omega, decide_true, ↓reduceIte]
    | int64 =>
      simp only [h2, ↓reduceIte, run, run_nil, exec, State.read_ite, State.read_write_self _ hbits,
        State.read_write_of_ne _ hnum, State.read_setLogicFlags, State.holds_greaterEqual_test,
        BitVec.setWidth_eq, ← hn]
      by_cases hneg : n.toInt < 0
      · simp only [hneg, decide_false, show ¬0 ≤ n.toInt by omega, ↓reduceIte, Bool.false_eq_true]
        push_cast
        rw [BitVec.add_comm]
      · simp only [hneg, show 0 ≤ n.toInt by omega, decide_true, ↓reduceIte]

/-- `RemByPowerOfTwo` leaves `numerator % d` in `out`. -/
theorem remByPowerOfTwo_correct (type : IntType) {d : Int} (hd : type.InRange d) {k : ℕ}
    (hk : d.natAbs = 2 ^ k) {out numerator tmp : Reg} (hout : out ≠ numerator)
    (htmp : tmp ≠ numerator) (htmpout : tmp ≠ out) (s : State) :
    (run s (remByPowerOfTwo type (.ofInt 64 d) out numerator tmp)).read type.bits out =
      (s.read type.bits numerator).srem (.ofInt type.bits d) := by
  set n := s.read type.bits numerator with hn
  have hkw := hd.lt_bits_of_natAbs_eq hk
  have hbits := type.bits_le_64
  have habs : (absOrMin (.ofInt 64 d)).toNat = 2 ^ k := by
    rw [toNat_absOrMin, hd.toInt_ofInt_64, hk]
  have hD : (BitVec.ofInt type.bits d).toInt = 2 ^ k ∨
      (BitVec.ofInt type.bits d).toInt = -2 ^ k := by
    rw [hd.toInt_ofInt]
    exact SignedDivision.eq_two_pow_or_eq_neg_of_natAbs hk
  refine (SignedDivision.srem_eq_of_toInt hD ?_).symm
  rw [SignedDivision.tmod_two_pow_eq_ite]
  -- the mask keeps the floor residue; `jz` skips the rest when it is zero
  set m := n &&& BitVec.ofInt type.bits (2 ^ k - 1) with hm
  have hmInt : m.toInt = n.toInt % 2 ^ k := SignedDivision.toInt_and_mask n hkw
  have hpow : (0 : Int) < 2 ^ k := by positivity
  have hm0 : 0 ≤ m.toInt := hmInt ▸ Int.emod_nonneg _ hpow.ne'
  have hm1 : m.toInt < 2 ^ k := hmInt ▸ Int.emod_lt_of_pos _ hpow
  have hzero : (m == 0) = decide (n.toInt % 2 ^ k = 0) := by
    rw [← hmInt]
    by_cases h : m.toInt = 0
    · have hm0 : m = 0 := BitVec.eq_of_toInt_eq (by simp [h])
      simp [hm0]
    · have hm0 : m ≠ BitVec.ofNat type.bits 0 := fun h' => h (by simp [h'])
      simp [hm0, h]
  have hout' := Ne.symm hout
  have htmp' := Ne.symm htmp
  have htmpout' := Ne.symm htmpout
  unfold remByPowerOfTwo
  simp only [habs]
  cases type with
  | int32 =>
    simp only [run, exec, State.read_write_self _ hbits, State.write_zf, State.setLogicFlags_zf,
      BitVec.setWidth_eq, Nat.cast_pow, Nat.cast_ofNat, ← hn, ← hm, hzero]
    by_cases hz : n.toInt % 2 ^ k = 0
    · simp only [hz, decide_true, ↓reduceIte, List.drop_succ_cons, List.drop_zero, run_nil,
        State.read_write_self _ hbits, BitVec.setWidth_eq, hmInt]
    -- a non-zero residue of a negative numerator is moved down by `2 ^ k` (`leal` and `cmovl`)
    have hdisp : BitVec.ofInt 32 ((~~~(BitVec.ofNat 64 (2 ^ k - 1))).setWidth 32).toInt =
        BitVec.ofInt 32 (-2 ^ k) := by
      rw [BitVec.ofInt_toInt, ← SignedDivision.ofInt_neg_two_pow,
        SignedDivision.setWidth_ofInt_neg_two_pow (by norm_num)]
    simp only [hz, decide_false, Bool.false_eq_true, ↓reduceIte, hdisp,
      State.read_write_self _ hbits, State.read_write_of_ne _ htmpout',
      State.read_write_of_ne _ htmp', State.read_write_of_ne _ hout', State.read_setLogicFlags,
      State.holds_less_test, BitVec.setWidth_eq, ← hn]
    by_cases hneg : n.toInt < 0
    · simp only [hneg, decide_true, ↓reduceIte]
      exact (SignedDivision.toInt_add_ofInt_neg_two_pow m hkw hm0 hm1).trans (by rw [hmInt])
    · simp only [hneg, decide_false, Bool.false_eq_true, ↓reduceIte, hmInt]
  | int64 =>
    have hctz : ctz (absOrMin (.ofInt 64 d)) = k :=
      SignedDivision.toNat_ctz_of_toNat_eq_two_pow _ habs
    have hsar : n.sshiftRight 63 = if n.toInt < 0 then BitVec.allOnes 64 else 0#64 :=
      SignedDivision.sshiftRight_sub_one n (by decide)
    simp only [run, exec, State.read_write_self _ hbits, State.read_write_of_ne _ hout',
      State.read_write_of_ne _ htmp', State.read_write_of_ne _ htmpout, State.write_zf,
      State.setLogicFlags_zf, BitVec.setWidth_eq, Nat.cast_pow, Nat.cast_ofNat, ← hn, ← hm, hzero]
    by_cases hz : n.toInt % 2 ^ k = 0
    · simp only [hz, decide_true, ↓reduceIte, List.drop_succ_cons, List.drop_zero, run_nil,
        State.read_write_self _ hbits, BitVec.setWidth_eq, hmInt]
    -- a non-zero residue of a negative numerator gets the ones of `-2 ^ k` (`sarq`, `shlq`, `orq`)
    simp only [hz, decide_false, Bool.false_eq_true, ↓reduceIte, State.read_write_self _ hbits,
      State.read_write_of_ne _ htmpout', State.read_write_of_ne _ htmp',
      State.read_write_of_ne _ hout', State.read_setLogicFlags, BitVec.setWidth_eq, ← hn, hsar,
      hctz]
    by_cases hneg : n.toInt < 0
    · simp only [hneg, ↓reduceIte, SignedDivision.allOnes_shiftLeft,
        SignedDivision.or_ofInt_neg_two_pow m (SignedDivision.toNat_lt_of_toInt_lt m hm0 hm1)]
      exact (SignedDivision.toInt_add_ofInt_neg_two_pow m hkw hm0 hm1).trans (by rw [hmInt])
    · simp only [hneg, ↓reduceIte, BitVec.zero_shiftLeft, BitVec.or_zero, hmInt]

end Power2

/-! ### Division by any other constant -/

section AnyConstant

/-- The product of `GenerateDivRemWithAnyConstant`: the numerator saved in `numerator`, and in
`rdx` the high half of its product with the magic number, corrected by the numerator as
`NeedToAddDividend`/`NeedToSubDividend` say. -/
theorem run_magicProduct (type : IntType) (s : State) {numerator : Reg}
    (hrax : numerator ≠ .rax) (hrdx : numerator ≠ .rdx) {magic : BitVec 64}
    (hm : type.InRange magic.toInt) {d : Int} (hd : type.InRange d) (rest : List Instr) :
    ∃ s', run s ([.mov type.bits numerator .rax, .movImm type.bits .rax magic.toInt,
        .imul type.bits numerator] ++
        (if 0 < (BitVec.ofInt 64 d).toInt ∧ magic.toInt < 0 then [.add type.bits .rdx numerator]
          else if (BitVec.ofInt 64 d).toInt < 0 ∧ 0 < magic.toInt then
            [.sub type.bits .rdx numerator]
          else []) ++ rest) = run s' rest ∧
      (s'.read type.bits .rdx).toInt =
        (s.read type.bits .rax).toInt * correctedMagic type.bits magic d / 2 ^ type.bits ∧
      s'.read type.bits numerator = s.read type.bits .rax := by
  set n := s.read type.bits .rax with hn
  have hbits := type.bits_le_64
  have hw0 := type.bits_pos
  have hM : (BitVec.ofInt type.bits magic.toInt).toInt = magic.toInt := hm.toInt_ofInt
  have hmlo := hm.1
  have hmhi := hm.2
  have hpow : (2 : Int) ^ (type.bits - 1) < 2 ^ type.bits :=
    pow_lt_pow_right₀ (by norm_num) (by omega)
  -- every multiplier that occurs is below `2 ^ w` in size: the high half is exact
  have hhigh := fun M => SignedDivision.bmod_mul_ediv_two_pow n hw0 (M := M)
  -- the state after `mov`, `mov` and the one-operand `imul`
  set s₁ := run s [.mov type.bits numerator .rax, .movImm type.bits .rax magic.toInt,
    .imul type.bits numerator] with hs₁
  have h₁num : s₁.read type.bits numerator = n := by
    simp only [hs₁, run, run_nil, exec, State.read_write_self _ hbits,
      State.read_write_of_ne _ hrax, State.read_write_of_ne _ hrdx, BitVec.setWidth_eq, ← hn]
  have h₁rdx : (s₁.read type.bits .rdx).toInt = n.toInt * magic.toInt / 2 ^ type.bits := by
    simp only [hs₁, run, run_nil, exec, State.read_write_self _ hbits,
      State.read_write_of_ne _ hrax, BitVec.setWidth_eq, hM]
    rw [BitVec.toInt_ofInt, Int.mul_comm, ← hn, hhigh _ (by omega) (by omega)]
  rw [hd.toInt_ofInt_64, List.append_assoc, run_append (by simp [Instr.isJump]), ← hs₁]
  unfold correctedMagic
  by_cases hadd : 0 < d ∧ magic.toInt < 0
  · -- `add`: the multiplier stands for `magic + 2 ^ w`
    simp only [if_pos hadd]
    refine ⟨exec s₁ (.add type.bits .rdx numerator), by simp only [List.cons_append,
      List.nil_append, run], ?_, ?_⟩
    · simp only [exec, State.read_write_self _ hbits, BitVec.setWidth_eq]
      rw [BitVec.toInt_add, h₁rdx, h₁num, SignedDivision.mul_ediv_two_pow_add,
        hhigh _ (by omega) (by omega)]
    · simp only [exec, State.read_write_of_ne _ hrdx, h₁num]
  by_cases hsub : d < 0 ∧ 0 < magic.toInt
  · -- `sub`: the multiplier stands for `magic - 2 ^ w`
    simp only [if_neg hadd, if_pos hsub]
    refine ⟨exec s₁ (.sub type.bits .rdx numerator), by simp only [List.cons_append,
      List.nil_append, run], ?_, ?_⟩
    · simp only [exec, State.read_write_self _ hbits, BitVec.setWidth_eq]
      rw [BitVec.toInt_sub, h₁rdx, h₁num, SignedDivision.mul_ediv_two_pow_sub,
        hhigh _ (by omega) (by omega)]
    · simp only [exec, State.read_write_of_ne _ hrdx, h₁num]
  · simp only [if_neg hadd, if_neg hsub]
    exact ⟨s₁, by rw [List.nil_append], h₁rdx, h₁num⟩

/-- The quotient part of `GenerateDivRemWithAnyConstant`: the corrected product, shifted, plus
one when negative, in `rdx`; the numerator is still in `numerator`. -/
theorem run_magicQuotient (type : IntType) (s : State) {numerator : Reg}
    (hrax : numerator ≠ .rax) (hrdx : numerator ≠ .rdx) {magic : BitVec 64}
    (hm : type.InRange magic.toInt) {d : Int} (hd : type.InRange d) {shift : Int}
    (hs0 : 0 ≤ shift)
    (hq : signedQuotient (correctedMagic type.bits magic d) (type.bits + shift).toNat
      (s.read type.bits .rax).toInt = (s.read type.bits .rax).toInt.tdiv d)
    (rest : List Instr) :
    ∃ s', run s ([.mov type.bits numerator .rax, .movImm type.bits .rax magic.toInt,
        .imul type.bits numerator] ++
        (if 0 < (BitVec.ofInt 64 d).toInt ∧ magic.toInt < 0 then [.add type.bits .rdx numerator]
          else if (BitVec.ofInt 64 d).toInt < 0 ∧ 0 < magic.toInt then
            [.sub type.bits .rdx numerator]
          else []) ++
        (if shift ≠ 0 then [.sar type.bits .rdx shift.toNat] else []) ++
        [.mov type.bits .rax .rdx, .shr type.bits .rdx (type.bits - 1), .add type.bits .rdx .rax] ++
        rest) = run s' rest ∧
      (s'.read type.bits .rdx).toInt = (s.read type.bits .rax).toInt.tdiv d ∧
      s'.read type.bits numerator = s.read type.bits .rax := by
  have hbits := type.bits_le_64
  have hbits1 := type.one_lt_bits
  obtain ⟨s₁, hrun, hrdx₁, hnum₁⟩ := run_magicProduct type s hrax hrdx hm hd
    ((if shift ≠ 0 then [.sar type.bits .rdx shift.toNat] else []) ++
      ([.mov type.bits .rax .rdx, .shr type.bits .rdx (type.bits - 1), .add type.bits .rdx .rax] ++
        rest))
  -- the state after the shift, which leaves `numerator` alone
  set s₂ := run s₁ (if shift ≠ 0 then [.sar type.bits .rdx shift.toNat] else []) with hs₂
  have h₂rdx : (s₂.read type.bits .rdx).toInt = (s₁.read type.bits .rdx).toInt / 2 ^ shift.toNat := by
    rw [hs₂]
    split_ifs with h
    · simp only [run, run_nil, exec, State.read_write_self _ hbits, BitVec.setWidth_eq]
      exact SignedDivision.toInt_sshiftRight_eq_ediv _ _
    · obtain rfl : shift = 0 := not_not.1 h
      simp
  have h₂num : s₂.read type.bits numerator = s₁.read type.bits numerator := by
    rw [hs₂]
    split_ifs <;> simp only [run, run_nil, exec, State.read_write_of_ne _ hrdx]
  refine ⟨run s₂ [.mov type.bits .rax .rdx, .shr type.bits .rdx (type.bits - 1),
    .add type.bits .rdx .rax], ?_, ?_, ?_⟩
  · simp only [List.append_assoc] at hrun ⊢
    rw [hrun, run_append (by split_ifs <;> simp [Instr.isJump]), ← hs₂,
      run_append (by simp [Instr.isJump])]
  · -- `rdx + (rdx >>> (w - 1))` adds one to a negative quotient
    simp only [run, run_nil, exec, State.read_write_self _ hbits,
      State.read_write_of_ne _ (show Reg.rax ≠ Reg.rdx by decide),
      State.read_write_of_ne _ (show Reg.rdx ≠ Reg.rax by decide), BitVec.setWidth_eq]
    rw [BitVec.add_comm, SignedDivision.toInt_add_ushiftRight _ hbits1, h₂rdx, hrdx₁,
      Int.ediv_ediv_of_nonneg (by positivity), ← pow_add]
    rw [signedQuotient, show (type.bits + shift).toNat = type.bits + shift.toNat by omega] at hq
    exact hq
  · simp only [run, run_nil, exec, State.read_write_of_ne _ hrax, State.read_write_of_ne _ hrdx,
      h₂num, hnum₁]

/-- `GenerateDivRemWithAnyConstant` leaves `rax / d` in `rax` or `rax % d` in `rdx`. -/
theorem generateDivRemWithAnyConstant_correct (isDiv : Bool) (type : IntType) {d : Int}
    (hd : type.InRange d) (habs : 2 ≤ d.natAbs) (hpow : ∀ j, d.natAbs ≠ 2 ^ j)
    {numerator : Reg} (hrax : numerator ≠ .rax) (hrdx : numerator ≠ .rdx) (s : State) :
    (run s (generateDivRemWithAnyConstant isDiv type (.ofInt 64 d) numerator)).read type.bits
        (if isDiv then .rax else .rdx) =
      if isDiv then (s.read type.bits .rax).sdiv (.ofInt type.bits d)
      else (s.read type.bits .rax).srem (.ofInt type.bits d) := by
  set n := s.read type.bits .rax with hn
  have hbits := type.bits_le_64
  obtain ⟨magic, shift, hcalc, hs0, -, hq⟩ := calculateMagicAndShiftForDivRem_spec
    (type = .int64) d (by rw [divWidth_eq_bits]; exact hd.1) (by rw [divWidth_eq_bits]; exact hd.2)
    habs hpow
  rw [divWidth_eq_bits] at hq
  have hcalc64 := hcalc 64 (by rw [divWidth_eq_bits]; exact hbits)
  have hm := calculateMagicAndShiftForDivRem_magic_inRange hcalc64
  obtain ⟨s', hrun, hquot, hnum⟩ := run_magicQuotient type s hrax hrdx hm hd hs0
    (hq n.toInt (BitVec.le_toInt n) BitVec.toInt_lt)
    (if isDiv then [.mov type.bits .rax .rdx]
      else [.mov type.bits .rax numerator, .imulImm type.bits .rdx (BitVec.ofInt 64 d).toInt,
        .sub type.bits .rax .rdx, .mov type.bits .rdx .rax])
  -- the quotient in `rdx`
  have hsdiv : s'.read type.bits .rdx = n.sdiv (.ofInt type.bits d) :=
    (SignedDivision.sdiv_eq_of_toInt_eq_tdiv (hquot.trans (by rw [hd.toInt_ofInt]))).symm
  unfold generateDivRemWithAnyConstant
  rw [hcalc64]
  simp only []
  rw [hrun]
  cases isDiv with
  | true =>
    simp only [↓reduceIte, run, run_nil, exec, State.read_write_self _ hbits, BitVec.setWidth_eq,
      hsdiv]
  | false =>
    -- the remainder as `numerator - quotient * d`
    simp only [Bool.false_eq_true, ↓reduceIte, run, run_nil, exec, State.read_write_self _ hbits,
      State.read_write_of_ne _ (show Reg.rdx ≠ Reg.rax by decide),
      State.read_write_of_ne _ (show Reg.rax ≠ Reg.rdx by decide), BitVec.setWidth_eq, hnum,
      hsdiv, hd.toInt_ofInt_64]
    exact SignedDivision.sub_sdiv_mul _ _

end AnyConstant

/-- `GenerateDivRemIntegral` leaves Java's `rax / d` in `rax` for a division and `rax % d` in `rdx`
for a remainder, for every non-zero divisor of the type, with any temporary other than `rax`
and `rdx`. -/
theorem generateDivRemIntegral_correct (isDiv : Bool) (type : IntType) {d : Int}
    (hd : type.InRange d) (hd0 : d ≠ 0) {temp : Reg} (hrax : temp ≠ .rax) (hrdx : temp ≠ .rdx)
    (s : State) :
    (run s (generateDivRemIntegral isDiv type (.ofInt 64 d) temp)).read type.bits
        (if isDiv then .rax else .rdx) =
      if isDiv then (s.read type.bits .rax).sdiv (.ofInt type.bits d)
      else (s.read type.bits .rax).srem (.ofInt type.bits d) := by
  obtain ⟨himm, hpow2, hother⟩ := constDenom_cases hd hd0
  unfold generateDivRemIntegral
  rw [if_neg himm]
  by_cases h1 : (BitVec.ofInt 64 d).toInt = 1 ∨ (BitVec.ofInt 64 d).toInt = -1
  · -- `±1`
    rw [if_pos h1]
    rw [hd.toInt_ofInt_64] at h1
    exact divRemOneOrMinusOne_correct isDiv type hd (by omega) _ _ s
  rw [if_neg h1]
  cases hp : isPowerOfTwo (absOrMin (.ofInt 64 d)) with
  | false =>
    obtain ⟨habs, hpow⟩ := hother hp
    exact generateDivRemWithAnyConstant_correct isDiv type hd habs hpow hrax hrdx s
  | true =>
    obtain ⟨k, hk⟩ := hpow2 hp
    cases isDiv with
    | true =>
      exact divByPowerOfTwo_correct type hd hk (by decide) s
    | false =>
      exact remByPowerOfTwo_correct type hd hk (by decide) hrax hrdx s

end X8664

end Art
