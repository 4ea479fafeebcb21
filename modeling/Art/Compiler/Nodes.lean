import Art.Lib.Shift

/-!
# Integer instructions of the optimizing compiler's graph (`compiler/optimizing/nodes.h`)

The `int` and `long` arithmetic of `HGraph`, as expression trees: parameters and constants, array
lengths, the unary and binary operations and the integral `HTypeConversion`s. An expression is
indexed by the kind of its value (`DataType::Kind`, `int` or `long`); a shift or rotate distance
is always an `int`.

`HInstruction.eval` is the Java meaning of an expression, which is what the generated code
computes: wrapping arithmetic, truncating division, and shift distances masked to their low five
(`int`) or six (`long`) bits (JLS 15.19). The graph shares instructions; here an expression is a
tree and the simplifier's pointer comparisons of two inputs are equality of trees, which holds
whenever the pointers are equal.
-/

namespace Art

/-- The kinds of integral values: `DataType::Type::kInt32` and `kInt64`. -/
inductive IntType where
  | int32 | int64
  deriving DecidableEq, Repr

namespace IntType

/-- `DataType::Size(type) * kBitsPerByte`. -/
abbrev bits : IntType → Nat
  | int32 => 32
  | int64 => 64

/-- `kMaxIntShiftDistance` and `kMaxLongShiftDistance`: the mask of a shift distance. -/
def maxShiftDistance : IntType → Nat
  | int32 => 31
  | int64 => 63

theorem bits_pos (t : IntType) : 0 < t.bits := by
  cases t <;> decide

theorem one_lt_bits (t : IntType) : 1 < t.bits := by
  cases t <;> decide

theorem bits_le_64 (t : IntType) : t.bits ≤ 64 := by
  cases t <;> decide

theorem maxShiftDistance_lt (t : IntType) : t.maxShiftDistance < 2 ^ 32 := by
  cases t <;> decide

/-- The widths divide the modulus of the `int` distance and of `long` arithmetic. -/
theorem bits_dvd_two_pow_32 (t : IntType) : t.bits ∣ 2 ^ 32 := by
  cases t <;> decide

theorem bits_dvd_two_pow_64 (t : IntType) : t.bits ∣ 2 ^ 64 := by
  cases t <;> decide

end IntType

/-- The result types of an `HTypeConversion` whose value is an `int`. -/
inductive NarrowType where
  | int8 | uint8 | int16 | uint16 | int32
  deriving DecidableEq, Repr

/-- The integer expressions of the graph. -/
inductive HInstruction : IntType → Type where
  /-- A value the compiler knows nothing about (`HParameterValue`, a load, a phi...). -/
  | parameterValue (t : IntType) (index : Nat) : HInstruction t
  /-- `HIntConstant` or `HLongConstant`. -/
  | constant (t : IntType) (value : BitVec t.bits) : HInstruction t
  /-- `HArrayLength` of the array numbered `array`. -/
  | arrayLength (array : Nat) : HInstruction .int32
  | neg {t : IntType} (x : HInstruction t) : HInstruction t
  | not {t : IntType} (x : HInstruction t) : HInstruction t
  | add {t : IntType} (x y : HInstruction t) : HInstruction t
  | sub {t : IntType} (x y : HInstruction t) : HInstruction t
  | mul {t : IntType} (x y : HInstruction t) : HInstruction t
  /-- `HDiv`; a zero divisor never reaches it, `HDivZeroCheck` throws before. -/
  | div {t : IntType} (x y : HInstruction t) : HInstruction t
  | rem {t : IntType} (x y : HInstruction t) : HInstruction t
  | and {t : IntType} (x y : HInstruction t) : HInstruction t
  | or {t : IntType} (x y : HInstruction t) : HInstruction t
  | xor {t : IntType} (x y : HInstruction t) : HInstruction t
  | shl {t : IntType} (x : HInstruction t) (distance : HInstruction .int32) : HInstruction t
  | shr {t : IntType} (x : HInstruction t) (distance : HInstruction .int32) : HInstruction t
  | ushr {t : IntType} (x : HInstruction t) (distance : HInstruction .int32) : HInstruction t
  | ror {t : IntType} (x : HInstruction t) (distance : HInstruction .int32) : HInstruction t
  | rol {t : IntType} (x : HInstruction t) (distance : HInstruction .int32) : HInstruction t
  /-- `HTypeConversion` to an `int` kind: `(byte)`, `(char)`, `(short)`, `(int)`, and the
  unsigned byte the simplifier introduces. -/
  | typeConversion {s : IntType} (result : NarrowType) (x : HInstruction s) : HInstruction .int32
  /-- `HTypeConversion` of an `int` to `long`. -/
  | longConversion (x : HInstruction .int32) : HInstruction .int64
  deriving DecidableEq, Repr

/-- What an expression's free inputs hold in one execution. Array lengths are non-negative
`int`s. -/
structure HEnv where
  parameter : (t : IntType) → Nat → BitVec t.bits
  arrayLength : Nat → Nat
  arrayLength_lt : ∀ a, arrayLength a < 2 ^ 31

/-- The `int` value of a conversion's result type: the low bits, sign- or zero-extended. -/
def NarrowType.convert {s : IntType} (r : NarrowType) (v : BitVec s.bits) : BitVec 32 :=
  match r with
  | .int8 => (v.setWidth 8).signExtend 32
  | .uint8 => (v.setWidth 8).setWidth 32
  | .int16 => (v.setWidth 16).signExtend 32
  | .uint16 => (v.setWidth 16).setWidth 32
  | .int32 => v.setWidth 32

/-- A shift distance as the shift reads it: `distance & max_shift_distance`. -/
def maskedDistance (t : IntType) (distance : BitVec 32) : Nat :=
  (distance &&& BitVec.ofNat 32 t.maxShiftDistance).toNat

namespace HInstruction

/-- The Java value of an expression. -/
def eval (env : HEnv) : {t : IntType} → HInstruction t → BitVec t.bits
  | _, parameterValue t i => env.parameter t i
  | _, constant _ v => v
  | _, arrayLength a => BitVec.ofNat 32 (env.arrayLength a)
  | _, neg x => -x.eval env
  | _, not x => ~~~x.eval env
  | _, add x y => x.eval env + y.eval env
  | _, sub x y => x.eval env - y.eval env
  | _, mul x y => x.eval env * y.eval env
  | _, div x y => (x.eval env).sdiv (y.eval env)
  | _, rem x y => (x.eval env).srem (y.eval env)
  | _, and x y => x.eval env &&& y.eval env
  | _, or x y => x.eval env ||| y.eval env
  | _, xor x y => x.eval env ^^^ y.eval env
  | t, shl x d => x.eval env <<< maskedDistance t (d.eval env)
  | t, shr x d => (x.eval env).sshiftRight (maskedDistance t (d.eval env))
  | t, ushr x d => x.eval env >>> maskedDistance t (d.eval env)
  | t, ror x d => (x.eval env).rotateRight (maskedDistance t (d.eval env))
  | t, rol x d => (x.eval env).rotateLeft (maskedDistance t (d.eval env))
  | _, typeConversion r x => r.convert (x.eval env)
  | _, longConversion x => (x.eval env).signExtend 64

/-- `IsConstant`. -/
def isConstant {t : IntType} : HInstruction t → Bool
  | constant _ _ => true
  | _ => false

/-- `IsSub`. -/
def isSub {t : IntType} : HInstruction t → Bool
  | sub _ _ => true
  | _ => false

/-- `IsNeg`. -/
def isNeg {t : IntType} : HInstruction t → Bool
  | neg _ => true
  | _ => false

end HInstruction

/-- An array length is a non-negative `int`. -/
theorem HInstruction.toInt_eval_arrayLength (env : HEnv) (a : Nat) :
    ((HInstruction.arrayLength a).eval env).toInt = env.arrayLength a := by
  have hlt := env.arrayLength_lt a
  have hnat : ((HInstruction.arrayLength a).eval env).toNat = env.arrayLength a := by
    simp only [HInstruction.eval, IntType.bits, BitVec.toNat_ofNat]
    omega
  have htwice : 2 * ((HInstruction.arrayLength a).eval env).toNat < 2 ^ IntType.int32.bits := by
    rw [hnat]
    simp only [IntType.bits]
    omega
  rw [BitVec.toInt_eq_toNat_of_lt htwice, hnat]

/-! ## Shift distances

A shift reads the low five or six bits of its distance; these lemmas say which operations on a
distance leave those bits alone. -/

/-- Masking with `max_shift_distance` keeps the residue modulo the width, at any vector width
that the mask fits in. -/
theorem IntType.toNat_and_maxShiftDistance (t : IntType) {n : Nat} (x : BitVec n)
    (hn : 64 ≤ 2 ^ n) : (x &&& BitVec.ofNat n t.maxShiftDistance).toNat = x.toNat % t.bits := by
  cases t
  · exact x.toNat_and_ofNat_two_pow_sub_one 5 (by omega)
  · exact x.toNat_and_ofNat_two_pow_sub_one 6 hn

/-- The masked distance is the distance modulo the width. -/
theorem maskedDistance_eq (t : IntType) (d : BitVec 32) :
    maskedDistance t d = d.toNat % t.bits :=
  t.toNat_and_maxShiftDistance d (by decide)

theorem maskedDistance_lt (t : IntType) (d : BitVec 32) : maskedDistance t d < t.bits := by
  rw [maskedDistance_eq]
  exact Nat.mod_lt _ t.bits_pos

section Distance

variable {t : IntType} (x c : BitVec 32)

/-- A mask whose low bits are all set leaves the distance alone. -/
theorem maskedDistance_and_of_full (hc : maskedDistance t c = t.maxShiftDistance) :
    maskedDistance t (x &&& c) = maskedDistance t x := by
  have hmask : c &&& BitVec.ofNat 32 t.maxShiftDistance = BitVec.ofNat 32 t.maxShiftDistance := by
    apply BitVec.eq_of_toNat_eq
    rw [← maskedDistance, hc, BitVec.toNat_ofNat, Nat.mod_eq_of_lt t.maxShiftDistance_lt]
  unfold maskedDistance
  rw [BitVec.and_assoc, hmask]

section Zero

variable (hc : maskedDistance t c = 0)
include hc

theorem and_maxShiftDistance_eq_zero : c &&& BitVec.ofNat 32 t.maxShiftDistance = 0#32 :=
  BitVec.eq_of_toNat_eq hc

/-- Or-ing, xor-ing, adding or subtracting a multiple of the width leaves the distance alone. -/
theorem maskedDistance_or_of_zero : maskedDistance t (x ||| c) = maskedDistance t x := by
  unfold maskedDistance
  rw [BitVec.and_or_distrib_right, and_maxShiftDistance_eq_zero c hc, BitVec.or_zero]

theorem maskedDistance_xor_of_zero : maskedDistance t (x ^^^ c) = maskedDistance t x := by
  unfold maskedDistance
  rw [BitVec.xor_and_distrib_right, and_maxShiftDistance_eq_zero c hc, BitVec.xor_zero]

theorem maskedDistance_add_of_zero : maskedDistance t (x + c) = maskedDistance t x := by
  simp only [maskedDistance_eq] at hc ⊢
  rw [BitVec.toNat_add_mod_of_dvd t.bits_dvd_two_pow_32, Nat.add_mod, hc, Nat.add_zero,
    Nat.mod_mod]

theorem maskedDistance_sub_of_zero : maskedDistance t (x - c) = maskedDistance t x := by
  simp only [maskedDistance_eq] at hc ⊢
  have h := BitVec.toNat_add_sub_mod_of_dvd t.bits_dvd_two_pow_32 x c
  rwa [Nat.add_mod, hc, Nat.zero_add, Nat.mod_mod] at h

end Zero

end Distance

/-- Every `int` conversion keeps the low eight bits, hence the distance. -/
theorem maskedDistance_convert (t : IntType) {s : IntType} (r : NarrowType) (v : BitVec s.bits) :
    maskedDistance t (r.convert v) = maskedDistance t (v.setWidth 32) := by
  have h8 : t.bits ∣ 2 ^ 8 := by cases t <;> decide
  have h16 : t.bits ∣ 2 ^ 16 := by cases t <;> decide
  have h32 : t.bits ∣ 2 ^ 32 := t.bits_dvd_two_pow_32
  rw [maskedDistance_eq, maskedDistance_eq, BitVec.toNat_setWidth, Nat.mod_mod_of_dvd _ h32]
  cases r <;> simp only [NarrowType.convert, BitVec.toNat_setWidth, Nat.mod_mod_of_dvd _ h32,
    BitVec.toNat_signExtend_mod_of_dvd h8 _ (by decide : 8 ≤ 32),
    BitVec.toNat_signExtend_mod_of_dvd h16 _ (by decide : 16 ≤ 32), Nat.mod_mod_of_dvd _ h8,
    Nat.mod_mod_of_dvd _ h16]

end Art
