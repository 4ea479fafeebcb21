import Art.Lib.Conversion

/-!
# Folding a type conversion of a constant

`HTypeConversion::TryStaticEvaluation` (nodes.cc) folds a conversion whose input is an int,
long, float or double constant. Integral results are computed with C++ `static_cast`: a
conversion to a narrower integer type is taken modulo `2^N` ([conv.integral], `Int.bmod` and
`Int.emod` here), and a conversion of a floating value to an integer type is undefined unless
the truncated value fits ([conv.fpint], `BinaryFloat.Value.castToInt`). Before that cast the
code tests NaN and the two bounds of the target type itself. A result of floating type is the
input rounded to the format; C++ and Java round alike, so such a result is kept as the rounded
value (`Result.rounded`), not as a bit pattern.

`javaConversion` is the conversion Java specifies (JLS 5.1.2, 5.1.3).

* `tryStaticEvaluation_eq_java`: the fold gives `nullptr`, Java's constant, or reaches an
  undefined conversion;
* `tryStaticEvaluation_eq_undefined_iff`: the undefined conversion is reached exactly for a
  double input converted to int whose value lies in `(-2^63, -2^31 - 1]`: the double branch
  tests `value <= kPrimLongMin` where the float branch tests `kPrimIntMin`.
-/

namespace Art

open BinaryFloat

/-- The result types of a conversion (`DataType::Type`). -/
inductive ResultType where
  | int8
  | uint8
  | int16
  | uint16
  | int32
  | int64
  | float32
  | float64
  deriving DecidableEq, Repr

/-- An `HConstant` input: int and long constants by value, float and double constants by their
bit patterns. -/
inductive HConstant where
  | int (value : BitVec 32)
  | long (value : BitVec 64)
  | float (bits : BitVec 32)
  | double (bits : BitVec 64)
  deriving DecidableEq, Repr

/-- The constant a fold builds: `GetIntConstant`, `GetLongConstant`, or `GetFloatConstant` and
`GetDoubleConstant` of a value rounded to the format. -/
inductive Result where
  | int (value : BitVec 32)
  | long (value : BitVec 64)
  | rounded (format : BinaryFormat) (value : Value)
  deriving DecidableEq, Repr

/-- What `TryStaticEvaluation` does: return `nullptr`, return a constant, or reach a C++
conversion whose behaviour is undefined. -/
inductive Evaluation where
  | null
  | undefined
  | constant (result : Result)
  deriving DecidableEq, Repr

namespace HTypeConversion

/-- `GetIntConstant(static_cast<T>(value))` (`GetLongConstant` for `int64_t`) of an integral
`value`, and `static_cast<float>`/`static_cast<double>` for the floating types. -/
def castIntegral (result : ResultType) (value : ℤ) : Result :=
  match result with
  | .int8 => .int (BitVec.ofInt 32 (value.bmod (2 ^ 8)))
  | .uint8 => .int (BitVec.ofInt 32 (value % 2 ^ 8))
  | .int16 => .int (BitVec.ofInt 32 (value.bmod (2 ^ 16)))
  | .uint16 => .int (BitVec.ofInt 32 (value % 2 ^ 16))
  | .int32 => .int (BitVec.ofInt 32 (value.bmod (2 ^ 32)))
  | .int64 => .long (BitVec.ofInt 64 (value.bmod (2 ^ 64)))
  | .float32 => .rounded binary32 (.finite value)
  | .float64 => .rounded binary64 (.finite value)

/-- A floating input converted to int (`n = 32`) or long (`n = 64`): NaN is `0`, a value at or
above `upper` is the greatest integer, one at or below `lower` the least, and any other value is
`static_cast` to the integer type. The bounds are those the source tests, converted to the
input's type. -/
def convertFloating (n : Nat) (upper lower : ℚ) (make : BitVec n → Result) (value : Value) :
    Evaluation :=
  if value = .nan then .constant (make 0)
  else if value.geQ upper then .constant (make (BitVec.intMax n))
  else if value.leQ lower then .constant (make (BitVec.intMin n))
  else
    match value.castToInt n with
    | some r => .constant (make r)
    | none => .undefined

/-- `HTypeConversion::TryStaticEvaluation(input)`. -/
def tryStaticEvaluation (result : ResultType) : HConstant → Evaluation
  | .int value =>
    match result with
    | .int32 => .null
    | _ => .constant (castIntegral result value.toInt)
  | .long value =>
    match result with
    | .int64 => .null
    | _ => .constant (castIntegral result value.toInt)
  | .float bits =>
    let value := binary32.decode bits.toNat
    match result with
    -- `static_cast<float>(kPrimIntMax)` rounds to `2^31`; `kPrimIntMin` converts exactly
    | .int32 => convertFloating 32 (2 ^ 31) (-2 ^ 31) .int value
    | .int64 => convertFloating 64 (2 ^ 63) (-2 ^ 63) .long value
    | .float64 => .constant (.rounded binary64 value)
    | _ => .null
  | .double bits =>
    let value := binary64.decode bits.toNat
    match result with
    -- `value >= kPrimIntMax`, but `value <= kPrimLongMin` for the lower bound
    | .int32 => convertFloating 32 (2 ^ 31 - 1) (-2 ^ 63) .int value
    | .int64 => convertFloating 64 (2 ^ 63) (-2 ^ 63) .long value
    | .float32 => .constant (.rounded binary32 value)
    | _ => .null

end HTypeConversion

/-- Java's narrowing of an integral value to a result type: keep the low bits and sign- or
zero-extend them (`i2b`, `i2s`, `i2c`, `l2i`, and the `& 0xff` of a `uint8` conversion); widen
by sign extension (`i2l`); round to a floating format (`i2f`, `i2d`, `l2f`, `l2d`). -/
def javaIntegral {w : Nat} (result : ResultType) (value : BitVec w) : Result :=
  match result with
  | .int8 => .int ((value.setWidth 8).signExtend 32)
  | .uint8 => .int ((value.setWidth 8).setWidth 32)
  | .int16 => .int ((value.setWidth 16).signExtend 32)
  | .uint16 => .int ((value.setWidth 16).setWidth 32)
  | .int32 => .int (value.setWidth 32)
  | .int64 => .long (value.signExtend 64)
  | .float32 => .rounded binary32 (.finite value.toInt)
  | .float64 => .rounded binary64 (.finite value.toInt)

/-- Java's conversion of a constant (JLS 5.1.2, 5.1.3). A floating value goes to `int` or
`long` by `f2i`, `d2i`, `f2l`, `d2l`, and to a narrower integral type through `int`. -/
def javaConversion (result : ResultType) : HConstant → Result
  | .int value => javaIntegral result value
  | .long value => javaIntegral result value
  | .float bits => javaFloating result (binary32.decode bits.toNat)
  | .double bits => javaFloating result (binary64.decode bits.toNat)
where
  javaFloating (result : ResultType) (value : Value) : Result :=
    match result with
    | .int64 => .long (value.javaToInt 64)
    | .float32 => .rounded binary32 value
    | .float64 => .rounded binary64 value
    | _ => javaIntegral result (value.javaToInt 32)

namespace HTypeConversion

/-! ## Integral inputs -/

/-- The C++ casts of an integral value are Java's narrowing and widening conversions. -/
theorem castIntegral_toInt {w : Nat} (result : ResultType) (value : BitVec w) (hw : 32 ≤ w) :
    castIntegral result value.toInt = javaIntegral result value := by
  cases result with
  | int8 =>
    simp only [castIntegral, javaIntegral,
      BitVec.ofInt_bmod_eq_signExtend_setWidth _ (by omega : 8 ≤ w)]
  | uint8 =>
    simp only [castIntegral, javaIntegral,
      BitVec.ofInt_emod_eq_setWidth_setWidth _ (by omega : 8 ≤ w) (by omega : 8 ≤ 32)]
  | int16 =>
    simp only [castIntegral, javaIntegral,
      BitVec.ofInt_bmod_eq_signExtend_setWidth _ (by omega : 16 ≤ w)]
  | uint16 =>
    simp only [castIntegral, javaIntegral,
      BitVec.ofInt_emod_eq_setWidth_setWidth _ (by omega : 16 ≤ w) (by omega : 16 ≤ 32)]
  | int32 =>
    simp only [castIntegral, javaIntegral, BitVec.ofInt_bmod_eq_signExtend_setWidth _ hw,
      BitVec.signExtend_eq_setWidth_of_le _ le_rfl, BitVec.setWidth_eq]
  | int64 =>
    -- `static_cast<int64_t>` keeps the value, which is `signExtend`'s own definition
    simp only [castIntegral, javaIntegral, Result.long.injEq]
    apply BitVec.eq_of_toInt_eq
    rw [BitVec.toInt_ofInt, Int.bmod_bmod, BitVec.signExtend, BitVec.toInt_ofInt]
  | float32 => rfl
  | float64 => rfl

theorem tryStaticEvaluation_int (result : ResultType) (value : BitVec 32) :
    tryStaticEvaluation result (.int value) =
      if result = .int32 then .null else .constant (castIntegral result value.toInt) := by
  cases result <;> rfl

theorem tryStaticEvaluation_long (result : ResultType) (value : BitVec 64) :
    tryStaticEvaluation result (.long value) =
      if result = .int64 then .null else .constant (castIntegral result value.toInt) := by
  cases result <;> rfl

/-! ## Floating inputs -/

section Floating

variable {n : Nat} {upper lower : ℚ} {make : BitVec n → Result} {value : Value}

/-- With bounds at least as wide as the target's, every test the code makes before the cast
gives Java's value, and so does the cast wherever it is defined. -/
theorem convertFloating_eq_java (hupper : (2 : ℚ) ^ (n - 1) - 1 ≤ upper)
    (hlower : lower ≤ -(2 : ℚ) ^ (n - 1)) :
    convertFloating n upper lower make value = .constant (make (value.javaToInt n)) ∨
      convertFloating n upper lower make value = .undefined := by
  unfold convertFloating
  split_ifs with hnan hge hle
  · subst hnan
    exact .inl rfl
  · exact .inl (by rw [javaToInt_of_geQ hge hupper])
  · exact .inl (by rw [javaToInt_of_leQ hle hlower])
  · cases hcast : value.castToInt n with
    | some r => exact .inl (by rw [castToInt_eq_some hcast])
    | none => exact .inr rfl

/-- The cast is reached, and is undefined, exactly for a finite value strictly between the
bounds whose truncation does not fit. -/
theorem convertFloating_eq_undefined_iff :
    convertFloating n upper lower make value = .undefined ↔
      ∃ x, value = .finite x ∧ x < upper ∧ lower < x ∧ value.castToInt n = none := by
  constructor
  · intro h
    unfold convertFloating at h
    split_ifs at h with hnan hge hle
    cases hcast : value.castToInt n with
    | some r => rw [hcast] at h; cases h
    | none =>
      cases value with
      | finite x =>
        have hup : ¬ upper ≤ x := by simpa [Value.geQ] using hge
        have hlow : ¬ x ≤ lower := by simpa [Value.leQ] using hle
        exact ⟨x, rfl, not_le.1 hup, not_le.1 hlow, rfl⟩
      | nan => exact absurd rfl hnan
      | posInfinity => exact absurd rfl hge
      | negInfinity => exact absurd rfl hle
  · rintro ⟨x, rfl, hup, hlow, hcast⟩
    have hge : (Value.finite x).geQ upper = false := by simpa [Value.geQ] using hup
    have hle : (Value.finite x).leQ lower = false := by simpa [Value.leQ] using hlow
    simp only [convertFloating, reduceCtorEq, hge, hle, hcast, if_false, Bool.false_eq_true]

/-- Bounds no wider than the target's leave no value for which the cast is undefined. -/
theorem convertFloating_ne_undefined (hupper : upper ≤ (2 : ℚ) ^ (n - 1))
    (hlower : -(2 : ℚ) ^ (n - 1) ≤ lower) :
    convertFloating n upper lower make value ≠ .undefined := by
  rintro h
  obtain ⟨x, rfl, hup, hlow, hcast⟩ := convertFloating_eq_undefined_iff.1 h
  rw [castToInt_eq_some_of_bounds (by linarith) (by linarith)] at hcast
  cases hcast

end Floating

/-- Constant folding of a type conversion gives `nullptr` or the constant Java's conversion
gives, unless it reaches an undefined C++ conversion. -/
theorem tryStaticEvaluation_eq_java (result : ResultType) (input : HConstant) :
    tryStaticEvaluation result input = .null ∨ tryStaticEvaluation result input = .undefined ∨
      tryStaticEvaluation result input = .constant (javaConversion result input) := by
  cases input with
  | int value =>
    rw [tryStaticEvaluation_int]
    split_ifs
    · exact .inl rfl
    · exact .inr (.inr (by rw [castIntegral_toInt result value le_rfl]; rfl))
  | long value =>
    rw [tryStaticEvaluation_long]
    split_ifs
    · exact .inl rfl
    · exact .inr (.inr (by rw [castIntegral_toInt result value (by omega)]; rfl))
  | float bits =>
    -- the int and long results go through `convertFloating`; the others are `nullptr` or a
    -- rounding, as in Java
    cases result with
    | int32 =>
      rcases @convertFloating_eq_java 32 (2 ^ 31) (-2 ^ 31) .int
        (binary32.decode bits.toNat) (by norm_num) (by norm_num)
        with h | h
      · exact .inr (.inr (by simpa [tryStaticEvaluation, javaConversion,
          javaConversion.javaFloating, javaIntegral] using h))
      · exact .inr (.inl h)
    | int64 =>
      rcases @convertFloating_eq_java 64 (2 ^ 63) (-2 ^ 63) .long
        (binary32.decode bits.toNat) (by norm_num) (by norm_num)
        with h | h
      · exact .inr (.inr h)
      · exact .inr (.inl h)
    | float64 => exact .inr (.inr rfl)
    | _ => exact .inl rfl
  | double bits =>
    cases result with
    | int32 =>
      rcases @convertFloating_eq_java 32 (2 ^ 31 - 1) (-2 ^ 63) .int
        (binary64.decode bits.toNat) (by norm_num) (by norm_num)
        with h | h
      · exact .inr (.inr (by simpa [tryStaticEvaluation, javaConversion,
          javaConversion.javaFloating, javaIntegral] using h))
      · exact .inr (.inl h)
    | int64 =>
      rcases @convertFloating_eq_java 64 (2 ^ 63) (-2 ^ 63) .long
        (binary64.decode bits.toNat) (by norm_num) (by norm_num)
        with h | h
      · exact .inr (.inr h)
      · exact .inr (.inl h)
    | float32 => exact .inr (.inr rfl)
    | _ => exact .inl rfl

/-- The fold reaches an undefined conversion exactly for a double converted to int whose value
lies in `(-2^63, -2^31 - 1]`: such a value passes the test against `kPrimLongMin` and its
truncation does not fit in `int32_t`. Every other input and result type is folded to `nullptr`
or to a defined constant. -/
theorem tryStaticEvaluation_eq_undefined_iff (result : ResultType) (input : HConstant) :
    tryStaticEvaluation result input = .undefined ↔
      result = .int32 ∧ ∃ bits x, input = .double bits ∧
        binary64.decode bits.toNat = .finite x ∧ -2 ^ 63 < x ∧ x ≤ -2 ^ 31 - 1 := by
  constructor
  · intro h
    cases input with
    | int value => rw [tryStaticEvaluation_int] at h; split_ifs at h
    | long value => rw [tryStaticEvaluation_long] at h; split_ifs at h
    | float bits =>
      cases result with
      | int32 => exact absurd h (convertFloating_ne_undefined (by norm_num) (by norm_num))
      | int64 => exact absurd h (convertFloating_ne_undefined (by norm_num) (by norm_num))
      | _ => cases h
    | double bits =>
      cases result with
      | int32 =>
        obtain ⟨x, hx, hup, hlow, hcast⟩ := convertFloating_eq_undefined_iff.1 h
        -- above `-2^31 - 1` the cast would be defined, since `x < 2^31 - 1`
        have hhigh : x ≤ -2 ^ 31 - 1 := by
          by_contra hgt
          rw [hx, castToInt_eq_some_of_bounds (by norm_num; linarith) (by norm_num; linarith)]
            at hcast
          cases hcast
        exact ⟨rfl, bits, x, rfl, hx, hlow, hhigh⟩
      | int64 => exact absurd h (convertFloating_ne_undefined (by norm_num) (by norm_num))
      | _ => cases h
  · rintro ⟨rfl, bits, x, rfl, hx, hlow, hhigh⟩
    refine convertFloating_eq_undefined_iff.2 ⟨x, hx, by linarith, hlow, ?_⟩
    rw [hx]
    exact castToInt_eq_none_of_le (by norm_num; linarith)

/-- A double in `(-2^63, -2^31 - 1]` converted to int reaches `static_cast<int32_t>(value)` with
a value `int32_t` cannot hold, where Java gives `Integer.MIN_VALUE`. -/
theorem tryStaticEvaluation_double_to_int_undefined (bits : BitVec 64) (x : ℚ)
    (hvalue : binary64.decode bits.toNat = .finite x) (hlow : -2 ^ 63 < x)
    (hhigh : x ≤ -2 ^ 31 - 1) :
    tryStaticEvaluation .int32 (.double bits) = .undefined ∧
      javaConversion .int32 (.double bits) = .int (BitVec.intMin 32) := by
  refine ⟨(tryStaticEvaluation_eq_undefined_iff _ _).2 ⟨rfl, bits, x, rfl, hvalue, hlow, hhigh⟩, ?_⟩
  have hmin : (Value.finite x).javaToInt 32 = BitVec.intMin 32 :=
    javaToInt_of_le_neg (by norm_num; linarith)
  simp only [javaConversion, javaConversion.javaFloating, javaIntegral, hvalue, hmin]
  rfl

/-- The double `-3.0E9`, bit pattern `0xc1e65a0bc0000000`. -/
theorem tryStaticEvaluation_double_to_int_at_minus_three_billion :
    binary64.decode (0xc1e65a0bc0000000 : BitVec 64).toNat = .finite (-3000000000) ∧
      -2 ^ 63 < (-3000000000 : ℚ) ∧ (-3000000000 : ℚ) ≤ -2 ^ 31 - 1 ∧
      tryStaticEvaluation .int32 (.double 0xc1e65a0bc0000000) = .undefined ∧
      javaConversion .int32 (.double 0xc1e65a0bc0000000) = .int (BitVec.intMin 32) := by
  have hvalue : binary64.decode (0xc1e65a0bc0000000 : BitVec 64).toNat =
      .finite (-3000000000) := by decide +kernel
  exact ⟨hvalue, by norm_num, by norm_num,
    tryStaticEvaluation_double_to_int_undefined 0xc1e65a0bc0000000 (-3000000000) hvalue
      (by norm_num) (by norm_num)⟩

end HTypeConversion

end Art
