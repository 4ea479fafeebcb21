import Mathlib.Data.Rat.Floor
import Mathlib.Tactic.Linarith

/-!
# Conversions between number types, in C++ and in Java

**Integral narrowing.** C++ converts an integer to an `N`-bit integer type by taking the value of
that type congruent to it modulo `2^N` ([conv.integral]): `Int.bmod` for a signed type,
`Int.emod` for an unsigned one. Java keeps the `N` lowest bits and sign- or zero-extends them
(JLS 5.1.3). `BitVec.ofInt_bmod_eq_signExtend_setWidth` and
`BitVec.ofInt_emod_eq_setWidth_setWidth` say the two agree.

**Floating to integral.** A binary interchange datum decodes to NaN, an infinity, or a rational
value (both zeros decode to `0`). Two conversions to an `n`-bit signed integer are defined on the
decoded value:

* `Value.castToInt`, the C++ conversion of a floating value to an integer type
  ([conv.fpint]): the value truncated toward zero, undefined (`none`) when the truncated value
  is not representable;
* `Value.javaToInt`, Java's narrowing conversion to `int` or `long` (JLS 5.1.3): NaN becomes
  `0`, the value is truncated toward zero, and a value out of range becomes the least or the
  greatest integer.

The two agree wherever the C++ conversion is defined (`castToInt_eq_some`), the C++ conversion
is defined exactly on the values above `-2^(n-1) - 1` and below `2^(n-1)`
(`castToInt_eq_some_of_bounds`, `castToInt_eq_none_of_le`), and Java's conversion saturates at the
bounds (`javaToInt_of_geQ`, `javaToInt_of_leQ`).
-/

namespace BitVec

variable {w : Nat}

theorem toInt_setWidth_eq_bmod (x : BitVec w) {k : Nat} (hk : k ≤ w) :
    (x.setWidth k).toInt = x.toInt.bmod (2 ^ k) := by
  have hdvd : 2 ^ k ∣ 2 ^ w := Nat.pow_dvd_pow 2 hk
  rw [toInt_setWidth, toInt_eq_toNat_bmod x, Int.bmod_bmod_of_dvd hdvd]

theorem toInt_emod_two_pow (x : BitVec w) {k : Nat} (hk : k ≤ w) :
    x.toInt % 2 ^ k = (x.toNat : ℤ) % 2 ^ k := by
  have hdvd : (2 : ℤ) ^ k ∣ ((2 ^ w : ℕ) : ℤ) := by push_cast; exact pow_dvd_pow 2 hk
  rw [toInt_eq_toNat_bmod, ← Int.emod_emod_of_dvd _ hdvd, Int.bmod_emod,
    Int.emod_emod_of_dvd _ hdvd]

/-- A signed narrowing to `k` bits, then widened to `v` bits, keeps the low `k` bits
sign-extended. -/
theorem ofInt_bmod_eq_signExtend_setWidth (x : BitVec w) {k v : Nat} (hk : k ≤ w) :
    BitVec.ofInt v (x.toInt.bmod (2 ^ k)) = (x.setWidth k).signExtend v := by
  rw [← toInt_setWidth_eq_bmod x hk]
  rfl

/-- An unsigned narrowing to `k` bits, then widened to `v` bits, keeps the low `k` bits
zero-extended. -/
theorem ofInt_emod_eq_setWidth_setWidth (x : BitVec w) {k v : Nat} (hk : k ≤ w) (hv : k ≤ v) :
    BitVec.ofInt v (x.toInt % 2 ^ k) = (x.setWidth k).setWidth v := by
  have hlt : x.toNat % 2 ^ k < 2 ^ v :=
    (Nat.mod_lt _ (Nat.two_pow_pos k)).trans_le (Nat.pow_le_pow_right (by decide) hv)
  have hcast : (x.toNat : ℤ) % 2 ^ k = ((x.toNat % 2 ^ k : ℕ) : ℤ) := by push_cast; rfl
  apply eq_of_toNat_eq
  rw [toNat_ofInt, toInt_emod_two_pow x hk, hcast, ← Int.natCast_mod, Int.toNat_natCast,
    toNat_setWidth, toNat_setWidth, Nat.mod_eq_of_lt hlt]

end BitVec

namespace BinaryFloat

/-- The value of a binary floating-point datum. -/
inductive Value where
  | nan
  | negInfinity
  | posInfinity
  | finite (x : ℚ)
  deriving DecidableEq, Repr

/-- A binary interchange format, by the widths of its exponent and fraction fields. -/
structure BinaryFormat where
  exponentBits : Nat
  fractionBits : Nat
  deriving DecidableEq, Repr

def binary32 : BinaryFormat := ⟨8, 23⟩

def binary64 : BinaryFormat := ⟨11, 52⟩

def BinaryFormat.bias (f : BinaryFormat) : Nat := 2 ^ (f.exponentBits - 1) - 1

/-- The value of the datum with the bit pattern `bits`: sign, biased exponent and fraction,
with subnormals for the zero exponent and infinities and NaNs for the largest. -/
def BinaryFormat.decode (f : BinaryFormat) (bits : Nat) : Value :=
  let fraction := bits % 2 ^ f.fractionBits
  let exponent := bits / 2 ^ f.fractionBits % 2 ^ f.exponentBits
  let negative := bits / 2 ^ (f.fractionBits + f.exponentBits) % 2 = 1
  if exponent = 2 ^ f.exponentBits - 1 then
    if fraction = 0 then (if negative then .negInfinity else .posInfinity) else .nan
  else
    let significand : ℚ := if exponent = 0 then fraction else 2 ^ f.fractionBits + fraction
    let scale : ℤ := (if exponent = 0 then 1 else (exponent : ℤ)) - f.bias - f.fractionBits
    let magnitude := significand * (2 : ℚ) ^ scale
    .finite (if negative then -magnitude else magnitude)

/-- `value >= c` for a constant `c`; false on NaN. -/
def Value.geQ : Value → ℚ → Bool
  | .nan, _ => false
  | .negInfinity, _ => false
  | .posInfinity, _ => true
  | .finite x, c => decide (c ≤ x)

/-- `value <= c` for a constant `c`; false on NaN. -/
def Value.leQ : Value → ℚ → Bool
  | .nan, _ => false
  | .negInfinity, _ => true
  | .posInfinity, _ => false
  | .finite x, c => decide (x ≤ c)

/-- Truncation toward zero. -/
def truncate (x : ℚ) : ℤ :=
  if 0 ≤ x then ⌊x⌋ else ⌈x⌉

/-- The C++ conversion to a signed `n`-bit integer: defined when the truncated value fits. -/
def Value.castToInt (n : Nat) : Value → Option (BitVec n)
  | .finite x =>
    if -(2 : ℤ) ^ (n - 1) ≤ truncate x ∧ truncate x < 2 ^ (n - 1) then
      some (BitVec.ofInt n (truncate x))
    else none
  | _ => none

/-- Java's narrowing conversion to a signed `n`-bit integer. -/
def Value.javaToInt (n : Nat) : Value → BitVec n
  | .nan => 0
  | .negInfinity => BitVec.intMin n
  | .posInfinity => BitVec.intMax n
  | .finite x =>
    if truncate x < -(2 : ℤ) ^ (n - 1) then BitVec.intMin n
    else if (2 : ℤ) ^ (n - 1) ≤ truncate x then BitVec.intMax n
    else BitVec.ofInt n (truncate x)

/-! ## Truncation -/

theorem truncate_le_of_nonneg {x : ℚ} (hx : 0 ≤ x) : (truncate x : ℚ) ≤ x := by
  rw [truncate, if_pos hx]
  exact Int.floor_le x

theorem lt_truncate_add_one_of_nonneg {x : ℚ} (hx : 0 ≤ x) : x < truncate x + 1 := by
  rw [truncate, if_pos hx]
  exact Int.lt_floor_add_one x

theorem le_truncate_of_neg {x : ℚ} (hx : x < 0) : x ≤ truncate x := by
  rw [truncate, if_neg (not_le.2 hx)]
  exact Int.le_ceil x

theorem truncate_lt_add_one_of_neg {x : ℚ} (hx : x < 0) : (truncate x : ℚ) < x + 1 := by
  rw [truncate, if_neg (not_le.2 hx)]
  exact Int.ceil_lt_add_one x

/-- Truncation keeps any integer bound from below. -/
theorem le_truncate {x : ℚ} {k : ℤ} (h : (k : ℚ) ≤ x) : k ≤ truncate x := by
  rcases le_or_gt 0 x with hx | hx
  · rw [truncate, if_pos hx]
    exact Int.le_floor.2 h
  · exact Int.cast_le.1 (h.trans (le_truncate_of_neg hx))

/-- Truncation keeps any integer bound from above. -/
theorem truncate_le {x : ℚ} {k : ℤ} (h : x ≤ k) : truncate x ≤ k := by
  rcases le_or_gt 0 x with hx | hx
  · exact Int.cast_le.1 ((truncate_le_of_nonneg hx).trans h)
  · rw [truncate, if_neg (not_le.2 hx)]
    exact Int.ceil_le.2 h

/-- Above `k - 1` for `k ≤ 0`, the truncated value is at least `k`. -/
theorem le_truncate_of_sub_one_lt {x : ℚ} {k : ℤ} (hk : k ≤ 0) (h : (k : ℚ) - 1 < x) :
    k ≤ truncate x := by
  rcases le_or_gt 0 x with hx | hx
  · exact hk.trans (le_truncate (by exact_mod_cast hx))
  · have hceil : x ≤ truncate x := le_truncate_of_neg hx
    have : (k : ℚ) - 1 < truncate x := h.trans_le hceil
    exact_mod_cast (Int.sub_one_lt_iff.1 (by exact_mod_cast this))

/-- Below `k` for `0 < k`, the truncated value is below `k`. -/
theorem truncate_lt_of_lt {x : ℚ} {k : ℤ} (hk : 0 < k) (h : x < k) : truncate x < k := by
  rcases le_or_gt 0 x with hx | hx
  · exact_mod_cast (truncate_le_of_nonneg hx).trans_lt h
  · exact (truncate_le (x := x) (k := 0) (by exact_mod_cast hx.le)).trans_lt hk

/-! ## The two conversions -/

theorem castToInt_eq_some_of_bounds {n : Nat} {x : ℚ} (hlow : -(2 : ℚ) ^ (n - 1) - 1 < x)
    (hhigh : x < (2 : ℚ) ^ (n - 1)) :
    (Value.finite x).castToInt n = some (BitVec.ofInt n (truncate x)) := by
  have hpos := pow_pos (two_pos : (0 : ℤ) < 2) (n - 1)
  have hl : -(2 : ℤ) ^ (n - 1) ≤ truncate x :=
    le_truncate_of_sub_one_lt (by omega) (by push_cast; exact hlow)
  have hh : truncate x < 2 ^ (n - 1) := truncate_lt_of_lt hpos (by push_cast; exact hhigh)
  rw [Value.castToInt, if_pos ⟨hl, hh⟩]

theorem castToInt_eq_none_of_le {n : Nat} {x : ℚ} (h : x ≤ -(2 : ℚ) ^ (n - 1) - 1) :
    (Value.finite x).castToInt n = none := by
  have ht : truncate x ≤ -(2 : ℤ) ^ (n - 1) - 1 := truncate_le (by push_cast; exact h)
  have hnot : ¬ (-(2 : ℤ) ^ (n - 1) ≤ truncate x ∧ truncate x < 2 ^ (n - 1)) := by omega
  rw [Value.castToInt, if_neg hnot]

/-- Where the C++ conversion is defined, it is Java's. -/
theorem castToInt_eq_some {n : Nat} {v : Value} {r : BitVec n} (h : v.castToInt n = some r) :
    r = v.javaToInt n := by
  cases v with
  | finite x =>
    simp only [Value.castToInt] at h
    split_ifs at h with hfits
    cases h
    have hlow : ¬ truncate x < -(2 : ℤ) ^ (n - 1) := not_lt.2 hfits.1
    have hhigh : ¬ (2 : ℤ) ^ (n - 1) ≤ truncate x := not_le.2 hfits.2
    simp only [Value.javaToInt, hlow, hhigh, if_false]
  | _ => cases h

/-- A value at or below `-2^(n-1)` converts to the least integer. -/
theorem javaToInt_of_le_neg {n : Nat} {x : ℚ} (h : x ≤ -(2 : ℚ) ^ (n - 1)) :
    (Value.finite x).javaToInt n = BitVec.intMin n := by
  have ht : truncate x ≤ -(2 : ℤ) ^ (n - 1) := truncate_le (by push_cast; exact h)
  rw [Value.javaToInt]
  rcases lt_or_eq_of_le ht with hlt | heq
  · rw [if_pos hlt]
  · have hnot : ¬ (2 : ℤ) ^ (n - 1) ≤ truncate x := by
      rw [heq]
      have := pow_pos (two_pos : (0 : ℤ) < 2) (n - 1)
      omega
    rw [if_neg (not_lt.2 heq.ge), if_neg hnot, heq]
    apply BitVec.eq_of_toInt_eq
    rcases Nat.eq_zero_or_pos n with rfl | hn
    · rfl
    · have hpos := pow_pos (two_pos : (0 : ℤ) < 2) (n - 1)
      rw [BitVec.toInt_intMin_of_pos hn, BitVec.toInt_ofInt_eq_self hn le_rfl (by omega)]

/-- A value at or above `2^(n-1) - 1` converts to the greatest integer. -/
theorem javaToInt_of_ge {n : Nat} {x : ℚ} (h : (2 : ℚ) ^ (n - 1) - 1 ≤ x) :
    (Value.finite x).javaToInt n = BitVec.intMax n := by
  have ht : (2 : ℤ) ^ (n - 1) - 1 ≤ truncate x := le_truncate (by push_cast; exact h)
  have hnot : ¬ truncate x < -(2 : ℤ) ^ (n - 1) := by
    have := pow_pos (two_pos : (0 : ℤ) < 2) (n - 1)
    omega
  rw [Value.javaToInt, if_neg hnot]
  rcases lt_or_eq_of_le ht with hlt | heq
  · rw [if_pos (by omega)]
  · have hbelow : ¬ (2 : ℤ) ^ (n - 1) ≤ truncate x := by omega
    rw [if_neg hbelow, ← heq]
    apply BitVec.eq_of_toInt_eq
    rcases Nat.eq_zero_or_pos n with rfl | hn
    · rfl
    · have hpos := pow_pos (two_pos : (0 : ℤ) < 2) (n - 1)
      rw [BitVec.toInt_intMax, BitVec.toInt_ofInt_eq_self hn (by omega) (by omega)]

/-- A value that passes a test `value >= c` with `c ≥ 2^(n-1) - 1` converts to the greatest
integer. -/
theorem javaToInt_of_geQ {n : Nat} {v : Value} {c : ℚ} (h : v.geQ c = true)
    (hc : (2 : ℚ) ^ (n - 1) - 1 ≤ c) : v.javaToInt n = BitVec.intMax n := by
  cases v with
  | posInfinity => rfl
  | finite x =>
    have hx : c ≤ x := of_decide_eq_true h
    exact javaToInt_of_ge (hc.trans hx)
  | _ => cases h

/-- A value that passes a test `value <= c` with `c ≤ -2^(n-1)` converts to the least
integer. -/
theorem javaToInt_of_leQ {n : Nat} {v : Value} {c : ℚ} (h : v.leQ c = true)
    (hc : c ≤ -(2 : ℚ) ^ (n - 1)) : v.javaToInt n = BitVec.intMin n := by
  cases v with
  | negInfinity => rfl
  | finite x =>
    have hx : x ≤ c := of_decide_eq_true h
    exact javaToInt_of_le_neg (hx.trans hc)
  | _ => cases h

end BinaryFloat
