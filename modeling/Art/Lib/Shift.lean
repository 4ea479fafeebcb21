import Mathlib.Data.Nat.Bitwise

/-!
# Masked shifts and rotations of bit vectors

Shift and rotate instructions of two's-complement machines read their distance modulo the width,
as the low bits of a register. This module collects the facts about such distances (which
operations keep their low bits) and about rotations written with two shifts (the two shifted
halves have no bit in common, so `|||`, `+` and `^^^` combine them alike).
-/

namespace BitVec

variable {w : Nat}

/-- The two halves of a rotation by `r ≤ w` share no bit. -/
theorem ushiftRight_and_shiftLeft_sub (x : BitVec w) {r : Nat} (hr : r ≤ w) :
    (x >>> r) &&& (x <<< (w - r)) = 0#w := by
  ext i hi
  simp only [getElem_and, getElem_ushiftRight, getElem_shiftLeft, getElem_zero]
  by_cases hlow : i < w - r
  · simp [hlow]
  · have hout : x.getLsbD (r + i) = false := getLsbD_of_ge x _ (by omega)
    simp [hout]

theorem xor_eq_or_of_and_eq_zero (x y : BitVec w) (h : x &&& y = 0#w) : x ^^^ y = x ||| y := by
  ext i hi
  have hi' := congrArg (fun z => z[i]) h
  simp only [getElem_and, getElem_zero] at hi'
  simp only [getElem_xor, getElem_or]
  cases hx : x[i] <;> cases hy : y[i] <;> simp_all

/-- A rotation is the sum of its two halves. -/
theorem rotateRight_eq_add (x : BitVec w) (r : Nat) :
    x.rotateRight r = (x >>> (r % w)) + (x <<< (w - r % w)) := by
  rcases Nat.eq_zero_or_pos w with rfl | hw
  · ext i hi; omega
  · have hr : r % w ≤ w := (Nat.mod_lt r hw).le
    rw [rotateRight_def, add_eq_or_of_and_eq_zero _ _ (ushiftRight_and_shiftLeft_sub x hr)]

/-- A rotation is the exclusive or of its two halves. -/
theorem rotateRight_eq_xor (x : BitVec w) (r : Nat) :
    x.rotateRight r = (x >>> (r % w)) ^^^ (x <<< (w - r % w)) := by
  rcases Nat.eq_zero_or_pos w with rfl | hw
  · ext i hi; omega
  · have hr : r % w ≤ w := (Nat.mod_lt r hw).le
    rw [rotateRight_def, xor_eq_or_of_and_eq_zero _ _ (ushiftRight_and_shiftLeft_sub x hr)]

theorem rotateRight_zero_eq (x : BitVec w) : x.rotateRight 0 = x := by
  rw [rotateRight_eq_add, Nat.zero_mod, ushiftRight_zero, Nat.sub_zero, shiftLeft_eq_zero (by omega),
    BitVec.add_zero]

/-- Two right and left distances below the width that add up to a multiple of it are `r` and
`w - r`, or both zero. -/
theorem eq_sub_of_add_mod_eq_zero {r l : Nat} (hr : r < w) (hl : l < w) (h : (r + l) % w = 0) :
    l = (w - r) % w := by
  by_cases hsmall : r + l < w
  · rw [Nat.mod_eq_of_lt hsmall] at h
    have hr0 : r = 0 := by omega
    subst hr0
    rw [Nat.sub_zero, Nat.mod_self]
    omega
  · have hsub : (r + l) % w = r + l - w := by
      rw [Nat.mod_eq_sub_mod (by omega), Nat.mod_eq_of_lt (by omega)]
    have hr0 : r ≠ 0 := by omega
    rw [Nat.mod_eq_of_lt (by omega)]
    omega

section Halves

variable (x : BitVec w) {r l : Nat} (hr : r < w) (hl : l < w) (h : (r + l) % w = 0)
include hr hl h

/-- The two halves of a rotation by `r`, shifted by distances adding up to a multiple of the
width, combine by `|||` into the rotation; for `r = 0` both halves are `x` itself. -/
theorem ushiftRight_or_shiftLeft_eq_rotateRight : (x >>> r) ||| (x <<< l) = x.rotateRight r := by
  have hl' := eq_sub_of_add_mod_eq_zero hr hl h
  by_cases hr0 : r = 0
  · subst hr0
    rw [Nat.sub_zero, Nat.mod_self] at hl'
    rw [hl', ushiftRight_zero, shiftLeft_zero, BitVec.or_self, rotateRight_zero_eq]
  · rw [rotateRight_def, Nat.mod_eq_of_lt hr, hl', Nat.mod_eq_of_lt (by omega)]

/-- With `+` or `^^^` the halves make the rotation only when they are disjoint, `r ≠ 0`. -/
theorem ushiftRight_add_shiftLeft_eq_rotateRight (hr0 : r ≠ 0) :
    (x >>> r) + (x <<< l) = x.rotateRight r := by
  have hl' := eq_sub_of_add_mod_eq_zero hr hl h
  rw [rotateRight_eq_add, Nat.mod_eq_of_lt hr, hl', Nat.mod_eq_of_lt (by omega)]

theorem ushiftRight_xor_shiftLeft_eq_rotateRight (hr0 : r ≠ 0) :
    (x >>> r) ^^^ (x <<< l) = x.rotateRight r := by
  have hl' := eq_sub_of_add_mod_eq_zero hr hl h
  rw [rotateRight_eq_xor, Nat.mod_eq_of_lt hr, hl', Nat.mod_eq_of_lt (by omega)]

end Halves

theorem xor_and_distrib_right (x y z : BitVec w) : (x ^^^ y) &&& z = (x &&& z) ^^^ (y &&& z) := by
  ext i hi
  simp only [getElem_and, getElem_xor]
  cases x[i] <;> cases y[i] <;> cases z[i] <;> rfl

/-! ## Residues modulo a divisor of the modulus

A distance read modulo `m` is unchanged by any arithmetic done modulo a multiple of `m`. -/

/-- Masking with `2 ^ k - 1` keeps the residue modulo `2 ^ k`. -/
theorem toNat_and_ofNat_two_pow_sub_one (x : BitVec w) (k : Nat) (hk : 2 ^ k ≤ 2 ^ w) :
    (x &&& BitVec.ofNat w (2 ^ k - 1)).toNat = x.toNat % 2 ^ k := by
  have hlt : 2 ^ k - 1 < 2 ^ w := by have := Nat.one_le_two_pow (n := k); omega
  rw [toNat_and, toNat_ofNat, Nat.mod_eq_of_lt hlt, Nat.and_two_pow_sub_one_eq_mod]

section Residue

variable {m : Nat} (hm : m ∣ 2 ^ w)
include hm

theorem toNat_add_mod_of_dvd (x y : BitVec w) :
    (x + y).toNat % m = (x.toNat + y.toNat) % m := by
  rw [toNat_add, Nat.mod_mod_of_dvd _ hm]

/-- Subtracting `y` and adding it back is the identity on residues. -/
theorem toNat_add_sub_mod_of_dvd (x y : BitVec w) :
    (y.toNat + (x - y).toNat) % m = x.toNat % m := by
  have hy := y.isLt
  have hsum : y.toNat + (2 ^ w - y.toNat + x.toNat) = x.toNat + 2 ^ w := by omega
  rw [toNat_sub, Nat.add_mod, Nat.mod_mod_of_dvd _ hm, ← Nat.add_mod, hsum, Nat.add_mod,
    Nat.mod_eq_zero_of_dvd hm, Nat.add_zero, Nat.mod_mod]

theorem toNat_add_neg_mod_of_dvd (x : BitVec w) : (x.toNat + (-x).toNat) % m = 0 := by
  have h := toNat_add_sub_mod_of_dvd hm 0#w x
  rwa [BitVec.zero_sub, toNat_zero, Nat.zero_mod] at h

/-- Sign extension to a wider vector keeps the residue. -/
theorem toNat_signExtend_mod_of_dvd (x : BitVec w) {v : Nat} (hv : w ≤ v) :
    (x.signExtend v).toNat % m = x.toNat % m := by
  have hpow : 2 ^ w ∣ 2 ^ v := Nat.pow_dvd_pow 2 hv
  have hlt : x.toNat < 2 ^ v := Nat.lt_of_lt_of_le x.isLt (Nat.pow_le_pow_right (by decide) hv)
  rw [toNat_signExtend, toNat_setWidth, Nat.mod_eq_of_lt hlt]
  split
  · have hdiff : m ∣ 2 ^ v - 2 ^ w := Nat.dvd_sub (hm.trans hpow) hm
    rw [Nat.add_mod, Nat.mod_eq_zero_of_dvd hdiff, Nat.add_zero, Nat.mod_mod]
  · rfl

end Residue

end BitVec
