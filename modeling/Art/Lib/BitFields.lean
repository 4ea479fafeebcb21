import Mathlib.Data.Nat.Bitwise

/-!
# Bit fields of machine words as digits

Encoders pack fields into words with masks, shifts and `|`, and decoders take them apart the same
way. Where the fields do not overlap, each of these is plain arithmetic on the values: a mask of
`2 ^ k - 1` is `% 2 ^ k` (`toNat_and_of_toNat_eq`), one of the bits from `k` up clears that
residue (`toNat_and_of_eq_allOnes_shiftLeft`), a single-bit mask tests a binary digit
(`and_eq_zero_iff`), and `|` of a field below `2 ^ k` into a value whose low `k` bits are clear
is `+` (`toNat_or_of_mod_eq_zero`). A byte written as a tag `t * 2 ^ k` and a `k`-bit field is
`t * 2 ^ k + field` (`toNat_setWidth_or`); a field masked out of a byte into a wider word is
`field`, and shifted there `field * 2 ^ s` (`toNat_setWidth_and`,
`toNat_shiftLeft_setWidth_and`). Then `omega` does the rest.
-/

namespace BitVec

variable {w : Nat}

/-- `|` of a value below `2 ^ k` into one whose low `k` bits are clear adds them. -/
theorem toNat_or_of_mod_eq_zero {k : Nat} {x y : BitVec w} (hx : x.toNat % 2 ^ k = 0)
    (hy : y.toNat < 2 ^ k) : (x ||| y).toNat = x.toNat + y.toNat := by
  have h : x.toNat = (x.toNat / 2 ^ k) <<< k := by
    rw [Nat.shiftLeft_eq, Nat.div_mul_cancel (Nat.dvd_of_mod_eq_zero hx)]
  rw [toNat_or, h, ← Nat.shiftLeft_add_eq_or_of_lt hy]

/-- A mask of `2 ^ k - 1` keeps the residue modulo `2 ^ k`. -/
theorem toNat_and_of_toNat_eq {k : Nat} {x m : BitVec w} (hm : m.toNat = 2 ^ k - 1) :
    (x &&& m).toNat = x.toNat % 2 ^ k := by
  rw [toNat_and, hm, Nat.and_two_pow_sub_one_eq_mod]

/-- A mask of the bits from `k` up clears the residue modulo `2 ^ k`. -/
theorem toNat_and_of_eq_allOnes_shiftLeft {k : Nat} {x m : BitVec w} (hm : m = allOnes w <<< k) :
    (x &&& m).toNat = x.toNat / 2 ^ k * 2 ^ k := by
  have hlt : x.toNat / 2 ^ k * 2 ^ k < 2 ^ w := lt_of_le_of_lt (Nat.div_mul_le_self _ _) x.isLt
  rw [hm, ← shiftLeft_ushiftRight, toNat_shiftLeft, toNat_ushiftRight, Nat.shiftLeft_eq,
    Nat.shiftRight_eq_div_pow, Nat.mod_eq_of_lt hlt]

/-- A mask of `2 ^ k` tests binary digit `k`. -/
theorem and_eq_zero_iff {k : Nat} {x m : BitVec w} (hm : m.toNat = 2 ^ k) :
    x &&& m = 0 ↔ x.toNat / 2 ^ k % 2 = 0 := by
  rw [← toNat_inj, toNat_and, hm, Nat.and_comm, Nat.two_pow_and, Nat.testBit_eq_decide_div_mod_eq]
  rcases Nat.mod_two_eq_zero_or_one (x.toNat / 2 ^ k) with h | h <;> simp [h]

/-- A byte written as the tag `t * 2 ^ k` and a field below `2 ^ k`. -/
theorem toNat_setWidth_or {k t : Nat} {x c : BitVec w} (hx : x.toNat < 2 ^ k)
    (hc : c.toNat = t * 2 ^ k) (ht : (t + 1) * 2 ^ k ≤ 2 ^ 8) :
    ((x ||| c).setWidth 8).toNat = t * 2 ^ k + x.toNat := by
  have hlt : t * 2 ^ k + x.toNat < 2 ^ 8 := by rw [Nat.add_mul, Nat.one_mul] at ht; omega
  rw [toNat_setWidth, or_comm, toNat_or_of_mod_eq_zero (by rw [hc, Nat.mul_mod_left]) hx, hc,
    Nat.mod_eq_of_lt hlt]

/-- The low `k` bits of a byte, in a `w`-bit word. -/
theorem toNat_setWidth_and {k : Nat} {b m : BitVec 8} (hm : m.toNat = 2 ^ k - 1) (hw : k ≤ w) :
    ((b &&& m).setWidth w).toNat = b.toNat % 2 ^ k := by
  have hlt : b.toNat % 2 ^ k < 2 ^ w :=
    lt_of_lt_of_le (Nat.mod_lt _ (Nat.two_pow_pos k)) (Nat.pow_le_pow_right (by decide) hw)
  rw [toNat_setWidth, toNat_and_of_toNat_eq hm, Nat.mod_eq_of_lt hlt]

/-- The low `k` bits of a byte, moved to bit `s` of a `w`-bit word. -/
theorem toNat_shiftLeft_setWidth_and {k s : Nat} {b m : BitVec 8} (hm : m.toNat = 2 ^ k - 1)
    (hw : k + s ≤ w) :
    ((b &&& m).setWidth w <<< s).toNat = b.toNat % 2 ^ k * 2 ^ s := by
  have hlt : b.toNat % 2 ^ k * 2 ^ s < 2 ^ w := calc
    b.toNat % 2 ^ k * 2 ^ s < 2 ^ k * 2 ^ s :=
      Nat.mul_lt_mul_of_pos_right (Nat.mod_lt _ (Nat.two_pow_pos k)) (Nat.two_pow_pos s)
    _ = 2 ^ (k + s) := (Nat.pow_add 2 k s).symm
    _ ≤ 2 ^ w := Nat.pow_le_pow_right (by decide) hw
  have h8 : b.toNat % 2 ^ k < 2 ^ w := lt_of_le_of_lt (Nat.le_mul_of_pos_right _ (Nat.two_pow_pos s)) hlt
  rw [toNat_shiftLeft, toNat_setWidth, toNat_and_of_toNat_eq hm, Nat.mod_eq_of_lt h8,
    Nat.shiftLeft_eq, Nat.mod_eq_of_lt hlt]

end BitVec
