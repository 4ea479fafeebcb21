import Art.Lib.SignedDivision

/-!
# Signed fields of two's-complement words

An instruction encodes an immediate in a field of `k` bits, which the machine sign-extends. A
word fits such a field when its signed value lies in `[-2 ^ (k - 1), 2 ^ (k - 1))`; then cutting
it to `k` bits and sign-extending it back gives the word again (`signExtend_setWidth_of_fits`).
The low `k` bits of any word, read as a signed field, are its balanced residue modulo `2 ^ k`
(`toInt_signedLow`). A word whose trailing zeros are at least `k` is a multiple of `2 ^ k`, and
shifting it right arithmetically and back left by `k` gives it again
(`shiftLeft_sshiftRight_of_le_ctz`).
-/

namespace SignedField

/-- The top bit of a `k`-bit number tells whether it reaches half the range. -/
theorem testBit_pred_of_lt {L k : Nat} (hk : 0 < k) (hL : L < 2 ^ k) :
    L.testBit (k - 1) = decide (2 ^ (k - 1) ≤ L) := by
  have hpow : 2 ^ k = 2 * 2 ^ (k - 1) := by rw [← pow_succ', Nat.sub_add_cancel hk]
  rw [Nat.testBit_eq_decide_div_mod_eq]
  by_cases hle : 2 ^ (k - 1) ≤ L
  · have hdiv : L / 2 ^ (k - 1) = 1 := Nat.div_eq_of_lt_le (by omega) (by omega)
    simp [hdiv, hle]
  · have hdiv : L / 2 ^ (k - 1) = 0 := Nat.div_eq_of_lt (by omega)
    simp [hdiv, hle]

/-- The balanced residue of a residue: above half the modulus it turns negative. -/
theorem bmod_two_pow_of_lt {L k : Nat} (hk : 0 < k) (hL : L < 2 ^ k) :
    (L : Int).bmod (2 ^ k) = if 2 ^ (k - 1) ≤ L then (L : Int) - 2 ^ k else L := by
  have hpow : (2 : Int) ^ k = 2 * 2 ^ (k - 1) := by rw [← pow_succ', Nat.sub_add_cancel hk]
  have hL' : (L : Int) < 2 ^ k := by exact_mod_cast hL
  have hmod : (L : Int) % (2 ^ k : Nat) = L := Int.emod_eq_of_lt (by omega) (by push_cast; omega)
  rw [Int.bmod_def, hmod]
  push_cast
  by_cases hle : 2 ^ (k - 1) ≤ L
  · have hle' : (2 : Int) ^ (k - 1) ≤ L := by exact_mod_cast hle
    rw [if_neg (by omega), if_pos hle]
  · have hle' : (L : Int) < 2 ^ (k - 1) := by exact_mod_cast Nat.lt_of_not_le hle
    rw [if_pos (by omega), if_neg hle]

end SignedField

namespace BitVec

open SignedDivision SignedField

variable {w : Nat}

section Fits

variable (x : BitVec w) {k : Nat} (hk : 0 < k) (hkw : k ≤ w)
  (hlo : -2 ^ (k - 1) ≤ x.toInt) (hhi : x.toInt < 2 ^ (k - 1))
include hkw

/-- The balanced residue of the unsigned value modulo a power of two that divides `2 ^ w` is the
balanced residue of the signed value. -/
theorem toNat_bmod_eq_toInt_bmod : (x.toNat : Int).bmod (2 ^ k) = x.toInt.bmod (2 ^ k) := by
  rw [toInt_eq_toNat_bmod, Int.bmod_bmod_of_dvd (Nat.pow_dvd_pow 2 hkw)]

include hk hlo hhi

theorem toInt_setWidth_of_fits : (x.setWidth k).toInt = x.toInt := by
  rw [toInt_setWidth, toNat_bmod_eq_toInt_bmod x hkw, bmod_two_pow_eq_self hk hlo hhi]

/-- A word that fits a `k`-bit field survives being cut to the field and sign-extended. -/
theorem signExtend_setWidth_of_fits : (x.setWidth k).signExtend w = x := by
  apply eq_of_toInt_eq
  rw [toInt_signExtend, Nat.min_eq_right hkw, toInt_setWidth_of_fits x hk hkw hlo hhi,
    bmod_two_pow_eq_self hk hlo hhi]

end Fits

/-- The low `k` bits of a word read as a signed field, computed as the source does with two masks:
the balanced residue of the signed value modulo `2 ^ k`. -/
theorem toInt_signedLow (x : BitVec w) {k : Nat} (hk : 0 < k) (hkw : k < w) :
    ((x &&& BitVec.ofNat w (2 ^ k - 1)) - ((x &&& BitVec.ofNat w (2 ^ (k - 1))) <<< 1)).toInt =
      x.toInt.bmod (2 ^ k) := by
  have hpow : 2 ^ k = 2 * 2 ^ (k - 1) := by rw [← pow_succ', Nat.sub_add_cancel hk]
  have hkw' : 2 ^ k ≤ 2 ^ (w - 1) := Nat.pow_le_pow_right two_pos (by omega)
  obtain ⟨L, hL⟩ : ∃ L, L = x.toNat % 2 ^ k := ⟨_, rfl⟩
  have hLlt : L < 2 ^ k := hL ▸ Nat.mod_lt _ (by positivity)
  have hA : (x &&& BitVec.ofNat w (2 ^ k - 1)).toNat = L :=
    hL ▸ toNat_and_ofNat_two_pow_sub_one x k (Nat.pow_le_pow_right two_pos hkw.le)
  -- the sign bit of the field
  have hbit : x.toNat.testBit (k - 1) = decide (2 ^ (k - 1) ≤ L) := by
    rw [← testBit_pred_of_lt hk hLlt, hL, Nat.testBit_mod_two_pow, decide_eq_true (by omega),
      Bool.true_and]
  have hmask : (x &&& BitVec.ofNat w (2 ^ (k - 1))).toNat =
      (decide (2 ^ (k - 1) ≤ L)).toNat * 2 ^ (k - 1) := by
    have : 2 ^ (k - 1) < 2 ^ w := Nat.pow_lt_pow_right (by decide) (by omega)
    rw [toNat_and, toNat_ofNat, Nat.mod_eq_of_lt this, Nat.and_two_pow, hbit]
  have hrhs : x.toInt.bmod (2 ^ k) = (L : Int).bmod (2 ^ k) := by
    rw [← toNat_bmod_eq_toInt_bmod x hkw.le, ← Int.emod_bmod, hL]
    push_cast
    rfl
  rw [toInt_sub, toInt_eq_toNat_bmod, toInt_eq_toNat_bmod ((x &&& BitVec.ofNat w (2 ^ (k - 1))) <<< 1),
    Int.bmod_sub_bmod, Int.sub_bmod_bmod, hA, toNat_shiftLeft, hmask, hrhs, bmod_two_pow_of_lt hk hLlt]
  have h2w : 2 ^ k < 2 ^ w := Nat.pow_lt_pow_right (by decide) hkw
  have h2w' : (2 : Int) ^ k ≤ 2 ^ (w - 1) := by exact_mod_cast hkw'
  have hpos : (0 : Int) < 2 ^ (k - 1) := by positivity
  have hpow' : (2 : Int) ^ k = 2 * 2 ^ (k - 1) := by exact_mod_cast hpow
  have hLlt' : (L : Int) < 2 ^ k := by exact_mod_cast hLlt
  by_cases hle : 2 ^ (k - 1) ≤ L
  · have hle' : (2 : Int) ^ (k - 1) ≤ L := by exact_mod_cast hle
    rw [if_pos hle, decide_eq_true hle, Bool.toNat_true, Nat.one_mul, Nat.shiftLeft_eq, pow_one,
      Nat.mul_comm, ← hpow, Nat.mod_eq_of_lt h2w]
    push_cast
    exact bmod_two_pow_eq_self (by omega) (by omega) (by omega)
  · rw [if_neg hle, decide_eq_false hle, Bool.toNat_false, Nat.zero_mul, Nat.zero_shiftLeft,
      Nat.zero_mod, Nat.cast_zero, sub_zero]
    exact bmod_two_pow_eq_self (by omega) (by omega) (by exact_mod_cast (show L < 2 ^ (w-1) by omega))

/-- The word less its signed low field is a multiple of `2 ^ k`. -/
theorem toNat_sub_signedLow_mod (x : BitVec w) {k : Nat} (hk : 0 < k) (hkw : k < w) :
    (x - ((x &&& BitVec.ofNat w (2 ^ k - 1)) - ((x &&& BitVec.ofNat w (2 ^ (k - 1))) <<< 1))).toNat %
      2 ^ k = 0 := by
  obtain ⟨r, hr⟩ : ∃ r, r = x - ((x &&& BitVec.ofNat w (2 ^ k - 1)) -
      ((x &&& BitVec.ofNat w (2 ^ (k - 1))) <<< 1)) := ⟨_, rfl⟩
  have h := toNat_bmod_eq_toInt_bmod r hkw.le
  rw [hr, toInt_sub, toInt_signedLow x hk hkw, Int.bmod_bmod_of_dvd (Nat.pow_dvd_pow 2 hkw.le),
    Int.sub_bmod_bmod, sub_self, Int.zero_bmod, ← hr] at h
  have hmod := Int.bmod_emod (x := (r.toNat : Int)) (m := 2 ^ k)
  rw [h, Int.zero_emod] at hmod
  rw [← hr]
  exact_mod_cast hmod.symm

/-- The mask of the low `k` bits, as the source computes it. -/
theorem toNat_one_shiftLeft_sub_one {w k : Nat} (hk : k < w) :
    ((1#w <<< k) - 1#w).toNat = 2 ^ k - 1 := by
  have hpow : 2 ^ k < 2 ^ w := Nat.pow_lt_pow_right (by decide) hk
  have hpos : 0 < 2 ^ k := by positivity
  have h1 : (1#w).toNat = 1 := by
    rw [toNat_ofNat, Nat.mod_eq_of_lt (Nat.one_lt_two_pow (by omega))]
  have hsum : 2 ^ w - 1 + 2 ^ k = (2 ^ k - 1) + 2 ^ w := by omega
  rw [toNat_sub, toNat_shiftLeft, h1, Nat.one_shiftLeft, Nat.mod_eq_of_lt hpow, hsum,
    Nat.add_mod_right, Nat.mod_eq_of_lt (by omega)]

/-- A shift left whose result still fits the word multiplies the signed value. -/
theorem toInt_shiftLeft_of_fits (x : BitVec w) (j : Nat) (hw : 0 < w)
    (hlo : -2 ^ (w - 1) ≤ x.toInt * 2 ^ j) (hhi : x.toInt * 2 ^ j < 2 ^ (w - 1)) :
    (x <<< j).toInt = x.toInt * 2 ^ j := by
  have hmod : ((x.toNat <<< j : Nat) : Int).bmod (2 ^ w) = (x.toInt * 2 ^ j).bmod (2 ^ w) := by
    rw [Nat.shiftLeft_eq, Nat.cast_mul, Nat.cast_pow, Nat.cast_ofNat, ← Int.bmod_mul_bmod,
      ← toInt_eq_toNat_bmod]
  rw [toInt_shiftLeft, hmod, bmod_two_pow_eq_self hw hlo hhi]

section TrailingZeros

variable {x : BitVec w} {k : Nat}

/-- Trailing zeros make the unsigned value a multiple of the power of two. -/
theorem toNat_mod_two_pow_of_le_ctz (hk : k ≤ x.ctz.toNat) : x.toNat % 2 ^ k = 0 := by
  apply Nat.zero_of_testBit_eq_false
  intro i
  rw [Nat.testBit_mod_two_pow, testBit_toNat]
  by_cases hi : i < k
  · rw [getLsbD_false_of_lt_ctz (by omega), Bool.and_false]
  · simp [hi]

theorem ctz_toNat_lt_of_ne_zero (hx : x ≠ 0#w) : x.ctz.toNat < w := by
  have h := ctz_lt_iff_ne_zero.2 hx
  rwa [lt_def, natCast_eq_ofNat, toNat_ofNat, Nat.mod_eq_of_lt Nat.lt_two_pow_self] at h

/-- A multiple of `2 ^ k`, for `k` at most the width, has at least `k` trailing zeros. -/
theorem le_ctz_of_toNat_mod_two_pow (hkw : k ≤ w) (h : x.toNat % 2 ^ k = 0) :
    k ≤ x.ctz.toNat := by
  by_contra hlt
  have hx : x ≠ 0#w := ctz_lt_iff_ne_zero.1 (by
    rw [lt_def, natCast_eq_ofNat, toNat_ofNat, Nat.mod_eq_of_lt (Nat.lt_two_pow_self)]
    omega)
  -- the lowest set bit lies below `k`, where the residue keeps every bit
  have hbit := Nat.testBit_mod_two_pow x.toNat k x.ctz.toNat
  rw [h, Nat.zero_testBit, testBit_toNat, getLsbD_true_ctz_of_ne_zero hx,
    decide_eq_true (by omega)] at hbit
  contradiction

/-- The signed value of a word with `k` trailing zeros is a multiple of `2 ^ k`. -/
theorem two_pow_dvd_toInt_of_le_ctz (hkw : k ≤ w) (hk : k ≤ x.ctz.toNat) :
    (2 : Int) ^ k ∣ x.toInt := by
  have hnat : (2 : Int) ^ k ∣ (x.toNat : Int) := by
    exact_mod_cast Nat.dvd_of_mod_eq_zero (toNat_mod_two_pow_of_le_ctz hk)
  rw [toInt_eq_toNat_cond]
  split
  · exact hnat
  · exact dvd_sub hnat (by exact_mod_cast Nat.pow_dvd_pow 2 hkw)

/-- Shifting a word with `k` trailing zeros right arithmetically by `k` and back left gives it
again. -/
theorem shiftLeft_sshiftRight_of_le_ctz (hk : k ≤ x.ctz.toNat) : (x.sshiftRight k) <<< k = x := by
  ext i hi
  rw [getElem_shiftLeft, getElem_sshiftRight]
  by_cases hik : i < k
  · rw [decide_eq_true hik, Bool.not_true, Bool.false_and, ← getLsbD_eq_getElem,
      getLsbD_false_of_lt_ctz (by omega)]
  · rw [decide_eq_false hik, Bool.not_false, Bool.true_and, dif_pos (by omega)]
    congr 1
    omega

end TrailingZeros

end BitVec
