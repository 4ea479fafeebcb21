import Art.Lib.Conversion
import Art.Lib.Shift
import Mathlib.Data.Nat.Log

/-!
# Truncating division in two's complement, without a divide instruction

`BitVec.sdiv` and `BitVec.srem` round toward zero. Code that divides by a constant does not use
a divide instruction: by a power of two it shifts right, which rounds down, after adding
`2 ^ k - 1` to a negative dividend, and takes the remainder with a mask; by any other constant it
keeps the high half of a product with a multiplier and adds one to a negative result. This file
has the facts those sequences rest on, for any width `w`:

* `toInt_sshiftRight_biased`: the biased shift is the truncating quotient by `2 ^ k`;
* `toInt_and_mask`, `tmod_two_pow_of_nonpos`: the mask is the remainder of a non-negative
  dividend, and the remainder of a non-positive one is minus that of its negation;
* `sdiv_eq_of_toInt`, `srem_eq_of_toInt`, `sub_sdiv_mul`: `sdiv` and `srem` read off the value
  an integer computation gives, and the remainder as the dividend minus quotient times divisor;
* `ediv_two_pow_mem_range`, `toInt_add_ushiftRight`: the high half of a product stays in range,
  and adding the sign bit adds one to a negative value;
* `ofInt_neg_two_pow`, `or_ofInt_neg_two_pow`, `ctz_ofInt_of_natAbs_eq`: the bits of `-2 ^ k`,
  which a remainder is moved down by with an `or`, and the trailing zeros of `±2 ^ k`.
-/

open BitVec

namespace SignedDivision

section Int

/-- A value in the signed range of `w` bits is its own balanced residue. -/
theorem bmod_two_pow_eq_self {w : Nat} (hw : 0 < w) {x : Int} (hlo : -2 ^ (w - 1) ≤ x)
    (hhi : x < 2 ^ (w - 1)) : x.bmod (2 ^ w) = x := by
  rw [← BitVec.toInt_ofInt]
  exact BitVec.toInt_ofInt_eq_self hw hlo hhi

/-- The remainder of a non-positive dividend is minus the remainder of its negation. -/
theorem tmod_two_pow_of_nonpos {n : Int} (hn : n ≤ 0) (k : Nat) :
    n.tmod (2 ^ k) = -((-n) % 2 ^ k) := by
  rw [← Int.tmod_eq_emod_of_nonneg (by omega), Int.neg_tmod, Int.neg_neg]

/-- The remainder by `2 ^ k` from the floor residue: zero, or the residue moved down by `2 ^ k`
for a negative dividend. -/
theorem tmod_two_pow_eq_ite (n : Int) (k : Nat) :
    n.tmod (2 ^ k) =
      if n % 2 ^ k = 0 then 0 else if n < 0 then n % 2 ^ k - 2 ^ k else n % 2 ^ k := by
  have habs : ((2 : Int) ^ k).natAbs = 2 ^ k := by rw [Int.natAbs_pow]; rfl
  rw [Int.tmod_eq_emod, habs]
  simp only [Int.dvd_iff_emod_eq_zero]
  push_cast
  split_ifs <;> omega

/-- Truncating division by `2 ^ k` rounds down once `2 ^ k - 1` is added to a negative
dividend. -/
theorem tdiv_two_pow_eq (n : Int) (k : Nat) :
    n.tdiv (2 ^ k) = (n + if n < 0 then 2 ^ k - 1 else 0) / 2 ^ k := by
  have hpos : (0 : Int) < 2 ^ k := by positivity
  split_ifs with hn
  · -- `n = tmod n m + tdiv n m * m` with `-m < tmod n m ≤ 0` pins the floor
    have hrec := Int.tmod_add_tdiv_mul n (2 ^ k)
    have hmod := tmod_two_pow_of_nonpos (le_of_lt hn) k
    have hr0 := Int.emod_nonneg (-n) hpos.ne'
    have hr1 := Int.emod_lt_of_pos (-n) hpos
    symm
    rw [Int.ediv_eq_iff_of_pos hpos]
    constructor <;> omega
  · rw [add_zero, Int.tdiv_eq_ediv_of_nonneg (by omega)]

theorem eq_two_pow_or_eq_neg_of_natAbs {d : Int} {k : Nat} (hk : d.natAbs = 2 ^ k) :
    d = 2 ^ k ∨ d = -2 ^ k := by
  rcases Int.natAbs_eq d with hx | hx <;> rw [hk] at hx <;> push_cast at hx
  · exact .inl hx
  · exact .inr hx

/-- A dividend that `2 ^ k` divides needs no bias. -/
theorem tdiv_two_pow_of_dvd {n : Int} {k : Nat} (h : (2 : Int) ^ k ∣ n) :
    n.tdiv (2 ^ k) = n / 2 ^ k :=
  Int.tdiv_eq_ediv_of_dvd h

/-- The high half of a product of a `w`-bit value and a multiplier below `2 ^ w` in size fits
in `w` bits. -/
theorem ediv_two_pow_mem_range {w : Nat} (hw : 0 < w) {n M : Int}
    (hnlo : -2 ^ (w - 1) ≤ n) (hnhi : n < 2 ^ (w - 1)) (hMlo : -2 ^ w < M) (hMhi : M < 2 ^ w) :
    -2 ^ (w - 1) ≤ n * M / 2 ^ w ∧ n * M / 2 ^ w < 2 ^ (w - 1) := by
  have hpow : (2 : Int) ^ w = 2 ^ (w - 1) * 2 := by
    rw [← pow_succ, Nat.sub_add_cancel hw]
  have hpos : (0 : Int) < 2 ^ (w - 1) := by positivity
  -- `|n * M| < 2 ^ (w - 1) * 2 ^ w`, and dividing by `2 ^ w` keeps the floor in range
  have hlo : -(2 ^ (w - 1) * 2 ^ w) ≤ n * M := by nlinarith
  have hhi : n * M < 2 ^ (w - 1) * 2 ^ w := by nlinarith
  have hw0 : (0 : Int) < 2 ^ w := by positivity
  constructor
  · rw [Int.le_ediv_iff_mul_le hw0]
    linarith
  · rw [Int.ediv_lt_iff_lt_mul hw0]
    linarith

/-- Floor division by a power of two keeps the sign. -/
theorem ediv_two_pow_neg_iff (x : Int) (s : Nat) : x / 2 ^ s < 0 ↔ x < 0 := by
  rw [Int.ediv_lt_iff_lt_mul (by positivity), Int.zero_mul]

/-- Adding the dividend to the high half of its product with `m` is taking the high half of its
product with `m + 2 ^ w`. -/
theorem mul_ediv_two_pow_add (n m : Int) (w : Nat) :
    n * m / 2 ^ w + n = n * (m + 2 ^ w) / 2 ^ w := by
  rw [Int.mul_add, Int.add_mul_ediv_right _ _ (by positivity)]

/-- Subtracting it is taking the high half of its product with `m - 2 ^ w`. -/
theorem mul_ediv_two_pow_sub (n m : Int) (w : Nat) :
    n * m / 2 ^ w - n = n * (m - 2 ^ w) / 2 ^ w := by
  have h := Int.add_mul_ediv_right (n * m) (-n) (show (2 : Int) ^ w ≠ 0 by positivity)
  rw [show n * m + -n * 2 ^ w = n * (m - 2 ^ w) by ring] at h
  omega

/-- A quotient by a divisor of magnitude at least two fits in half the range. -/
theorem tdiv_mem_half_range {w : Nat} (hw : 2 ≤ w) {x d : Int} (hlo : -2 ^ (w - 1) ≤ x)
    (hhi : x < 2 ^ (w - 1)) (hd : 2 ≤ d.natAbs) :
    -2 ^ (w - 2) ≤ x.tdiv d ∧ x.tdiv d ≤ 2 ^ (w - 2) := by
  have hpow : 2 ^ (w - 1) = 2 * 2 ^ (w - 2) := by
    rw [← pow_succ']
    congr 1
    omega
  have hc1 : ((2 ^ (w - 1) : Nat) : Int) = 2 ^ (w - 1) := by push_cast; rfl
  have hc2 : ((2 ^ (w - 2) : Nat) : Int) = 2 ^ (w - 2) := by push_cast; rfl
  have hx : x.natAbs ≤ 2 ^ (w - 1) := by omega
  have hhalf : x.natAbs / d.natAbs ≤ x.natAbs / 2 := Nat.div_le_div_left hd (by norm_num)
  have hq : (x.tdiv d).natAbs ≤ 2 ^ (w - 2) := by
    rw [Int.natAbs_tdiv]
    exact (le_trans hhalf (by omega) : x.natAbs / d.natAbs ≤ 2 ^ (w - 2))
  omega

/-- `a & (a - 1)` clears the lowest set bit of `a`: it is zero exactly for a power of two, whose
highest set bit is also its lowest. -/
theorem and_sub_one_eq_zero_iff {a : Nat} (ha : 0 < a) : a &&& (a - 1) = 0 ↔ ∃ k, a = 2 ^ k := by
  constructor
  · intro h
    refine ⟨Nat.log 2 a, ?_⟩
    have hlo := Nat.pow_log_le_self 2 ha.ne'
    have hhi : a < 2 ^ (Nat.log 2 a + 1) := Nat.lt_pow_succ_log_self (by norm_num) a
    -- otherwise `a - 1` keeps the highest bit of `a`, and so does their conjunction
    by_contra hne
    have h1 := Nat.testBit_of_two_pow_le_and_two_pow_add_one_gt hlo hhi
    have h2 := Nat.testBit_of_two_pow_le_and_two_pow_add_one_gt
      (show 2 ^ Nat.log 2 a ≤ a - 1 by omega) (show a - 1 < 2 ^ (Nat.log 2 a + 1) by omega)
    have hbit := Nat.testBit_and a (a - 1) (Nat.log 2 a)
    rw [h, Nat.zero_testBit, h1, h2] at hbit
    exact Bool.false_ne_true hbit
  · rintro ⟨k, rfl⟩
    rw [Nat.and_two_pow_sub_one_eq_mod, Nat.mod_self]

end Int

section BitVec

variable {w : Nat}

theorem toInt_sshiftRight_eq_ediv (x : BitVec w) (k : Nat) :
    (x.sshiftRight k).toInt = x.toInt / 2 ^ k := by
  rw [toInt_sshiftRight, Int.shiftRight_eq_div_pow]
  push_cast
  rfl

/-- The mask `2 ^ k - 1` of a value in `w > k` bits: its least significant `k` bits, read as a
non-negative remainder. -/
theorem toInt_and_mask (x : BitVec w) {k : Nat} (hk : k < w) :
    (x &&& BitVec.ofInt w (2 ^ k - 1)).toInt = x.toInt % 2 ^ k := by
  have hkw : 2 ^ k ≤ 2 ^ (w - 1) := Nat.pow_le_pow_right two_pos (by omega)
  have hmask : BitVec.ofInt w (2 ^ k - 1) = BitVec.ofNat w (2 ^ k - 1) := by
    rw [← ofInt_natCast]
    congr 1
    push_cast [Nat.one_le_two_pow]
    rfl
  have hpow : 2 ^ w = 2 * 2 ^ (w - 1) := by rw [← pow_succ', Nat.sub_add_cancel (by omega)]
  have hlt : 2 * (x &&& BitVec.ofNat w (2 ^ k - 1)).toNat < 2 ^ w := by
    rw [toNat_and_ofNat_two_pow_sub_one x k (Nat.pow_le_pow_right two_pos (by omega))]
    have := Nat.mod_lt x.toNat (show 0 < 2 ^ k by positivity)
    omega
  rw [hmask, toInt_eq_toNat_of_lt hlt,
    toNat_and_ofNat_two_pow_sub_one x k (Nat.pow_le_pow_right two_pos (by omega)),
    toInt_emod_two_pow x (by omega)]
  push_cast
  rfl

/-- Adding `2 ^ k - 1` to a negative `w`-bit value never overflows. -/
theorem toInt_biased (n : BitVec w) {k : Nat} (hk : k < w) :
    (if n.toInt < 0 then n + BitVec.ofInt w (2 ^ k - 1) else n).toInt =
      n.toInt + if n.toInt < 0 then 2 ^ k - 1 else 0 := by
  have hkw : (2 : Int) ^ k ≤ 2 ^ (w - 1) := pow_le_pow_right₀ (by norm_num) (by omega)
  have hk1 : (1 : Int) ≤ 2 ^ k := one_le_pow₀ (by norm_num)
  split_ifs with hn
  · have hbias : (BitVec.ofInt w (2 ^ k - 1)).toInt = 2 ^ k - 1 :=
      toInt_ofInt_eq_self (by omega) (by linarith) (by linarith)
    have hlo := le_toInt n
    rw [toInt_add, hbias, bmod_two_pow_eq_self (by omega) (by linarith) (by linarith)]
  · rw [add_zero]

/-- Shifting the biased dividend right by `k` is the truncating quotient by `2 ^ k`. -/
theorem toInt_sshiftRight_biased (n : BitVec w) {k : Nat} (hk : k < w) :
    ((if n.toInt < 0 then n + BitVec.ofInt w (2 ^ k - 1) else n).sshiftRight k).toInt =
      n.toInt.tdiv (2 ^ k) := by
  rw [toInt_sshiftRight_eq_ediv, toInt_biased n hk, SignedDivision.tdiv_two_pow_eq]

/-- `intMin` is a multiple of every power of two below `2 ^ (w - 1)`. -/
theorem two_pow_dvd_toInt_intMin {k : Nat} (hk : k < w) :
    (2 : Int) ^ k ∣ (intMin w).toInt := by
  rw [toInt_intMin, Nat.mod_eq_of_lt (Nat.pow_lt_pow_right (by norm_num) (by omega))]
  push_cast
  exact (pow_dvd_pow 2 (by omega)).neg_right

/-- A non-negative dividend, or `intMin`, needs no bias. -/
theorem toInt_sshiftRight_of_nonneg_or_intMin (n : BitVec w) {k : Nat} (hk : k < w)
    (hn : 0 ≤ n.toInt ∨ n = intMin w) : (n.sshiftRight k).toInt = n.toInt.tdiv (2 ^ k) := by
  rw [toInt_sshiftRight_eq_ediv]
  rcases hn with hn | rfl
  · rw [Int.tdiv_eq_ediv_of_nonneg hn]
  · rw [tdiv_two_pow_of_dvd (two_pow_dvd_toInt_intMin hk)]

/-- The mask of a non-negative dividend, or of `intMin`, is the truncating remainder. -/
theorem toInt_and_mask_of_nonneg_or_intMin (n : BitVec w) {k : Nat} (hk : k < w)
    (hn : 0 ≤ n.toInt ∨ n = intMin w) :
    (n &&& BitVec.ofInt w (2 ^ k - 1)).toInt = n.toInt.tmod (2 ^ k) := by
  rw [toInt_and_mask n hk]
  rcases hn with hn | rfl
  · rw [Int.tmod_eq_emod_of_nonneg hn]
  · have hdvd := two_pow_dvd_toInt_intMin hk (w := w)
    rw [Int.tmod_eq_zero_of_dvd hdvd, Int.emod_eq_zero_of_dvd hdvd]

/-- The negated mask: minus the remainder, which never overflows. -/
theorem toInt_neg_and_mask (n : BitVec w) {k : Nat} (hk : k < w) :
    (-(n &&& BitVec.ofInt w (2 ^ k - 1))).toInt = -(n.toInt % 2 ^ k) := by
  have hkw : (2 : Int) ^ k ≤ 2 ^ (w - 1) := pow_le_pow_right₀ (by norm_num) (by omega)
  have h0 := Int.emod_nonneg n.toInt (show (2 : Int) ^ k ≠ 0 by positivity)
  have h1 := Int.emod_lt_of_pos n.toInt (show (0 : Int) < 2 ^ k by positivity)
  rw [toInt_neg, toInt_and_mask n hk, bmod_two_pow_eq_self (by omega) (by linarith) (by linarith)]

/-- The mask of `n` where `-n` is negative, minus the mask of `-n` otherwise: the truncating
remainder by `2 ^ k`, `intMin` included (its negation is itself). -/
theorem toInt_mask_or_neg_mask (n : BitVec w) {k : Nat} (hk : k < w) :
    (if (-n).msb then n &&& BitVec.ofInt w (2 ^ k - 1)
      else -(-n &&& BitVec.ofInt w (2 ^ k - 1))).toInt = n.toInt.tmod (2 ^ k) := by
  by_cases hmin : n = intMin w
  · subst hmin
    rw [neg_intMin, if_pos (by simp [msb_intMin]; omega)]
    exact toInt_and_mask_of_nonneg_or_intMin _ hk (.inr rfl)
  · have hneg := toInt_neg_of_ne_intMin hmin
    have hsign : (-n).msb = decide (0 < n.toInt) := by
      rw [msb_eq_toInt, hneg]
      simp
    split_ifs with hmsb
    · -- `n` is positive
      rw [hsign] at hmsb
      exact toInt_and_mask_of_nonneg_or_intMin n hk (.inl (by simp at hmsb; omega))
    · rw [hsign] at hmsb
      have hn : n.toInt ≤ 0 := by simp at hmsb; omega
      rw [toInt_neg_and_mask _ hk, hneg, tmod_two_pow_of_nonpos hn]

/-- The high half of the product of a `w`-bit value with a multiplier below `2 ^ w` in size is
what a `w`-bit register holds. -/
theorem bmod_mul_ediv_two_pow (x : BitVec w) (hw : 0 < w) {M : Int} (hlo : -2 ^ w < M)
    (hhi : M < 2 ^ w) : (x.toInt * M / 2 ^ w).bmod (2 ^ w) = x.toInt * M / 2 ^ w := by
  obtain ⟨h1, h2⟩ := ediv_two_pow_mem_range hw (le_toInt x) toInt_lt hlo hhi
  exact bmod_two_pow_eq_self hw h1 h2

/-- A right shift of a non-negative value rounds down, like the arithmetic one. -/
theorem toInt_ushiftRight_of_nonneg (x : BitVec w) (hx : 0 ≤ x.toInt) (s : Nat) :
    (x >>> s).toInt = x.toInt / 2 ^ s := by
  have hmsb : x.msb = false := by rw [msb_eq_toInt]; simpa using hx
  have hnat := toInt_eq_toNat_of_msb hmsb
  rcases Nat.eq_zero_or_pos s with rfl | hs
  · simp
  · rw [toInt_ushiftRight_of_lt hs, hnat, Nat.shiftRight_eq_div_pow]
    push_cast
    rfl

/-- `sdiv` is the value whose integer is the truncating quotient. -/
theorem sdiv_eq_of_toInt_eq_tdiv {n d x : BitVec w} (hx : x.toInt = n.toInt.tdiv d.toInt) :
    n.sdiv d = x :=
  eq_of_toInt_eq (by rw [toInt_sdiv, ← hx, toInt_bmod_cancel])

/-- `sdiv` by `±2 ^ k` is the value whose integer is the truncating quotient by `2 ^ k`, negated
for a negative divisor. -/
theorem sdiv_eq_of_toInt {n d x : BitVec w} {k : Nat} (hx : x.toInt = n.toInt.tdiv (2 ^ k)) :
    (d.toInt = 2 ^ k → n.sdiv d = x) ∧ (d.toInt = -2 ^ k → n.sdiv d = -x) := by
  refine ⟨fun hd => eq_of_toInt_eq ?_, fun hd => eq_of_toInt_eq ?_⟩
  · rw [toInt_sdiv, hd, ← hx, toInt_bmod_cancel]
  · rw [toInt_sdiv, hd, Int.tdiv_neg, ← hx, toInt_neg]

/-- `srem` by `±2 ^ k` is the value whose integer is the truncating remainder by `2 ^ k`. -/
theorem srem_eq_of_toInt {n d x : BitVec w} {k : Nat} (hd : d.toInt = 2 ^ k ∨ d.toInt = -2 ^ k)
    (hx : x.toInt = n.toInt.tmod (2 ^ k)) : n.srem d = x := by
  apply eq_of_toInt_eq
  rcases hd with hd | hd
  · rw [toInt_srem, hd, hx]
  · rw [toInt_srem, hd, Int.tmod_neg, hx]

/-- The remainder is the dividend minus the quotient times the divisor, as `msub` computes
it. -/
theorem sub_sdiv_mul (x y : BitVec w) : x - x.sdiv y * y = x.srem y := by
  have hq : x.sdiv y = BitVec.ofInt w (x.toInt.tdiv y.toInt) :=
    eq_of_toInt_eq (by rw [toInt_sdiv, toInt_ofInt])
  have hr : x.srem y = BitVec.ofInt w (x.toInt - y.toInt * x.toInt.tdiv y.toInt) := by
    rw [← Int.tmod_def, ← toInt_srem, ofInt_toInt]
  rw [hq, hr, Int.sub_eq_add_neg, ofInt_add, ofInt_neg, ofInt_mul, ofInt_toInt, ofInt_toInt,
    BitVec.sub_eq_add_neg, BitVec.mul_comm]

/-- The sign bit shifted down to bit zero is one exactly for a negative value. -/
theorem ushiftRight_sub_one (x : BitVec w) (hw : 0 < w) :
    x >>> (w - 1) = if x.toInt < 0 then 1#w else 0#w := by
  apply eq_of_toNat_eq
  rw [toNat_ushiftRight, Nat.shiftRight_eq_div_pow]
  have hlt := x.isLt
  have hmsb := msb_eq_true_iff_two_mul_ge (x := x)
  have hsign : x.toInt < 0 ↔ x.msb = true := by rw [msb_eq_toInt]; simp
  have hpow : 2 ^ w = 2 * 2 ^ (w - 1) := by rw [← pow_succ', Nat.sub_add_cancel hw]
  split_ifs with hx
  · rw [toNat_one hw]
    have h2 := hmsb.1 (hsign.1 hx)
    rw [Nat.div_eq_iff (by positivity)]
    omega
  · rw [toNat_ofNat, Nat.zero_mod, Nat.div_eq_zero_iff_lt (by positivity)]
    have h2 : ¬ 2 * x.toNat ≥ 2 ^ w := fun h => hx (hsign.2 (hmsb.2 h))
    omega

/-- Adding one to a negative value never overflows. -/
theorem toInt_add_one_of_neg (x : BitVec w) (hw : 1 < w) (hx : x.toInt < 0) :
    (x + 1#w).toInt = x.toInt + 1 := by
  have hlo := le_toInt x
  rw [toInt_add, toInt_one hw, bmod_two_pow_eq_self (by omega) (by omega) (by omega)]

/-- Adding the sign bit (`add out, in, in lsr #(w - 1)`) adds one to a negative value; it never
overflows. -/
theorem toInt_add_ushiftRight (x : BitVec w) (hw : 1 < w) :
    (x + x >>> (w - 1)).toInt = x.toInt + if x.toInt < 0 then 1 else 0 := by
  rw [ushiftRight_sub_one x (by omega)]
  split_ifs with hx
  · exact toInt_add_one_of_neg x hw hx
  · rw [BitVec.add_zero, Int.add_zero]

/-- Dividing by two: the bias for a negative dividend is its sign bit. -/
theorem toInt_sshiftRight_one_add_ushiftRight (n : BitVec w) (hw : 1 < w) :
    ((n + n >>> (w - 1)).sshiftRight 1).toInt = n.toInt.tdiv 2 := by
  have h := tdiv_two_pow_eq n.toInt 1
  norm_num at h
  rw [toInt_sshiftRight_eq_ediv, toInt_add_ushiftRight n hw, h, pow_one]

theorem toNat_and_sub_one (x : BitVec w) (hx : x ≠ 0) :
    (x &&& (x - 1)).toNat = x.toNat &&& (x.toNat - 1) := by
  have hpos : 0 < x.toNat := by
    rcases Nat.eq_zero_or_pos x.toNat with h | h
    · have h0 : (0 : BitVec w).toNat = 0 := toNat_zero
      exact absurd (eq_of_toNat_eq (h.trans h0.symm)) hx
    · exact h
  have hw : 0 < w := by
    rcases Nat.eq_zero_or_pos w with rfl | h
    · exact absurd (eq_of_zero_length rfl) hx
    · exact h
  have hlt := x.isLt
  have h1 : (1 : BitVec w).toNat = 1 := toNat_one hw
  rw [toNat_and, toNat_sub, h1]
  congr 1
  rw [show 2 ^ w - 1 + x.toNat = x.toNat - 1 + 2 ^ w by omega, Nat.add_mod_right,
    Nat.mod_eq_of_lt (by omega)]

/-- The trailing zeros of a power of two count its exponent. -/
theorem toNat_ctz_of_toNat_eq_two_pow (x : BitVec w) {k : Nat} (h : x.toNat = 2 ^ k) :
    x.ctz.toNat = k := by
  have hx : x ≠ 0#w := fun h0 => by
    rw [h0, toNat_ofNat, Nat.zero_mod] at h
    exact (Nat.two_pow_pos k).ne' h.symm
  have hbit := getLsbD_true_ctz_of_ne_zero hx
  rw [← testBit_toNat, h, Nat.testBit_two_pow] at hbit
  exact (of_decide_eq_true hbit).symm

/-- The trailing zeros of a bit pattern: the position of its lowest set bit. -/
theorem ctz_eq_of_getLsbD (x : BitVec w) {k : Nat} (hk : x.getLsbD k = true)
    (hlow : ∀ i < k, x.getLsbD i = false) : x.ctz.toNat = k := by
  have hx : x ≠ 0#w := by
    rintro rfl
    simp at hk
  have htrue := getLsbD_true_ctz_of_ne_zero hx
  rcases Nat.lt_trichotomy x.ctz.toNat k with h | h | h
  · rw [hlow _ h] at htrue
    contradiction
  · exact h
  · rw [getLsbD_false_of_lt_ctz h] at hk
    contradiction

/-- `-2 ^ k` is `2 ^ k - 1` inverted: ones from bit `k` up. -/
theorem ofInt_neg_two_pow (k : Nat) :
    BitVec.ofInt w (-2 ^ k) = ~~~BitVec.ofNat w (2 ^ k - 1) := by
  have hneg : (-2 ^ k : Int) = Int.negSucc (2 ^ k - 1) := by
    rw [Int.negSucc_eq]
    have := Nat.one_le_two_pow (n := k)
    push_cast [this]
    ring
  rw [hneg, ofInt_negSucc_eq_not_ofNat]

theorem getLsbD_ofInt_neg_two_pow (k i : Nat) :
    (BitVec.ofInt w (-2 ^ k)).getLsbD i = (decide (i < w) && !decide (i < k)) := by
  rw [ofInt_neg_two_pow, getLsbD_not, getLsbD_ofNat, Nat.testBit_two_pow_sub_one]
  cases decide (i < w) <;> rfl

theorem setWidth_ofInt_neg_two_pow {v : Nat} (hv : v ≤ w) (k : Nat) :
    (BitVec.ofInt w (-2 ^ k)).setWidth v = BitVec.ofInt v (-2 ^ k) := by
  apply eq_of_getLsbD_eq
  intro i hi
  rw [getLsbD_setWidth, getLsbD_ofInt_neg_two_pow, getLsbD_ofInt_neg_two_pow,
    decide_eq_true hi, decide_eq_true (show i < w by omega)]
  rfl

/-- A power of two and its negation have `k` trailing zeros. -/
theorem ctz_ofInt_of_natAbs_eq {d : Int} {k : Nat} (hkw : k < w) (hk : d.natAbs = 2 ^ k) :
    (BitVec.ofInt w d).ctz.toNat = k := by
  rcases eq_two_pow_or_eq_neg_of_natAbs hk with rfl | rfl
  · apply toNat_ctz_of_toNat_eq_two_pow
    rw [show ((2 : Int) ^ k) = ((2 ^ k : Nat) : Int) by push_cast; rfl, ofInt_natCast, toNat_ofNat,
      Nat.mod_eq_of_lt (Nat.pow_lt_pow_right (by norm_num) hkw)]
  · apply ctz_eq_of_getLsbD
    · simp [getLsbD_ofInt_neg_two_pow, hkw]
    · intro i hi
      simp [getLsbD_ofInt_neg_two_pow, hi]

theorem allOnes_shiftLeft (k : Nat) : allOnes w <<< k = BitVec.ofInt w (-2 ^ k) := by
  apply eq_of_getLsbD_eq
  intro i hi
  rw [getLsbD_shiftLeft, getLsbD_allOnes, getLsbD_ofInt_neg_two_pow,
    decide_eq_true (show i - k < w by omega), Bool.and_true]

/-- The sign copied into every bit (`sar` by `w - 1`). -/
theorem sshiftRight_sub_one (x : BitVec w) (hw : 0 < w) :
    x.sshiftRight (w - 1) = if x.toInt < 0 then allOnes w else 0#w := by
  apply eq_of_toInt_eq
  rw [toInt_sshiftRight_eq_ediv]
  have hlo := le_toInt x
  have hhi := toInt_lt (x := x)
  have hpos : (0 : Int) < 2 ^ (w - 1) := by positivity
  split_ifs with hx
  · rw [toInt_allOnes, if_pos hw, Int.ediv_eq_iff_of_pos hpos]
    omega
  · rw [toInt_zero, Int.ediv_eq_iff_of_pos hpos]
    omega

/-- A non-negative value below `2 ^ k` is its own bit pattern. -/
theorem toNat_lt_of_toInt_lt (x : BitVec w) {k : Nat} (h0 : 0 ≤ x.toInt) (h : x.toInt < 2 ^ k) :
    x.toNat < 2 ^ k := by
  have hlt := x.isLt
  rw [toInt_eq_toNat_cond] at h0 h
  split_ifs at h0 h
  · exact_mod_cast h
  · omega

/-- Below `2 ^ k` a value has no bit in common with `-2 ^ k`: `or` adds them. -/
theorem or_ofInt_neg_two_pow (x : BitVec w) {k : Nat} (hx : x.toNat < 2 ^ k) :
    x ||| BitVec.ofInt w (-2 ^ k) = x + BitVec.ofInt w (-2 ^ k) := by
  rw [add_eq_or_of_and_eq_zero]
  apply eq_of_getLsbD_eq
  intro i hi
  rw [getLsbD_and, getLsbD_ofInt_neg_two_pow, getLsbD_zero]
  by_cases hik : i < k
  · simp [hik]
  · have hbit : x.getLsbD i = false := by
      rw [← testBit_toNat]
      exact Nat.testBit_eq_false_of_lt
        (lt_of_lt_of_le hx (Nat.pow_le_pow_right (by norm_num) (by omega)))
    simp [hbit]

/-- Subtracting `2 ^ k` from a value in `[0, 2 ^ k)` never overflows. -/
theorem toInt_add_ofInt_neg_two_pow (x : BitVec w) {k : Nat} (hk : k < w) (hx0 : 0 ≤ x.toInt)
    (hx : x.toInt < 2 ^ k) : (x + BitVec.ofInt w (-2 ^ k)).toInt = x.toInt - 2 ^ k := by
  have hkw : (2 : Int) ^ k ≤ 2 ^ (w - 1) := pow_le_pow_right₀ (by norm_num) (by omega)
  have hk1 : (1 : Int) ≤ 2 ^ k := one_le_pow₀ (by norm_num)
  rw [toInt_add, toInt_ofInt_eq_self (by omega) (by linarith) (by linarith),
    bmod_two_pow_eq_self (by omega) (by linarith) (by linarith), Int.sub_eq_add_neg]

end BitVec

end SignedDivision
