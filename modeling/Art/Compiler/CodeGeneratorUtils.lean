import Art.Lib.MagicDivision
import Art.Lib.SignedDivision
import Art.Compiler.Graph
import Mathlib.Data.Fintype.Card
import Mathlib.Data.Nat.Prime.Basic

/-!
# Magic numbers for division by a constant

`compiler/optimizing/code_generator_utils.cc`, `CalculateMagicAndShiftForDivRem`: the multiplier
and shift with which the code generators replace a division by a constant. The loop runs in
`uint64_t` and keeps `quotient1, remainder1` equal to `2 ^ p / abs_nc, 2 ^ p % abs_nc` and
`quotient2, remainder2` equal to `2 ^ p / abs_d, 2 ^ p % abs_d` (`magicState`); it stops at the
first `p` with `2 ^ p > abs_nc * (abs_d - 2 ^ p % abs_d)`, which is `MagicDivision.Exact` for
the numerators of the divisor's type. The loop is given a `fuel` bound; `w` iterations are
always enough (`calculateMagicAndShiftForDivRem_spec`).
-/

namespace Art

open MagicDivision

/-- The variables of the loop of `CalculateMagicAndShiftForDivRem`. -/
structure MagicLoop where
  p : Nat
  quotient1 : BitVec 64
  remainder1 : BitVec 64
  quotient2 : BitVec 64
  remainder2 : BitVec 64
deriving DecidableEq, Repr

/-- One step of the long division of `2 ^ p` by `d`, written twice in the loop body:
`quotient = 2 * quotient; remainder = 2 * remainder; if (remainder >= d) { ... }`. -/
def doubleDivMod (d quotient remainder : BitVec 64) : BitVec 64 × BitVec 64 :=
  let quotient := 2 * quotient
  let remainder := 2 * remainder
  if d ≤ remainder then (quotient + 1, remainder - d) else (quotient, remainder)

/-- The body of the `do ... while` loop. -/
def magicStep (absNc absD : BitVec 64) (s : MagicLoop) : MagicLoop :=
  let (quotient1, remainder1) := doubleDivMod absNc s.quotient1 s.remainder1
  let (quotient2, remainder2) := doubleDivMod absD s.quotient2 s.remainder2
  ⟨s.p + 1, quotient1, remainder1, quotient2, remainder2⟩

/-- The loop condition `quotient1 < delta || (quotient1 == delta && remainder1 == 0)`. -/
def magicContinues (absD : BitVec 64) (s : MagicLoop) : Bool :=
  let delta := absD - s.remainder2
  s.quotient1 < delta || (s.quotient1 == delta && s.remainder1 == 0)

/-- The `do ... while` loop, with `fuel` bounding the number of iterations. -/
def magicLoop (absNc absD : BitVec 64) : Nat → MagicLoop → Option MagicLoop
  | 0, _ => none
  | fuel + 1, s =>
    let s := magicStep absNc absD s
    if magicContinues absD s then magicLoop absNc absD fuel s else some s

/-- `CalculateMagicAndShiftForDivRem(divisor, is_long, &magic, &shift)`, returning
`(magic, shift)`. -/
def calculateMagicAndShiftForDivRem (divisor : BitVec 64) (isLong : Bool) (fuel : Nat) :
    Option (BitVec 64 × Int) := do
  let p : Nat := if isLong then 63 else 31
  let exp : BitVec 64 := if isLong then 1#64 <<< 63 else 1#64 <<< 31
  let absD : BitVec 64 := if (0#64).sle divisor then divisor else -divisor
  let signBit : BitVec 64 :=
    if isLong then divisor >>> 63 else (divisor.setWidth 32 >>> 31).setWidth 64
  let tmp := exp + signBit
  let absNc := tmp - 1 - tmp % absD
  let s ← magicLoop absNc absD fuel ⟨p, exp / absNc, exp % absNc, exp / absD, exp % absD⟩
  let magic := if (0#64).slt divisor then s.quotient2 + 1 else -s.quotient2 - 1
  let magic := if isLong then magic else (magic.setWidth 32).signExtend 64
  return (magic, if isLong then (s.p : Int) - 64 else (s.p : Int) - 32)

/-- The width of the divided type. -/
def divWidth (isLong : Bool) : Nat := if isLong then 64 else 32

/-- The multiplier a returned `magic` stands for: the signed value, moved by `2 ^ w` where the
code generators add (`NeedToAddDividend`) or subtract (`NeedToSubDividend`) the dividend. -/
def correctedMagic (w : Nat) (magic : BitVec 64) (divisor : Int) : Int :=
  if 0 < divisor ∧ magic.toInt < 0 then magic.toInt + 2 ^ w
  else if divisor < 0 ∧ 0 < magic.toInt then magic.toInt - 2 ^ w
  else magic.toInt

/-! ### The loop as long division -/

/-- One doubling step of a long division: `2 * x` has quotient `2 * (x / a)` plus the carry of
the doubled remainder. -/
theorem div_mod_two_mul (x : Nat) {a : Nat} (ha : 0 < a) :
    2 * x / a = 2 * (x / a) + (if a ≤ 2 * (x % a) then 1 else 0) ∧
      2 * x % a = (if a ≤ 2 * (x % a) then 2 * (x % a) - a else 2 * (x % a)) := by
  have hsplit := Nat.div_add_mod x a
  have hr := Nat.mod_lt x ha
  rw [Nat.div_mod_unique ha, Nat.mul_add, Nat.mul_left_comm a 2]
  split
  · constructor
    · omega
    · omega
  · constructor
    · omega
    · omega

theorem doubleDivMod_ofNat (x : Nat) {a : Nat} (ha : 0 < a) (ha' : a ≤ 2 ^ 63) :
    doubleDivMod (.ofNat 64 a) (.ofNat 64 (x / a)) (.ofNat 64 (x % a)) =
      (.ofNat 64 (2 * x / a), .ofNat 64 (2 * x % a)) := by
  obtain ⟨hdiv, hmod⟩ := div_mod_two_mul x ha
  have hr := Nat.mod_lt x ha
  have h1 : (1 : BitVec 64).toNat = 1 := rfl
  have h2 : (2 : BitVec 64).toNat = 2 := rfl
  have hr2 : (2 * BitVec.ofNat 64 (x % a)).toNat = 2 * (x % a) := by
    rw [BitVec.toNat_mul, h2, BitVec.toNat_ofNat]
    rw [Nat.mod_eq_of_lt (by omega : x % a < 2 ^ 64)]
    exact Nat.mod_eq_of_lt (by norm_num; omega)
  have hle : (BitVec.ofNat 64 a ≤ 2 * BitVec.ofNat 64 (x % a)) ↔ a ≤ 2 * (x % a) := by
    rw [BitVec.le_def, hr2, BitVec.toNat_ofNat, Nat.mod_eq_of_lt (by omega)]
  rw [doubleDivMod, hdiv, hmod]
  by_cases hc : a ≤ 2 * (x % a)
  · rw [if_pos (hle.2 hc), if_pos hc, if_pos hc]
    congr 1
    · apply BitVec.eq_of_toNat_eq
      simp only [BitVec.toNat_add, BitVec.toNat_mul, h1, h2, BitVec.toNat_ofNat]
      omega
    · apply BitVec.eq_of_toNat_eq
      rw [BitVec.toNat_sub, hr2, BitVec.toNat_ofNat, BitVec.toNat_ofNat]
      omega
  · rw [if_neg (mt hle.1 hc), if_neg hc, if_neg hc]
    congr 1
    · apply BitVec.eq_of_toNat_eq
      simp only [BitVec.toNat_mul, h2, BitVec.toNat_ofNat]
      omega
    · apply BitVec.eq_of_toNat_eq
      rw [hr2, BitVec.toNat_ofNat]
      omega

/-- The loop variables at `p`, for `abs_nc = anc` and `abs_d = ad`. -/
def magicState (anc ad p : Nat) : MagicLoop :=
  ⟨p, .ofNat 64 (2 ^ p / anc), .ofNat 64 (2 ^ p % anc), .ofNat 64 (2 ^ p / ad),
    .ofNat 64 (2 ^ p % ad)⟩

/-- The loop condition, in numbers: `2 ^ p ≤ abs_nc * (abs_d - 2 ^ p % abs_d)`. -/
def MagicContinues (anc ad p : Nat) : Prop := 2 ^ p ≤ anc * (ad - 2 ^ p % ad)

instance (anc ad p : Nat) : Decidable (MagicContinues anc ad p) :=
  inferInstanceAs (Decidable (2 ^ p ≤ anc * (ad - 2 ^ p % ad)))

section Loop

variable {anc ad : Nat}

theorem magicStep_magicState (hanc : 0 < anc) (hanc' : anc ≤ 2 ^ 63) (had : 0 < ad)
    (had' : ad ≤ 2 ^ 63) (p : Nat) :
    magicStep (.ofNat 64 anc) (.ofNat 64 ad) (magicState anc ad p) = magicState anc ad (p + 1) := by
  simp only [magicStep, magicState, doubleDivMod_ofNat _ hanc hanc', doubleDivMod_ofNat _ had had',
    Nat.pow_succ']

/-- `x / a < δ || (x / a == δ && x % a == 0)` says `x ≤ δ * a`. -/
theorem div_lt_or_eq_iff {x a δ : Nat} (ha : 0 < a) :
    (x / a < δ ∨ (x / a = δ ∧ x % a = 0)) ↔ x ≤ δ * a := by
  rw [Nat.div_lt_iff_lt_mul ha, Nat.le_iff_lt_or_eq]
  apply or_congr_right
  constructor
  · rintro ⟨hq, hr⟩
    have := Nat.div_add_mod' x a
    rw [hq, hr, Nat.add_zero] at this
    exact this.symm
  · rintro rfl
    exact ⟨Nat.mul_div_cancel δ ha, Nat.mul_mod_left δ a⟩

theorem magicContinues_magicState (hanc : 0 < anc) (hanc' : anc ≤ 2 ^ 63) (had : 0 < ad)
    (had' : ad ≤ 2 ^ 63) {p : Nat} (hq : 2 ^ p / anc < 2 ^ 64) :
    magicContinues (.ofNat 64 ad) (magicState anc ad p) = decide (MagicContinues anc ad p) := by
  have hr1 : 2 ^ p % anc < anc := Nat.mod_lt _ hanc
  have hr2 : 2 ^ p % ad < ad := Nat.mod_lt _ had
  have hdelta : BitVec.ofNat 64 ad - BitVec.ofNat 64 (2 ^ p % ad) =
      BitVec.ofNat 64 (ad - 2 ^ p % ad) := by
    apply BitVec.eq_of_toNat_eq
    rw [BitVec.toNat_sub, BitVec.toNat_ofNat, BitVec.toNat_ofNat, BitVec.toNat_ofNat]
    omega
  have hzero : (0 : BitVec 64) = BitVec.ofNat 64 0 := rfl
  simp only [magicContinues, magicState, hdelta]
  rw [Bool.eq_iff_iff, hzero]
  simp only [Bool.or_eq_true, Bool.and_eq_true, beq_iff_eq, decide_eq_true_eq, BitVec.lt_def,
    ← BitVec.toNat_inj, BitVec.toNat_ofNat]
  rw [Nat.mod_eq_of_lt hq, Nat.mod_eq_of_lt (by omega : ad - 2 ^ p % ad < 2 ^ 64),
    Nat.mod_eq_of_lt (by omega : 2 ^ p % anc < 2 ^ 64), Nat.zero_mod, div_lt_or_eq_iff hanc,
    MagicContinues, Nat.mul_comm]

/-- From `p`, the loop runs to the first `P > p` where its condition fails, provided the quotient
`2 ^ q / abs_nc` stays below `2 ^ 63` on the way (so that doubling it does not wrap). -/
theorem magicLoop_magicState (hanc : 0 < anc) (hanc' : anc ≤ 2 ^ 63) (had : 0 < ad)
    (had' : ad ≤ 2 ^ 63) (fuel : Nat) {p P : Nat} (hpP : p < P) (hfuel : P - p ≤ fuel)
    (hbound : ∀ q, p ≤ q → q < P → 2 ^ q / anc < 2 ^ 63)
    (hcont : ∀ q, p < q → q < P → MagicContinues anc ad q) (hstop : ¬ MagicContinues anc ad P) :
    magicLoop (.ofNat 64 anc) (.ofNat 64 ad) fuel (magicState anc ad p) =
      some (magicState anc ad P) := by
  induction fuel generalizing p with
  | zero => omega
  | succ fuel ih =>
    have hq : 2 ^ (p + 1) / anc < 2 ^ 64 := by
      have hb := hbound p (Nat.le_refl p) hpP
      have hdbl := (div_mod_two_mul (2 ^ p) hanc).1
      rw [Nat.pow_succ', hdbl]
      split <;> omega
    rw [magicLoop, magicStep_magicState hanc hanc' had had',
      magicContinues_magicState hanc hanc' had had' hq]
    by_cases hlast : p + 1 = P
    · subst hlast
      rw [decide_eq_false hstop]
      rfl
    · rw [decide_eq_true (hcont (p + 1) (by omega) (by omega)), if_pos rfl]
      exact ih (by omega) (by omega) (fun q h1 h2 => hbound q (by omega) h2)
        (fun q h1 h2 => hcont q (by omega) h2)

/-- Where the loop stops: past `k` and at most at `2 * k`, for `abs_nc ≤ 2 ^ k` and
`abs_d < 2 ^ k`. -/
theorem exists_magicStop {k : Nat} (hk : 1 ≤ k) (hanc' : anc ≤ 2 ^ k) (had' : ad < 2 ^ k) :
    ∃ P, k < P ∧ P ≤ 2 * k ∧ ¬ MagicContinues anc ad P ∧
      ∀ q, k < q → q < P → MagicContinues anc ad q := by
  have hlast : ¬ MagicContinues anc ad (k + 1 + (k - 1)) := by
    rw [MagicContinues, not_le, show k + 1 + (k - 1) = k + k by omega]
    calc anc * (ad - 2 ^ (k + k) % ad) ≤ 2 ^ k * ad :=
          Nat.mul_le_mul hanc' (Nat.sub_le _ _)
      _ < 2 ^ k * 2 ^ k := Nat.mul_lt_mul_of_pos_left had' (Nat.two_pow_pos k)
      _ = 2 ^ (k + k) := (Nat.pow_add 2 k k).symm
  have hex : ∃ j, ¬ MagicContinues anc ad (k + 1 + j) := ⟨k - 1, hlast⟩
  refine ⟨k + 1 + Nat.find hex, by omega, ?_, Nat.find_spec hex, ?_⟩
  · have := Nat.find_min' hex hlast
    omega
  · intro q hq1 hq2
    have hmin := Nat.find_min hex (m := q - (k + 1)) (by omega)
    rw [show k + 1 + (q - (k + 1)) = q by omega] at hmin
    exact not_not.1 hmin

end Loop

/-! ### From the stopping point to the multiplier -/

section Stop

variable {anc ad P : Nat}

/-- A divisor that is not a power of two leaves a remainder on every power of two. -/
theorem pow_mod_ne_zero (hpow : ∀ j, ad ≠ 2 ^ j) (q : Nat) : 2 ^ q % ad ≠ 0 := by
  intro h
  obtain ⟨j, -, hj⟩ := (Nat.dvd_prime_pow Nat.prime_two).1 (Nat.dvd_of_mod_eq_zero h)
  exact hpow j hj

/-- Where the loop stops, the multiplier divides every numerator up to `N`. -/
theorem exact_of_stop {N : Nat} (had : 0 < ad) (hN : ad ≤ N + 1) (hnc : anc + 1 = (N + 1) / ad * ad)
    (hstop : ¬ MagicContinues anc ad P) : Exact ad P N anc :=
  ⟨had, hN, hnc, Nat.lt_of_not_le hstop⟩

/-- The multiplier fits in `w = k + 1` bits: at the first step `2 ^ (k + 1) / abs_d` is small, and
later the condition that held one step earlier bounds `2 ^ P` by `2 ^ (k + 1) * (abs_d - 1)`. -/
theorem multiplier_lt {k : Nat} (hk : 1 ≤ k) (had : 3 ≤ ad) (had' : ad < 2 ^ (k + 1))
    (hanc' : anc ≤ 2 ^ k) (hpow : ∀ j, ad ≠ 2 ^ j) (hkP : k < P)
    (hprev : P = k + 1 ∨ MagicContinues anc ad (P - 1)) :
    multiplier ad P < 2 ^ (k + 1) := by
  have hw : 4 ≤ 2 ^ (k + 1) := by
    calc 4 = 2 ^ 2 := rfl
      _ ≤ 2 ^ (k + 1) := Nat.pow_le_pow_right (by norm_num) (by omega)
  rcases hprev with rfl | hcont
  · have : 2 ^ (k + 1) / ad ≤ 2 ^ (k + 1) / 3 := Nat.div_le_div_left had (by norm_num)
    have : 2 ^ (k + 1) / 3 < 2 ^ (k + 1) - 1 := by omega
    rw [multiplier]
    omega
  · have hr : 1 ≤ 2 ^ (P - 1) % ad := Nat.pos_of_ne_zero (pow_mod_ne_zero hpow _)
    have hpowP : 2 ^ P = 2 * 2 ^ (P - 1) := by
      rw [← Nat.pow_succ', Nat.succ_eq_add_one, Nat.sub_add_cancel (by omega)]
    have hle : 2 ^ P ≤ 2 ^ (k + 1) * (ad - 1) :=
      calc 2 ^ P = 2 * 2 ^ (P - 1) := hpowP
        _ ≤ 2 * (anc * (ad - 2 ^ (P - 1) % ad)) := Nat.mul_le_mul_left 2 hcont
        _ ≤ 2 * (2 ^ k * (ad - 1)) := Nat.mul_le_mul_left 2 (Nat.mul_le_mul hanc' (by omega))
        _ = 2 ^ (k + 1) * (ad - 1) := by rw [Nat.pow_succ']; ring
    have hdiv : 2 ^ (k + 1) * (ad - 1) / ad < 2 ^ (k + 1) - 1 := by
      rw [Nat.div_lt_iff_lt_mul (by omega), Nat.mul_sub_one, Nat.sub_one_mul]
      have : 2 ^ (k + 1) ≤ 2 ^ (k + 1) * ad := Nat.le_mul_of_pos_right _ (by omega)
      omega
    have := Nat.div_le_div_right (c := ad) hle
    rw [multiplier]
    omega

end Stop

/-! ### Reading the divisor -/

/-- `abs_nc` in numbers, for a divisor `d` of a `k + 1`-bit type: with `tmp = 2 ^ k + sign_bit`,
`tmp - 1 - tmp % abs_d`. -/
def magicNc (k : Nat) (d : Int) : Nat :=
  let tmp := 2 ^ k + if d < 0 then 1 else 0
  tmp - 1 - tmp % d.natAbs

section Divisor

variable {d : Int}

theorem sle_ofInt (hlo : -2 ^ 63 ≤ d) (hhi : d < 2 ^ 63) :
    (0#64).sle (.ofInt 64 d) = decide (0 ≤ d) := by
  rw [Bool.eq_iff_iff, BitVec.sle_iff_toInt_le,
    BitVec.toInt_ofInt_eq_self (by norm_num) (by simpa using hlo) (by simpa using hhi)]
  simp

theorem slt_ofInt (hlo : -2 ^ 63 ≤ d) (hhi : d < 2 ^ 63) :
    (0#64).slt (.ofInt 64 d) = decide (0 < d) := by
  rw [Bool.eq_iff_iff, BitVec.slt_iff_toInt_lt,
    BitVec.toInt_ofInt_eq_self (by norm_num) (by simpa using hlo) (by simpa using hhi)]
  simp

/-- `abs_d`: `(divisor >= 0) ? divisor : -divisor`. -/
theorem absD_ofInt (hlo : -2 ^ 63 ≤ d) (hhi : d < 2 ^ 63) :
    (if (0#64).sle (.ofInt 64 d) then BitVec.ofInt 64 d else -BitVec.ofInt 64 d) =
      .ofNat 64 d.natAbs := by
  rw [sle_ofInt hlo hhi]
  by_cases hd : 0 ≤ d
  · rw [decide_eq_true hd, if_pos rfl, ← BitVec.ofInt_natCast, Int.natAbs_of_nonneg hd]
  · rw [decide_eq_false hd, if_neg Bool.false_ne_true, ← BitVec.ofInt_neg, ← BitVec.ofInt_natCast,
      Int.ofNat_natAbs_of_nonpos (by omega)]

/-- `sign_bit` of a 64-bit divisor. -/
theorem ofInt_ushiftRight_63 (hlo : -2 ^ 63 ≤ d) (hhi : d < 2 ^ 63) :
    BitVec.ofInt 64 d >>> 63 = .ofNat 64 (if d < 0 then 1 else 0) := by
  apply BitVec.eq_of_toNat_eq
  rw [BitVec.toNat_ushiftRight, BitVec.toNat_ofInt, BitVec.toNat_ofNat, Nat.shiftRight_eq_div_pow]
  have hnn : 0 ≤ d % ((2 ^ 64 : Nat) : Int) := Int.emod_nonneg _ (by norm_num)
  have h := Int.toNat_of_nonneg hnn
  push_cast at h ⊢
  split <;> omega

/-- `sign_bit` of a 32-bit divisor, `static_cast<uint32_t>(divisor) >> 31`. -/
theorem setWidth_ofInt_ushiftRight_31 (hlo : -2 ^ 31 ≤ d) (hhi : d < 2 ^ 31) :
    ((BitVec.ofInt 64 d).setWidth 32 >>> 31).setWidth 64 = .ofNat 64 (if d < 0 then 1 else 0) := by
  apply BitVec.eq_of_toNat_eq
  rw [BitVec.toNat_setWidth, BitVec.toNat_ushiftRight, BitVec.toNat_setWidth, BitVec.toNat_ofInt,
    BitVec.toNat_ofNat, Nat.shiftRight_eq_div_pow]
  have hnn : 0 ≤ d % ((2 ^ 64 : Nat) : Int) := Int.emod_nonneg _ (by norm_num)
  have h := Int.toNat_of_nonneg hnn
  push_cast at h ⊢
  split <;> omega

theorem ofNat_udiv_ofNat {a b : Nat} (ha : a < 2 ^ 64) (hb : b < 2 ^ 64) :
    BitVec.ofNat 64 a / .ofNat 64 b = .ofNat 64 (a / b) := by
  apply BitVec.eq_of_toNat_eq
  rw [BitVec.toNat_udiv, BitVec.toNat_ofNat, BitVec.toNat_ofNat, BitVec.toNat_ofNat,
    Nat.mod_eq_of_lt ha, Nat.mod_eq_of_lt hb, Nat.mod_eq_of_lt (Nat.lt_of_le_of_lt (Nat.div_le_self _ _) ha)]

theorem ofNat_umod_ofNat {a b : Nat} (ha : a < 2 ^ 64) (hb : b < 2 ^ 64) :
    BitVec.ofNat 64 a % .ofNat 64 b = .ofNat 64 (a % b) := by
  apply BitVec.eq_of_toNat_eq
  rw [BitVec.toNat_umod, BitVec.toNat_ofNat, BitVec.toNat_ofNat, BitVec.toNat_ofNat,
    Nat.mod_eq_of_lt ha, Nat.mod_eq_of_lt hb, Nat.mod_eq_of_lt (Nat.lt_of_le_of_lt (Nat.mod_le _ _) ha)]

theorem divWidth_sub_one_le (isLong : Bool) : divWidth isLong - 1 ≤ 63 := by
  cases isLong <;> decide

/-- The computations before the loop, for a divisor of the type's range: the loop starts from
`magicState` at `p = w - 1`, and the result is read from where it stops. -/
theorem calculateMagicAndShiftForDivRem_eq (isLong : Bool)
    (hlo : -2 ^ (divWidth isLong - 1) ≤ d) (hhi : d < 2 ^ (divWidth isLong - 1)) (hd : d ≠ 0)
    (fuel : Nat) :
    calculateMagicAndShiftForDivRem (.ofInt 64 d) isLong fuel =
      (magicLoop (.ofNat 64 (magicNc (divWidth isLong - 1) d)) (.ofNat 64 d.natAbs) fuel
          (magicState (magicNc (divWidth isLong - 1) d) d.natAbs (divWidth isLong - 1))).map
        fun s =>
          let magic := if 0 < d then s.quotient2 + 1 else -s.quotient2 - 1
          (if isLong then magic else (magic.setWidth 32).signExtend 64,
            if isLong then (s.p : Int) - 64 else (s.p : Int) - 32) := by
  set k := divWidth isLong - 1 with hk
  have hk63 : k ≤ 63 := divWidth_sub_one_le isLong
  have hpowk : (2 : Int) ^ k ≤ 2 ^ 63 := pow_le_pow_right₀ (by norm_num) hk63
  have hlo' : -2 ^ 63 ≤ d := by omega
  have hhi' : d < 2 ^ 63 := by omega
  have hexp : (if isLong then 1#64 <<< 63 else 1#64 <<< 31) = BitVec.ofNat 64 (2 ^ k) := by
    cases isLong <;> decide
  have hsign : (if isLong then BitVec.ofInt 64 d >>> 63
      else ((BitVec.ofInt 64 d).setWidth 32 >>> 31).setWidth 64) =
      .ofNat 64 (if d < 0 then 1 else 0) := by
    cases isLong
    · exact setWidth_ofInt_ushiftRight_31 hlo hhi
    · exact ofInt_ushiftRight_63 hlo hhi
  have hp : (if isLong then 63 else 31) = k := by cases isLong <;> rfl
  have hpow63 : 2 ^ k ≤ 2 ^ 63 := Nat.pow_le_pow_right (by norm_num) hk63
  have had : d.natAbs ≤ 2 ^ k := by
    have : (d.natAbs : Int) ≤ 2 ^ k := by omega
    exact_mod_cast this
  have had0 : 0 < d.natAbs := Int.natAbs_pos.2 hd
  have hsgn : (if d < 0 then 1 else 0) ≤ 1 := by split <;> omega
  have hmod : (2 ^ k + if d < 0 then 1 else 0) % d.natAbs < d.natAbs := Nat.mod_lt _ had0
  have htmp : BitVec.ofNat 64 (2 ^ k) + .ofNat 64 (if d < 0 then 1 else 0) =
      .ofNat 64 (2 ^ k + if d < 0 then 1 else 0) := by
    rw [BitVec.ofNat_add]
  have hnc : BitVec.ofNat 64 (2 ^ k + if d < 0 then 1 else 0) - 1 -
      BitVec.ofNat 64 (2 ^ k + if d < 0 then 1 else 0) % .ofNat 64 d.natAbs =
      .ofNat 64 (magicNc k d) := by
    rw [ofNat_umod_ofNat (by omega) (by omega)]
    apply BitVec.eq_of_toNat_eq
    have h1 : (1 : BitVec 64).toNat = 1 := rfl
    simp only [BitVec.toNat_sub, h1, BitVec.toNat_ofNat, magicNc]
    omega
  have hanc : magicNc k d < 2 ^ 64 := by
    simp only [magicNc]
    omega
  simp only [calculateMagicAndShiftForDivRem, absD_ofInt hlo' hhi', hexp, hsign, slt_ofInt hlo' hhi',
    htmp, hnc, hp, ofNat_udiv_ofNat (by omega : 2 ^ k < 2 ^ 64) hanc,
    ofNat_umod_ofNat (by omega : 2 ^ k < 2 ^ 64) hanc,
    ofNat_udiv_ofNat (by omega : 2 ^ k < 2 ^ 64) (by omega : d.natAbs < 2 ^ 64),
    ofNat_umod_ofNat (by omega : 2 ^ k < 2 ^ 64) (by omega : d.natAbs < 2 ^ 64),
    decide_eq_true_eq]
  rw [magicState]
  cases magicLoop (.ofNat 64 (magicNc k d)) (.ofNat 64 d.natAbs) fuel
    ⟨k, .ofNat 64 (2 ^ k / magicNc k d), .ofNat 64 (2 ^ k % magicNc k d),
      .ofNat 64 (2 ^ k / d.natAbs), .ofNat 64 (2 ^ k % d.natAbs)⟩ <;> rfl

end Divisor

/-! ### The returned magic number -/

section Magic

variable {w M : Nat} {magic : BitVec 64} {d : Int}

/-- A magic number for a positive divisor holds `M` as a `w`-bit value, read as signed. -/
theorem correctedMagic_of_pos (hd : 0 < d) (hM : M < 2 ^ w)
    (h : magic.toInt = if 2 * M < 2 ^ w then (M : Int) else M - 2 ^ w) :
    correctedMagic w magic d = M := by
  have hcast : ((2 ^ w : Nat) : Int) = 2 ^ w := by push_cast; rfl
  have hM' : (M : Int) < 2 ^ w := by rw [← hcast]; exact_mod_cast hM
  rw [correctedMagic]
  split at h
  · rw [if_neg (by omega), if_neg (by omega), h]
  · rw [if_pos ⟨hd, by omega⟩, h, Int.sub_add_cancel]

/-- A magic number for a negative divisor holds `-M` as a `w`-bit value, read as signed. -/
theorem correctedMagic_of_neg (hd : d < 0) (hM1 : 1 ≤ M) (hM : M < 2 ^ w)
    (h : magic.toInt =
      if 2 * (2 ^ w - M) < 2 ^ w then ((2 ^ w - M : Nat) : Int) else -(M : Int)) :
    correctedMagic w magic d = -M := by
  have hcast : ((2 ^ w - M : Nat) : Int) = 2 ^ w - M := by push_cast [Nat.cast_sub hM.le]; rfl
  rw [correctedMagic, if_neg (by omega)]
  split at h
  · rw [if_pos ⟨hd, by omega⟩, h, hcast]
    ring
  · rw [if_neg (by omega), h]

theorem toNat_ofNat_add_one {q : Nat} (hq : q + 1 < 2 ^ 64) :
    (BitVec.ofNat 64 q + 1).toNat = q + 1 := by
  have h1 : (1 : BitVec 64).toNat = 1 := rfl
  rw [BitVec.toNat_add, BitVec.toNat_ofNat, h1]
  omega

theorem toNat_neg_ofNat_sub_one {q : Nat} (hq : q + 1 < 2 ^ 64) :
    (-BitVec.ofNat 64 q - 1).toNat = 2 ^ 64 - (q + 1) := by
  have h1 : (1 : BitVec 64).toNat = 1 := rfl
  rw [BitVec.toNat_sub, BitVec.toNat_neg, BitVec.toNat_ofNat, h1]
  omega

/-- `static_cast<int>(*magic)`, sign-extended back to `int64_t`. -/
theorem toInt_signExtend_setWidth (x : BitVec 64) :
    ((x.setWidth 32).signExtend 64).toInt =
      if 2 * (x.toNat % 2 ^ 32) < 2 ^ 32 then ((x.toNat % 2 ^ 32 : Nat) : Int)
      else ((x.toNat % 2 ^ 32 : Nat) : Int) - ((2 ^ 32 : Nat) : Int) := by
  rw [BitVec.toInt_signExtend_of_le (by norm_num), BitVec.toInt_eq_toNat_cond, BitVec.toNat_setWidth]

end Magic

/-! ### Correctness -/

/-- The numbers of `CalculateMagicAndShiftForDivRem` for a divisor `d` of a `k + 1`-bit type:
`abs_nc` is the largest numerator up to `N` with remainder `abs_d - 1`, where `N` is the largest
magnitude of a numerator whose quotient by `d` is not negative. -/
theorem magicNc_spec {k N : Nat} {d : Int} (hlo : -2 ^ k ≤ d) (hhi : d < 2 ^ k) (hd : d ≠ 0)
    (hN : N = if d < 0 then 2 ^ k else 2 ^ k - 1) :
    d.natAbs ≤ N + 1 ∧ magicNc k d + 1 = (N + 1) / d.natAbs * d.natAbs ∧ magicNc k d ≤ 2 ^ k := by
  have had0 : 0 < d.natAbs := Int.natAbs_pos.2 hd
  have had : d.natAbs ≤ 2 ^ k := by
    have : (d.natAbs : Int) ≤ 2 ^ k := by omega
    exact_mod_cast this
  have htmp : (2 ^ k + if d < 0 then 1 else 0) = N + 1 := by
    have := Nat.one_le_two_pow (n := k)
    rw [hN]
    split <;> omega
  have hNk : N ≤ 2 ^ k := by
    rw [hN]
    split <;> omega
  have hsplit := Nat.div_add_mod' (N + 1) d.natAbs
  have hmod := Nat.mod_lt (N + 1) had0
  rw [magicNc, htmp]
  refine ⟨by omega, by omega, by omega⟩

/-- The magic number returned for `M = quotient2 + 1`, corrected as the code generators use it, is
`M` for a positive divisor and `-M` for a negative one. -/
theorem correctedMagic_loopMagic (isLong : Bool) {d : Int} (hd : d ≠ 0) {q : Nat}
    (hq : q + 1 < 2 ^ divWidth isLong) :
    let magic := if 0 < d then BitVec.ofNat 64 q + 1 else -BitVec.ofNat 64 q - 1
    correctedMagic (divWidth isLong) (if isLong then magic else (magic.setWidth 32).signExtend 64) d =
      if 0 < d then ((q + 1 : Nat) : Int) else -((q + 1 : Nat) : Int) := by
  intro magic
  have hq64 : q + 1 < 2 ^ 64 := by
    have : 2 ^ divWidth isLong ≤ 2 ^ 64 := Nat.pow_le_pow_right (by norm_num) (by cases isLong <;> decide)
    omega
  by_cases hpos : 0 < d
  · simp only [magic, if_pos hpos]
    apply correctedMagic_of_pos hpos hq
    cases isLong
    · rw [if_neg Bool.false_ne_true, toInt_signExtend_setWidth, toNat_ofNat_add_one hq64]
      simp only [divWidth, Bool.false_eq_true, ↓reduceIte] at hq ⊢
      split_ifs <;> omega
    · rw [if_pos rfl, BitVec.toInt_eq_toNat_cond, toNat_ofNat_add_one hq64]
      simp only [divWidth, ↓reduceIte] at hq ⊢
      split_ifs <;> omega
  · have hneg : d < 0 := by omega
    simp only [magic, if_neg hpos]
    apply correctedMagic_of_neg hneg (by omega) hq
    cases isLong
    · rw [if_neg Bool.false_ne_true, toInt_signExtend_setWidth, toNat_neg_ofNat_sub_one hq64]
      simp only [divWidth, Bool.false_eq_true, ↓reduceIte] at hq ⊢
      split_ifs <;> omega
    · rw [if_pos rfl, BitVec.toInt_eq_toNat_cond, toNat_neg_ofNat_sub_one hq64]
      simp only [divWidth, ↓reduceIte] at hq ⊢
      split_ifs <;> omega

theorem calculateMagicAndShiftForDivRem_spec (isLong : Bool) (d : Int)
    (hlo : -2 ^ (divWidth isLong - 1) ≤ d) (hhi : d < 2 ^ (divWidth isLong - 1))
    (habs : 2 ≤ d.natAbs) (hpow : ∀ j, d.natAbs ≠ 2 ^ j) :
    ∃ magic shift,
      (∀ fuel, divWidth isLong ≤ fuel →
        calculateMagicAndShiftForDivRem (.ofInt 64 d) isLong fuel = some (magic, shift)) ∧
      0 ≤ shift ∧ shift < divWidth isLong ∧
      ∀ n : Int, -2 ^ (divWidth isLong - 1) ≤ n → n < 2 ^ (divWidth isLong - 1) →
        signedQuotient (correctedMagic (divWidth isLong) magic d) (divWidth isLong + shift).toNat n =
          n.tdiv d := by
  set k := divWidth isLong - 1 with hk
  have hw : divWidth isLong = k + 1 := by cases isLong <;> rfl
  have hk1 : 1 ≤ k := by cases isLong <;> decide
  have hk63 : k ≤ 63 := divWidth_sub_one_le isLong
  have hd : d ≠ 0 := by omega
  set N := if d < 0 then 2 ^ k else 2 ^ k - 1 with hNdef
  obtain ⟨hN, hnc, hanck⟩ := magicNc_spec hlo hhi hd hNdef
  set ad := d.natAbs with hadef
  set anc := magicNc k d with hancdef
  have had3 : 3 ≤ ad := by
    have := hpow 1
    omega
  have had' : ad < 2 ^ k := by
    have hle : (ad : Int) ≤ 2 ^ k := by omega
    have hle' : ad ≤ 2 ^ k := by exact_mod_cast hle
    have := hpow k
    omega
  have hanc2 : 2 ≤ anc := by
    have hK : 1 ≤ (N + 1) / ad := (Nat.le_div_iff_mul_le (by omega)).2 (by simpa using hN)
    have := Nat.mul_le_mul_right ad hK
    omega
  have hpowk : 2 ^ k ≤ 2 ^ 63 := Nat.pow_le_pow_right (by norm_num) hk63
  obtain ⟨P, hkP, hP2k, hstop, hcont⟩ := exists_magicStop hk1 hanck had'
  -- below `P` the quotient by `abs_nc` fits in 63 bits: at `p = k` as `abs_nc ≥ 2`, and later
  -- because the loop condition held
  have hbound : ∀ q, k ≤ q → q < P → 2 ^ q / anc < 2 ^ 63 := by
    intro q hq1 hq2
    rcases Nat.eq_or_lt_of_le hq1 with hqk | hq1
    · have : 2 ^ q / anc ≤ 2 ^ q / 2 := Nat.div_le_div_left hanc2 (by norm_num)
      have : 2 ^ q / 2 < 2 ^ q := Nat.div_lt_self (Nat.two_pow_pos _) (by norm_num)
      have : 2 ^ q ≤ 2 ^ 63 := by rw [← hqk]; exact hpowk
      omega
    · have hc : 2 ^ q ≤ anc * (ad - 2 ^ q % ad) := hcont q hq1 hq2
      have : 2 ^ q / anc ≤ ad - 2 ^ q % ad := Nat.div_le_of_le_mul hc
      omega
  have hloop : ∀ fuel, k + 1 ≤ fuel →
      magicLoop (.ofNat 64 anc) (.ofNat 64 ad) fuel (magicState anc ad k) =
        some (magicState anc ad P) := fun fuel hfuel =>
    magicLoop_magicState (by omega) (by omega) (by omega) (by omega) fuel hkP (by omega) hbound
      (fun q hq1 hq2 => hcont q hq1 hq2) hstop
  have hexact : Exact ad P N anc := exact_of_stop (by omega) hN hnc hstop
  have hM : multiplier ad P < 2 ^ (k + 1) := by
    apply multiplier_lt hk1 had3 (by rw [Nat.pow_succ]; omega) hanck hpow hkP
    rcases Nat.eq_or_lt_of_le (Nat.succ_le_of_lt hkP) with h | h
    · exact Or.inl h.symm
    · exact Or.inr (hcont (P - 1) (by omega) (by omega))
  let magic : BitVec 64 :=
    if 0 < d then BitVec.ofNat 64 (2 ^ P / ad) + 1 else -BitVec.ofNat 64 (2 ^ P / ad) - 1
  refine ⟨if isLong then magic else (magic.setWidth 32).signExtend 64, (P : Int) - divWidth isLong,
    fun fuel hfuel => ?_, by omega, by omega, fun n hnlo hnhi => ?_⟩
  · rw [calculateMagicAndShiftForDivRem_eq isLong hlo hhi hd, hloop fuel (by omega)]
    cases isLong <;> rfl
  · have hP : (divWidth isLong + ((P : Int) - divWidth isLong)).toNat = P := by omega
    rw [hP, correctedMagic_loopMagic isLong hd (by rw [hw]; exact hM)]
    by_cases hpos : 0 < d
    · have hdad : (ad : Int) = d := Int.natAbs_of_nonneg hpos.le
      have hN' : N = 2 ^ k - 1 := if_neg (by omega)
      rw [if_pos hpos, ← hdad]
      exact signedQuotient_of_exact (hN' ▸ hexact) (by omega) hnlo hnhi
    · have hdad : -(ad : Int) = d := by omega
      have hN' : N = 2 ^ k := if_pos (by omega)
      rw [if_neg hpos, ← hdad]
      exact signedQuotient_neg_of_exact (hN' ▸ hexact) hnlo hnhi

/-- For `int` the magic number is a sign-extended `int`. -/
theorem calculateMagicAndShiftForDivRem_int32_magic {divisor magic : BitVec 64} {fuel : Nat}
    {shift : Int} (h : calculateMagicAndShiftForDivRem divisor false fuel = some (magic, shift)) :
    -2 ^ 31 ≤ magic.toInt ∧ magic.toInt < 2 ^ 31 := by
  simp only [calculateMagicAndShiftForDivRem, Bool.false_eq_true, ↓reduceIte, bind, pure,
    Option.bind_eq_some_iff, Option.some.injEq, Prod.mk.injEq] at h
  obtain ⟨st, -, rfl, -⟩ := h
  rw [BitVec.toInt_signExtend_of_le (by norm_num)]
  exact ⟨BitVec.le_toInt _, BitVec.toInt_lt⟩

/-- The magic number for a divisor of either type is a value of that type. -/
theorem calculateMagicAndShiftForDivRem_magic_inRange {t : IntType} {divisor magic : BitVec 64}
    {fuel : Nat} {shift : Int}
    (h : calculateMagicAndShiftForDivRem divisor (t = .int64) fuel = some (magic, shift)) :
    t.InRange magic.toInt := by
  cases t with
  | int32 => exact calculateMagicAndShiftForDivRem_int32_magic h
  | int64 => exact ⟨BitVec.le_toInt _, BitVec.toInt_lt⟩

theorem divWidth_eq_bits (t : IntType) : divWidth (t = .int64) = t.bits := by
  cases t <;> rfl

example : calculateMagicAndShiftForDivRem (.ofInt 64 7) false 32 =
    some (.ofInt 64 (-1840700269), 2) := by
  decide

/-! ### What the code generators ask of a constant divisor -/

/-- `AbsOrMin` (`code_generator_utils.h`) of an `int64_t`: its absolute value, and `INT64_MIN` for
itself. -/
def absOrMin (value : BitVec 64) : BitVec 64 :=
  if value = BitVec.intMin 64 then value else value.abs

/-- `IsPowerOfTwo` (`bit_utils.h`): `(x & (x - 1)) == 0`, computed on the two's complement
pattern. -/
def isPowerOfTwo (x : BitVec 64) : Bool :=
  x &&& (x - 1) == 0

/-- `CTZ` (`bit_utils.h`) of a 64-bit value, which is `WhichPowerOf2` of a power of two. -/
def ctz (x : BitVec 64) : ℕ :=
  x.ctz.toNat

theorem toNat_absOrMin (imm : BitVec 64) : (absOrMin imm).toNat = imm.toInt.natAbs := by
  unfold absOrMin
  split_ifs with h
  · subst h
    decide
  · -- the absolute value of anything but `intMin` is non-negative, so `toNat` reads it
    have habs := BitVec.toInt_abs_eq_natAbs_of_ne_intMin h
    have hmsb : imm.abs.msb = false := by rw [BitVec.msb_eq_toInt, habs]; simp
    have htoNat := BitVec.toInt_eq_toNat_of_msb hmsb
    omega

/-- `IsPowerOfTwo` of a non-zero value holds for the powers of two and nothing else. -/
theorem isPowerOfTwo_iff {x : BitVec 64} (hx : x ≠ 0) :
    isPowerOfTwo x = true ↔ ∃ k, x.toNat = 2 ^ k := by
  have hpos : 0 < x.toNat := by
    rcases Nat.eq_zero_or_pos x.toNat with h | h
    · exact absurd (BitVec.eq_of_toNat_eq h) hx
    · exact h
  rw [isPowerOfTwo, beq_iff_eq, ← SignedDivision.and_sub_one_eq_zero_iff hpos,
    ← SignedDivision.toNat_and_sub_one x hx]
  constructor
  · intro h
    rw [h]
    rfl
  · intro h
    exact BitVec.eq_of_toNat_eq (by rw [h]; rfl)

/-- What the code generators decide a constant divisor on: a non-zero divisor is a power of two
in absolute value, or at least three and no power of two. -/
theorem constDenom_cases {type : IntType} {d : Int} (hd : type.InRange d) (hd0 : d ≠ 0) :
    BitVec.ofInt 64 d ≠ 0 ∧
      (isPowerOfTwo (absOrMin (.ofInt 64 d)) = true → ∃ k, d.natAbs = 2 ^ k) ∧
      (isPowerOfTwo (absOrMin (.ofInt 64 d)) = false → 2 ≤ d.natAbs ∧ ∀ j, d.natAbs ≠ 2 ^ j) := by
  have habs : (absOrMin (.ofInt 64 d)).toNat = d.natAbs := by
    rw [toNat_absOrMin, hd.toInt_ofInt_64]
  have hne : absOrMin (.ofInt 64 d) ≠ 0 := fun h => by
    rw [h] at habs
    exact hd0 (Int.natAbs_eq_zero.1 habs.symm)
  refine ⟨fun h => hd0 ?_, fun hp => ?_, fun hp => ?_⟩
  · rw [← hd.toInt_ofInt_64, h]
    rfl
  · rw [← habs]
    exact (isPowerOfTwo_iff hne).1 hp
  · have hpow : ∀ j, d.natAbs ≠ 2 ^ j := fun j h => by
      rw [← Bool.not_eq_true] at hp
      exact hp ((isPowerOfTwo_iff hne).2 ⟨j, habs.trans h⟩)
    have h1 := hpow 0
    have h0 : d.natAbs ≠ 0 := Int.natAbs_ne_zero.2 hd0
    exact ⟨by simp at h1; omega, hpow⟩

/-! ### Non-negative dividends -/

namespace HGraph

variable {ι β : Type} [DecidableEq ι] [DecidableEq β] (g : HGraph ι β)

/-- Whether the successor of `b`'s `HIf` for `branch` dominates `targetBlock`. -/
def successorDominates (b targetBlock : β) (branch : Bool) : Bool :=
  match g.ifSuccessor b branch with
  | some successor => g.dominates successor targetBlock
  | none => false

end HGraph

/-- The `switch` of `IsComparedValueNonNegativeInBlock`: for `value` compared by `c` with an
operand `A`, the `A` that must be non-negative, and the successor (`true` for `IfTrueSuccessor`)
in which `value` is then at least `A`. -/
def comparedOperand {ι : Type} [DecidableEq ι] (c : IfCondition) (left right value : ι) :
    Option (ι × Bool) :=
  match c with
  | .gt | .ge => if left = value then some (right, true) else some (left, false)
  | .lt | .le => if left = value then some (right, false) else some (left, true)
  | _ => none

section UnsignedUseAnalyzer

variable {ι β : Type} [DecidableEq ι] [DecidableEq β] (g : HGraph ι β)

mutual

/-- `UnsignedUseAnalyzer::IsNonNegativeUse(target_user, value)`: whether `value` is non-negative
where `targetUser` uses it. `seen` is `seen_values_`, shared by the whole analysis, and comes back
with the result; it only grows, which bounds the recursion. -/
def isNonNegativeUse [Fintype ι] (targetUser value : ι) (seen : Finset ι) :
    Bool × {s : Finset ι // seen ⊆ s} :=
  if value ∈ seen then (false, ⟨seen, subset_rfl⟩)
  else if g.isGEZero value then (true, ⟨insert value seen, Finset.subset_insert _ _⟩)
  else
    let r := isNonNegativeUseLoop targetUser value (g.uses value) (insert value seen)
    (r.1, ⟨r.2.1, (Finset.subset_insert _ _).trans r.2.2⟩)
termination_by (Fintype.card ι - seen.card, 0)
decreasing_by
  refine Prod.Lex.left _ _ ?_
  have hlt := Finset.card_lt_univ_of_notMem (by assumption : value ∉ seen)
  rw [Finset.card_insert_of_notMem (by assumption)]
  omega

/-- The loop of `IsNonNegativeUse` over the uses of `value`: a condition whose block dominates
`targetUser`'s may show it non-negative. -/
def isNonNegativeUseLoop [Fintype ι] (targetUser value : ι) (users : List ι) (seen : Finset ι) :
    Bool × {s : Finset ι // seen ⊆ s} :=
  match users with
  | [] => (false, ⟨seen, subset_rfl⟩)
  | user :: users =>
    if user = targetUser then isNonNegativeUseLoop targetUser value users seen
    else if (g.kind user).isCondition && g.dominates (g.block user) (g.block targetUser) then
      match isComparedValueNonNegativeInBlock value user (g.block targetUser) seen with
      | (true, s) => (true, s)
      | (false, s) =>
        let r := isNonNegativeUseLoop targetUser value users s.1
        (r.1, ⟨r.2.1, s.2.trans r.2.2⟩)
    else isNonNegativeUseLoop targetUser value users seen
termination_by (Fintype.card ι - seen.card, users.length + 2)
decreasing_by
  · exact Prod.Lex.right _ (by simp)
  · exact Prod.Lex.right _ (by simp)
  · -- `seen` only grows, and one user fewer is left
    rw [Prod.lex_def]
    have hle := Finset.card_le_card s.2
    rcases Nat.lt_or_ge (Fintype.card ι - s.1.card) (Fintype.card ι - seen.card) with h | h
    · exact Or.inl h
    · exact Or.inr ⟨by omega, by simp⟩
  · exact Prod.Lex.right _ (by simp)

/-- `UnsignedUseAnalyzer::IsComparedValueNonNegativeInBlock(value, cond, target_block)`. -/
def isComparedValueNonNegativeInBlock [Fintype ι] (value cond : ι) (targetBlock : β)
    (seen : Finset ι) : Bool × {s : Finset ι // seen ⊆ s} :=
  match g.kind cond with
  | .condition c left right =>
    if g.block cond = targetBlock ∨ g.ifInput (g.block cond) ≠ some cond then
      (false, ⟨seen, subset_rfl⟩)
    else
      match comparedOperand c left right value with
      | some (other, branch) =>
        let r := isNonNegativeUse cond other seen
        (r.1 && g.successorDominates (g.block cond) targetBlock branch, r.2)
      | none => (false, ⟨seen, subset_rfl⟩)
  | _ => (false, ⟨seen, subset_rfl⟩)
termination_by (Fintype.card ι - seen.card, 1)
decreasing_by
  exact Prod.Lex.right _ (by omega)

end

/-- `HasNonNegativeInputAt(instr, i)`. -/
def hasNonNegativeInputAt [Fintype ι] (instr : ι) (i : ℕ) : Bool :=
  match (g.kind instr).inputs[i]? with
  | some input => (isNonNegativeUse g instr input ∅).1
  | none => false

/-- `HasNonNegativeOrMinIntInputAt(instr, i)`: also an `HAbs`, or the constant
`MinValueOfIntegralType`. -/
def hasNonNegativeOrMinIntInputAt [Fintype ι] (instr : ι) (i : ℕ) : Bool :=
  match (g.kind instr).inputs[i]? with
  | some input =>
    (match g.kind input with
      | .abs _ => true
      | _ => false) ||
    (match g.type input with
      | some t => (g.kind input).int64Value? == some t.minValue
      | none => false) ||
    hasNonNegativeInputAt g instr i
  | none => false

end UnsignedUseAnalyzer

/-! ### Soundness of the analysis -/

/-- `value` is non-negative at every visit of `targetBlock`, if it is of an integral kind and its
block dominates `targetBlock`. -/
def HGraph.NonNegativeAt {ι β : Type} (g : HGraph ι β) (targetBlock : β) (value : ι) : Prop :=
  g.Dominates (g.block value) targetBlock → g.type value ≠ none →
    ∀ r : HRun g, ∀ k ≤ r.length, r.blockAt k = targetBlock → 0 ≤ r.env k value

section Soundness

variable {ι β : Type} [DecidableEq ι] [DecidableEq β] {g : HGraph ι β}

theorem comparedOperand_mem {c : IfCondition} {left right value other : ι} {branch : Bool}
    (h : comparedOperand c left right value = some (other, branch)) :
    other = left ∨ other = right := by
  cases c <;> simp only [comparedOperand, reduceCtorEq] at h
  all_goals
    split at h <;> simp only [Option.some.injEq, Prod.mk.injEq] at h <;> simp [h.1]

/-- What `IsComparedValueNonNegativeInBlock` relies on: in the successor it picks, `value` is at
least the other operand. -/
theorem comparedOperand_nonneg {c : IfCondition} {left right value other : ι} {branch : Bool}
    (h : comparedOperand c left right value = some (other, branch))
    (hmem : value = left ∨ value = right) {t : IntType} {e : ι → Int}
    (hholds : c.Holds t (e left) (e right) ↔ branch = true) (hother : 0 ≤ e other) :
    0 ≤ e value := by
  cases c <;> simp only [comparedOperand, reduceCtorEq] at h
  all_goals
    by_cases hl : left = value
    · rw [if_pos hl, Option.some.injEq, Prod.mk.injEq] at h
      obtain ⟨rfl, rfl⟩ := h
      subst hl
      simp only [IfCondition.Holds, iff_true, Bool.false_eq_true, iff_false] at hholds
      omega
    · rw [if_neg hl, Option.some.injEq, Prod.mk.injEq] at h
      obtain ⟨rfl, rfl⟩ := h
      obtain rfl : value = right := hmem.resolve_left (Ne.symm hl)
      simp only [IfCondition.Holds, iff_true, Bool.false_eq_true, iff_false] at hholds
      omega

omit [DecidableEq β] in
/-- The case of `IsComparedValueNonNegativeInBlock` that answers yes: `cond` ends its block's
`HIf`, the successor taken when `value` is at least the other operand dominates the target, and the
other operand is non-negative where `cond` reads it. On a run, the last entry into that successor
came from the `HIf`, with `value` as it is at the target. -/
theorem nonNegativeAt_of_compared (hg : g.WellFormed) {value cond left right other : ι}
    {c : IfCondition} {targetBlock : β} {branch : Bool}
    (hkind : g.kind cond = .condition c left right)
    (hif : g.ifInput (g.block cond) = some cond)
    (hop : comparedOperand c left right value = some (other, branch))
    (hother : g.NonNegativeAt (g.block cond) other)
    (hsucc : g.successorDominates (g.block cond) targetBlock branch = true)
    (huse : cond ∈ g.uses value) : g.NonNegativeAt targetBlock value := by
  intro _ htype r k hk hkT
  obtain ⟨last, hlast, hlastKind⟩ := g.ifInput_eq_some hif
  obtain ⟨hlen, hnodup, hpreds⟩ := hg.if_successors _ _ _ hlast hlastKind
  obtain ⟨s, hs, hsT⟩ : ∃ s, g.ifSuccessor (g.block cond) branch = some s ∧
      g.dominates s targetBlock = true := by
    unfold HGraph.successorDominates at hsucc
    split at hsucc
    · exact ⟨_, ‹_›, hsucc⟩
    · exact absurd hsucc Bool.false_ne_true
  have hedge := g.ifSuccessor_edge hs
  have hentry : s ≠ g.entry := fun h => hg.entry_no_pred _ (h ▸ hedge)
  have hvalueIn : value ∈ (g.kind cond).inputs := hg.uses_inputs value cond huse
  have hphi : (g.kind cond).isPhi = false := by rw [hkind]; rfl
  obtain ⟨i, hik, hic, his, henv⟩ := r.exists_visit_of_pred (hpreds s hedge) hentry
    (hg.input_dominates cond value hvalueIn hphi) (hg.dominates_sound _ _ hsT) hk hkT
  -- at the `i`-th visit the `HIf` went to `s`, so its condition was `branch`
  have hbranch : decide (r.env i cond ≠ 0) = branch := by
    refine g.ifSuccessor_injective hlen hnodup ?_ hs
    rw [← hic, r.branch i (by omega) last cond (hic ▸ hlast) hlastKind, his]
  have hmem : value = left ∨ value = right := by simpa [hkind, HKind.inputs] using hvalueIn
  obtain ⟨t, ht⟩ := Option.ne_none_iff_exists'.1 htype
  have htypes := hg.condition_type cond c left right hkind
  have htl : g.type left = some t := by rcases hmem with rfl | rfl <;> simp [← ht, htypes]
  have hcomp := r.computes i (by omega) cond hic.symm
  unfold HGraph.Computes at hcomp
  rw [hkind] at hcomp
  have hholds : c.Holds t (r.env i left) (r.env i right) ↔ branch = true := by
    rw [← hcomp t htl, ← hbranch, decide_eq_true_iff]
  -- the other operand is an input of `cond`, of the same kind
  have hotherIn : other ∈ (g.kind cond).inputs := by
    rcases comparedOperand_mem hop with rfl | rfl <;> simp [hkind, HKind.inputs]
  have hotherType : g.type other ≠ none := by
    rcases comparedOperand_mem hop with rfl | rfl <;> simp [htl, ← htypes]
  have hotherNonneg := hother (hg.input_dominates cond other hotherIn hphi) hotherType r i
    (by omega) hic
  rw [henv]
  exact comparedOperand_nonneg hop hmem hholds hotherNonneg

variable [Fintype ι]

/-- `UnsignedUseAnalyzer` is sound: each of its three functions answers yes only for a value that is
non-negative on every visit of the target block. By the functions' own induction; `seen` plays
no part in it. -/
theorem unsignedUseAnalyzer_sound (hg : g.WellFormed) :
    (∀ targetUser value seen, (isNonNegativeUse g targetUser value seen).1 = true →
      g.NonNegativeAt (g.block targetUser) value) ∧
    (∀ targetUser value users seen,
      (isNonNegativeUseLoop g targetUser value users seen).1 = true →
      (∀ u ∈ users, u ∈ g.uses value) → g.NonNegativeAt (g.block targetUser) value) ∧
    (∀ value cond targetBlock seen,
      (isComparedValueNonNegativeInBlock g value cond targetBlock seen).1 = true →
      cond ∈ g.uses value → g.NonNegativeAt targetBlock value) := by
  refine isNonNegativeUse.mutual_induct g
    (fun targetUser value seen => (isNonNegativeUse g targetUser value seen).1 = true →
      g.NonNegativeAt (g.block targetUser) value)
    (fun targetUser value users seen => (isNonNegativeUseLoop g targetUser value users seen).1 = true →
      (∀ u ∈ users, u ∈ g.uses value) → g.NonNegativeAt (g.block targetUser) value)
    (fun value cond targetBlock seen =>
      (isComparedValueNonNegativeInBlock g value cond targetBlock seen).1 = true →
      cond ∈ g.uses value → g.NonNegativeAt targetBlock value)
    ?_ ?_ ?_ ?_ ?_ ?_ ?_ ?_ ?_ ?_ ?_ ?_
  · -- `value` already seen
    intro targetUser value seen hseen h
    simp [isNonNegativeUse, hseen] at h
  · -- `IsGEZero`
    intro targetUser value seen _ hge _ hdom htype r k hk hkb
    exact g.isGEZero_sound hg r hge htype hk (r.visited_of_dominates hdom hk hkb)
  · -- the loop over the uses
    intro targetUser value seen hseen hge ih h
    rw [isNonNegativeUse, if_neg hseen, if_neg hge] at h
    exact ih h fun u hu => hu
  · intro targetUser value seen h
    simp [isNonNegativeUseLoop] at h
  · -- the target's own use is skipped
    intro value seen user users ih h huses
    rw [isNonNegativeUseLoop, if_pos rfl] at h
    exact ih h fun u hu => huses u (List.mem_cons_of_mem _ hu)
  · -- a dominating condition shows `value` non-negative
    intro targetUser value seen user users hne hcheck s hres ih _ huses
    exact ih (by rw [hres]) (huses user List.mem_cons_self)
  · -- a dominating condition that does not, and the rest of the uses
    intro targetUser value seen user users hne hcheck s hres _ ih h huses
    simp only [isNonNegativeUseLoop, if_neg hne, hcheck, if_true, hres] at h
    exact ih h fun u hu => huses u (List.mem_cons_of_mem _ hu)
  · intro targetUser value seen user users hne hcheck ih h huses
    rw [isNonNegativeUseLoop, if_neg hne, if_neg hcheck] at h
    exact ih h fun u hu => huses u (List.mem_cons_of_mem _ hu)
  · intro value cond targetBlock seen c left right hkind hnot h
    simp [isComparedValueNonNegativeInBlock, hkind, hnot] at h
  · -- the comparison with a non-negative operand
    intro value cond targetBlock seen c left right hkind hnot other branch hop ih h huse
    simp only [isComparedValueNonNegativeInBlock, hkind, if_neg hnot, hop, Bool.and_eq_true] at h
    have hif : g.ifInput (g.block cond) = some cond := by
      by_contra hne
      exact hnot (Or.inr hne)
    exact nonNegativeAt_of_compared hg hkind hif hop (ih h.1) h.2 huse
  · intro value cond targetBlock seen c left right hkind hnot hop h
    simp [isComparedValueNonNegativeInBlock, hkind, hnot, hop] at h
  · intro value cond targetBlock seen hnotCond h
    unfold isComparedValueNonNegativeInBlock at h
    split at h
    · next c left right hkind => exact absurd hkind (hnotCond c left right)
    · exact absurd h Bool.false_ne_true

/-- `HasNonNegativeInputAt` is sound: an input it accepts is non-negative at every visit of the
instruction's block. -/
theorem hasNonNegativeInputAt_sound (hg : g.WellFormed) {instr input : ι} {i : ℕ}
    (hinput : (g.kind instr).inputs[i]? = some input) (hphi : (g.kind instr).isPhi = false)
    (h : hasNonNegativeInputAt g instr i = true) (htype : g.type input ≠ none) (r : HRun g)
    {k : ℕ} (hk : k ≤ r.length) (hkb : r.blockAt k = g.block instr) : 0 ≤ r.env k input := by
  rw [hasNonNegativeInputAt, hinput] at h
  exact (unsignedUseAnalyzer_sound hg).1 instr input ∅ h
    (hg.input_dominates instr input (List.mem_of_getElem? hinput) hphi) htype r k hk hkb

/-- `HasNonNegativeOrMinIntInputAt` is sound: an input it accepts is non-negative or the smallest
value of its kind at every visit of the instruction's block. -/
theorem hasNonNegativeOrMinIntInputAt_sound (hg : g.WellFormed) {instr input : ι} {i : ℕ}
    (hinput : (g.kind instr).inputs[i]? = some input) (hphi : (g.kind instr).isPhi = false)
    (h : hasNonNegativeOrMinIntInputAt g instr i = true) {t : IntType}
    (htype : g.type input = some t) (r : HRun g) {k : ℕ} (hk : k ≤ r.length)
    (hkb : r.blockAt k = g.block instr) : 0 ≤ r.env k input ∨ r.env k input = t.minValue := by
  rw [hasNonNegativeOrMinIntInputAt, hinput, Bool.or_eq_true, Bool.or_eq_true] at h
  have hdom := hg.input_dominates instr input (List.mem_of_getElem? hinput) hphi
  obtain ⟨j, hjk, hj, henv, hcomp⟩ :=
    r.exists_last_computation hk (r.visited_of_dominates hdom hk hkb)
  unfold HGraph.Computes at hcomp
  rw [henv]
  rcases h with (habs | hmin) | hnonneg
  · -- an `HAbs` is non-negative, or `MinValue` when its input is
    split at habs
    · next a hkind =>
      rw [hkind] at hcomp
      rw [hcomp t htype]
      split
      · next heq => exact Or.inr heq
      · exact Or.inl (Int.natCast_nonneg _)
    · exact absurd habs Bool.false_ne_true
  · -- the constant `MinValueOfIntegralType`
    rw [htype, beq_iff_eq] at hmin
    cases hkind : g.kind input <;> simp only [hkind, HKind.int64Value?, reduceCtorEq,
      Option.some.injEq] at hmin hcomp
    · exact Or.inr (hcomp.trans hmin)
    · exact Or.inr (hcomp.trans hmin)
    · exact Or.inl (by omega)
  · rw [← henv]
    exact Or.inl (hasNonNegativeInputAt_sound hg hinput hphi hnonneg (by simp [htype]) r hk hkb)

end Soundness

end Art
