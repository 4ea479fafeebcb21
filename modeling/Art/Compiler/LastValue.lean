import Art.Compiler.InductionVarRange
import Mathlib.Data.BitVec
import Mathlib.Tactic.Ring

/-!
# Last values of geometric and polynomial inductions (`compiler/optimizing/induction_var_range.cc`)

A geometric induction is `k = k * f` or `k = k / f` in a loop, from `a`, plus an invariant `b`
(`SolveOp` with a base that is a direct fetch, and `TransferAddSub` for `b`). After a loop of
constant trip count `m`, `GenerateLastValueGeometric` emits `a * f ^ m + b` or `a / f ^ m + b`,
with `f ^ m` from `IntPow`; for a division, a power that overflows, or for an `int` induction does
not fit in an `int`, makes the whole last value the constant `0`.

* `IntPow` computes `f ^ m` in wrapping arithmetic (`intPowLoop_fst`), and exactly when it
  raises no overflow (`intPowLoop_exact`).
* After `m` iterations, a division induction is `a / f ^ m + b` with `f ^ m` taken exactly
  (`toInt_iterate_div`).
* The last value of an `int` division is `0` as soon as `f ^ m ≥ 2 ^ 31`, though
  `Integer.MIN_VALUE` divided by `2` thirty-one times is `-1`
  (`generateLastValueGeometric_div_int32`).
* Otherwise the last value is the value after the loop: for a division whose power fits
  (`eval_generateLastValueGeometric_div`), and for a multiplication when `b` is zero
  (`eval_generateLastValueGeometric_mul`).

A polynomial induction is `k += a * i + b` from `c`; `GenerateLastValuePolynomial` emits
`a * ((m * (m - 1)) / 2) + b * m + c`, all in `int64_t`. The loop's own value is that sum with the
half taken exactly (`polynomialValue_eq`), but for a `long` loop of trip count `m` with
`m * (m - 1) ≥ 2 ^ 63` the product wraps before it is halved, and the last value is off by
`a * 2 ^ 63` (`eval_generateLastValuePolynomial_int64`).
-/

namespace Art

namespace InductionVarRange

open HInductionVarAnalysis

variable {t : IntType}

/-! ### `SafeMul` and `IntPow` -/

/-- `SafeMul(a, b, overflow)`: the wrapping product; the flag is raised when both factors are
positive and `a > INT64_MAX / b`. -/
def safeMul (a b : BitVec 64) (overflow : Bool) : BitVec 64 × Bool :=
  (a * b, overflow || decide (0 < a.toInt ∧ 0 < b.toInt ∧ (2 ^ 63 - 1) / b.toInt < a.toInt))

/-- The loop of `IntPow(b, e)`, at most `fuel` rounds (an `int64_t` exponent has at most 63
bits): `while (e) { if (e & 1) pow = SafeMul(pow, b); e >>= 1; if (e) b = SafeMul(b, b); }`. -/
def intPowLoop : Nat → BitVec 64 → BitVec 64 → Bool → Nat → BitVec 64 × Bool
  | 0, _, pow, overflow, _ => (pow, overflow)
  | fuel + 1, b, pow, overflow, e =>
    if e = 0 then (pow, overflow)
    else
      let p := if e % 2 = 1 then safeMul pow b overflow else (pow, overflow)
      let q := if e / 2 ≠ 0 then safeMul b b p.2 else (b, p.2)
      intPowLoop fuel q.1 p.1 q.2 (e / 2)

/-- `IntPow(b, e)` for `0 < b` and `0 < e`: `b ^ e` and whether an overflow occurred. -/
def intPow (b e : Int) : Int × Bool :=
  let r := intPowLoop 64 (BitVec.ofInt 64 b) 1 false e.toNat
  (r.1.toInt, r.2)

/-! ### The geometric last value -/

/-- The operation of a geometric induction. -/
inductive GeometricOp where
  | mul | div
  deriving DecidableEq, Repr

/-- One iteration of the loop body, `k = k * f` or `k = k / f`, in the type's arithmetic. -/
def GeometricOp.step {w : Nat} : GeometricOp → BitVec w → BitVec w → BitVec w
  | .mul, k, f => k * f
  | .div, k, f => k.sdiv f

/-- The `HMul` or `HDiv` of the last value. -/
def GeometricOp.emit : GeometricOp → HCode t → HCode t → HCode t
  | .mul => .mul
  | .div => .div

/-- An `InductionInfo` of class `kGeometric`: `operation`, `op_a`, `op_b` and the base `fetch`. -/
structure GeometricInfo (t : IntType) where
  operation : GeometricOp
  opA : InductionInfo t
  opB : InductionInfo t
  fetch : HInstruction t

/-- `IsInt64AndGet`: the value of an `int` or `long` constant. -/
def isInt64AndGet : HInstruction t → Option Int
  | .constant _ v => some v.toInt
  | _ => none

/-- The induction after `m` iterations from `a`, plus `b`. -/
def geometricValue {w : Nat} (operation : GeometricOp) (a f b : BitVec w) (m : Nat) :
    BitVec w :=
  (operation.step · f)^[m] a + b

/-- The factor `f ^ m` of the last value: for a division, `0` after any overflow or, for a type
other than `long`, when it does not fit in an `int`; for a multiplication, cut to the type. -/
def geometricFactor (t : IntType) (operation : GeometricOp) (fpow : Int × Bool) : Int :=
  match operation with
  | .div => if fpow.2 || (decide (t ≠ .int64) && !canLongValueFitIntoInt fpow.1) then 0 else fpow.1
  | .mul => if t ≠ .int64 then toInt32 fpow.1 else fpow.1

section Generate

variable (range : InductionInfo t → Option (Int × Int))

/-- `IsConstant(context, loop, trip->op_a, kExact, &m)`: the trip count, when it is a constant. -/
def constantTripCount (trip : InductionInfo t) : Option Int :=
  match trip with
  | .invariant _ (some count) _ => isExact range count
  | _ => none

/-- `GenerateLastValueGeometric`: `a * f ^ m + b` or `a / f ^ m + b`, and `0` when the factor is
`0` ("repeated mul/div always yields zero"). -/
def generateLastValueGeometric (context : Context) (info : GeometricInfo t)
    (trip : InductionInfo t) : Option (HCode t) := do
  let f ← isInt64AndGet info.fetch
  let m ← constantTripCount range trip
  if f < 1 ∨ m < 1 then none
  else
    let opa ← generateCode range context false false info.opA
    let opb ← generateCode range context false false info.opB
    let fpow := geometricFactor t info.operation (intPow f m)
    if fpow = 0 then pure (.constant 0)
    else pure (.add (info.operation.emit opa (.constant fpow)) opb)

end Generate

/-! ### `IntPow` -/

@[simp] theorem safeMul_fst (a b : BitVec 64) (overflow : Bool) :
    (safeMul a b overflow).1 = a * b := rfl

theorem fst_ite_safeMul (c : Prop) [Decidable c] (a b : BitVec 64) (overflow : Bool) :
    (if c then safeMul a b overflow else (a, overflow)).1 = if c then a * b else a := by
  split <;> rfl

theorem snd_ite_safeMul (c : Prop) [Decidable c] (a b : BitVec 64) (overflow : Bool) :
    (if c then safeMul a b overflow else (a, overflow)).2 =
      (overflow || (decide c && decide (0 < a.toInt ∧ 0 < b.toInt ∧
        (2 ^ 63 - 1) / b.toInt < a.toInt))) := by
  by_cases h : c <;> simp [h, safeMul]

/-- `IntPow` computes the power in wrapping arithmetic. By induction on the rounds: a round
multiplies `pow` by `b` for the low bit of `e` and squares `b` for the bits above. -/
theorem intPowLoop_fst : ∀ (fuel : Nat) (b pow : BitVec 64) (overflow : Bool) (e : Nat),
    e < 2 ^ fuel → (intPowLoop fuel b pow overflow e).1 = pow * b ^ e
  | 0, b, pow, overflow, e, he => by
    have he0 : e = 0 := by omega
    simp [intPowLoop, he0]
  | fuel + 1, b, pow, overflow, e, he => by
    rw [intPowLoop]
    by_cases he0 : e = 0
    · simp [he0]
    rw [if_neg he0]
    dsimp only
    rw [intPowLoop_fst fuel _ _ _ (e / 2) (by rw [Nat.pow_succ] at he; omega), fst_ite_safeMul,
      fst_ite_safeMul]
    have hsq : ∀ k, (b * b) ^ k = b ^ (2 * k) := by
      intro k
      induction k with
      | zero => rfl
      | succ k ih =>
        rw [BitVec.pow_succ, ih, show 2 * (k + 1) = 2 * k + 1 + 1 by omega, BitVec.pow_succ,
          BitVec.pow_succ, BitVec.mul_assoc]
    have hsplit : b ^ e = b ^ (e % 2) * (b * b) ^ (e / 2) := by
      rw [hsq, ← BitVec.pow_add, Nat.mod_add_div]
    rw [hsplit]
    -- the low bit of `e` multiplies `pow`; `b` is squared while bits are left
    rcases Nat.mod_two_eq_zero_or_one e with hodd | hodd
    · simp [hodd, show e / 2 ≠ 0 by omega]
    · by_cases hhalf : e / 2 = 0 <;> simp [hodd, hhalf, BitVec.mul_assoc]

/-- Once raised, the overflow flag stays. -/
theorem intPowLoop_snd_of_true : ∀ (fuel : Nat) (b pow : BitVec 64) (e : Nat),
    (intPowLoop fuel b pow true e).2 = true
  | 0, _, _, _ => rfl
  | fuel + 1, b, pow, e => by
    rw [intPowLoop]
    split
    · rfl
    · dsimp only
      rw [snd_ite_safeMul, snd_ite_safeMul, Bool.true_or, Bool.true_or]
      exact intPowLoop_snd_of_true fuel _ _ _

/-- A product of positive factors that raises no flag is exact. -/
theorem safeMul_exact {a b : BitVec 64} {overflow : Bool} (ha : 0 < a.toInt) (hb : 0 < b.toInt)
    (h : (safeMul a b overflow).2 = false) :
    overflow = false ∧ (a * b).toInt = a.toInt * b.toInt ∧ 0 < a.toInt * b.toInt := by
  simp only [safeMul, Bool.or_eq_false_iff, decide_eq_false_iff_not, not_and] at h
  obtain ⟨hov, hle⟩ := h
  have hab : a.toInt * b.toInt ≤ 2 ^ 63 - 1 :=
    (Int.le_ediv_iff_mul_le hb).1 (Int.not_lt.1 (hle ha hb))
  have hpos : 0 < a.toInt * b.toInt := Int.mul_pos ha hb
  refine ⟨hov, ?_, hpos⟩
  rw [BitVec.toInt_mul, Int.bmod_eq_of_le (by omega) (by omega)]

/-- When `IntPow` raises no flag, the power is exact. By induction on the rounds, with `pow`
and `b` positive. -/
theorem intPowLoop_exact : ∀ (fuel : Nat) (b pow : BitVec 64) (overflow : Bool) (e : Nat),
    0 < b.toInt → 0 < pow.toInt → e < 2 ^ fuel → (intPowLoop fuel b pow overflow e).2 = false →
    (intPowLoop fuel b pow overflow e).1.toInt = pow.toInt * b.toInt ^ e
  | 0, b, pow, overflow, e, _, _, he, _ => by
    have he0 : e = 0 := by omega
    simp [intPowLoop, he0]
  | fuel + 1, b, pow, overflow, e, hb, hpow, he, hflag => by
    rw [intPowLoop] at hflag ⊢
    by_cases he0 : e = 0
    · simp [he0]
    rw [if_neg he0] at hflag ⊢
    dsimp only at hflag ⊢
    have he2 : e / 2 < 2 ^ fuel := by rw [Nat.pow_succ] at he; omega
    -- every product of the round raised no flag, else the flag would have stayed
    have hq : (if e / 2 ≠ 0 then safeMul b b
        (if e % 2 = 1 then safeMul pow b overflow else (pow, overflow)).2
        else (b, (if e % 2 = 1 then safeMul pow b overflow else (pow, overflow)).2)).2 = false := by
      cases h : (if e / 2 ≠ 0 then safeMul b b
          (if e % 2 = 1 then safeMul pow b overflow else (pow, overflow)).2
          else (b, (if e % 2 = 1 then safeMul pow b overflow else (pow, overflow)).2)).2 with
      | false => rfl
      | true =>
        rw [h, intPowLoop_snd_of_true] at hflag
        exact absurd hflag (by decide)
    -- the new `pow` and `b`, exact and positive
    have hp : (if e % 2 = 1 then safeMul pow b overflow else (pow, overflow)).2 = false ∧
        (if e % 2 = 1 then safeMul pow b overflow else (pow, overflow)).1.toInt =
          pow.toInt * b.toInt ^ (e % 2) ∧
        0 < (if e % 2 = 1 then safeMul pow b overflow else (pow, overflow)).1.toInt := by
      have hp2 : (if e % 2 = 1 then safeMul pow b overflow else (pow, overflow)).2 = false := by
        by_cases hhalf : e / 2 ≠ 0
        · rw [if_pos hhalf] at hq
          exact (Bool.or_eq_false_iff.1 hq).1
        · rwa [if_neg hhalf] at hq
      refine ⟨hp2, ?_⟩
      rcases Nat.mod_two_eq_zero_or_one e with hodd | hodd
      · rw [if_neg (by omega)]
        exact ⟨by rw [hodd, pow_zero, mul_one], hpow⟩
      · rw [if_pos hodd] at hp2 ⊢
        obtain ⟨-, hexact, hpos⟩ := safeMul_exact hpow hb hp2
        rw [safeMul_fst, hexact, hodd, pow_one]
        exact ⟨rfl, hpos⟩
    have hb' : (if e / 2 ≠ 0 then safeMul b b
        (if e % 2 = 1 then safeMul pow b overflow else (pow, overflow)).2
        else (b, (if e % 2 = 1 then safeMul pow b overflow else (pow, overflow)).2)).1.toInt =
          b.toInt ^ (if e / 2 ≠ 0 then 2 else 1) ∧
        0 < (if e / 2 ≠ 0 then safeMul b b
          (if e % 2 = 1 then safeMul pow b overflow else (pow, overflow)).2
          else (b, (if e % 2 = 1 then safeMul pow b overflow else (pow, overflow)).2)).1.toInt := by
      by_cases hhalf : e / 2 ≠ 0
      · rw [if_pos hhalf] at hq ⊢
        rw [if_pos hhalf]
        obtain ⟨-, hexact, hpos⟩ := safeMul_exact hb hb hq
        rw [safeMul_fst, hexact, sq]
        exact ⟨rfl, hpos⟩
      · rw [if_neg hhalf, if_neg hhalf]
        exact ⟨by rw [pow_one], hb⟩
    rw [intPowLoop_exact fuel _ _ _ (e / 2) hb'.2 hp.2.2 he2 hflag, hp.2.1, hb'.1]
    -- `pow * b ^ (e % 2) * (b ^ 2) ^ (e / 2) = pow * b ^ e`
    by_cases hhalf : e / 2 ≠ 0
    · rw [if_pos hhalf, ← pow_mul, mul_assoc, ← pow_add, Nat.mod_add_div]
    · have he1 : e = 1 := by omega
      rw [if_neg hhalf, not_not.1 hhalf, he1]
      simp

/-- `IntPow(b, e)` without overflow is `b ^ e`. -/
theorem intPow_exact {b e : Int} (hb : 0 < b) (hb' : b < 2 ^ 63) (he : e < 2 ^ 63)
    (h : (intPow b e).2 = false) : (intPow b e).1 = b ^ e.toNat := by
  have hb64 : (BitVec.ofInt 64 b).toInt = b := by
    rw [BitVec.toInt_ofInt, Int.bmod_eq_of_le (by omega) (by omega)]
  have hone : (1 : BitVec 64).toInt = 1 := by decide
  have hexact := intPowLoop_exact 64 (BitVec.ofInt 64 b) 1 false e.toNat (by omega) (by omega)
    (by omega) h
  rw [hb64, hone, Int.one_mul] at hexact
  exact hexact

/-! ### Wrapping arithmetic -/

theorem ofInt_pow {n : Nat} (x : Int) (m : Nat) :
    BitVec.ofInt n (x ^ m) = BitVec.ofInt n x ^ m := by
  induction m with
  | zero => rw [pow_zero, BitVec.pow_zero]; rfl
  | succ m ih => rw [pow_succ, BitVec.ofInt_mul, ih, BitVec.pow_succ]

/-- Reading a value modulo `2 ^ n` and then cutting it to `k ≤ n` bits cuts it to `k` bits. -/
theorem ofInt_bmod_of_le {k n : Nat} (hk : k ≤ n) (x : Int) :
    BitVec.ofInt k (x.bmod (2 ^ n)) = BitVec.ofInt k x := by
  apply BitVec.eq_of_toNat_eq
  have hdvd : ((2 ^ k : Nat) : Int) ∣ ((2 ^ n : Nat) : Int) :=
    Int.natCast_dvd_natCast.2 (Nat.pow_dvd_pow 2 hk)
  rw [BitVec.toNat_ofInt, BitVec.toNat_ofInt, ← Int.emod_emod_of_dvd _ hdvd, Int.bmod_emod,
    Int.emod_emod_of_dvd _ hdvd]

/-! ### The value after the loop -/

/-- Truncating divisions by positive numbers one after the other divide by their product. -/
theorem tdiv_tdiv_of_pos (a : Int) {f : Int} (g : Int) (hf : 0 < f) :
    (a.tdiv f).tdiv g = a.tdiv (f * g) := by
  have hnonneg : ∀ x : Int, 0 ≤ x → (x.tdiv f).tdiv g = x.tdiv (f * g) := by
    intro x hx
    rw [Int.tdiv_eq_ediv_of_nonneg hx,
      Int.tdiv_eq_ediv_of_nonneg (Int.ediv_nonneg hx (Int.le_of_lt hf)),
      Int.tdiv_eq_ediv_of_nonneg hx, Int.ediv_ediv_of_nonneg (Int.le_of_lt hf)]
  rcases Int.lt_or_le a 0 with ha | ha
  · -- a negative dividend: truncation is symmetric
    have h := congrArg Neg.neg (hnonneg (-a) (by omega))
    simpa [Int.neg_tdiv] using h
  · exact hnonneg a ha

theorem ne_neg_one_of_toInt_pos {w : Nat} {f : BitVec w} (hf : 0 < f.toInt) : f ≠ -1#w := by
  intro h
  rw [h, BitVec.neg_one_eq_allOnes, BitVec.toInt_allOnes] at hf
  split at hf <;> omega

/-- After `m` divisions by a positive `f`, the induction is `a / f ^ m`, the power taken exactly.
By induction on `m`. -/
theorem toInt_iterate_div {w : Nat} {f : BitVec w} (hf : 0 < f.toInt) (a : BitVec w) (m : Nat) :
    ((GeometricOp.div.step · f)^[m] a).toInt = a.toInt.tdiv (f.toInt ^ m) := by
  induction m with
  | zero => rw [Function.iterate_zero_apply, pow_zero, Int.tdiv_one]
  | succ m ih =>
    rw [Function.iterate_succ_apply', GeometricOp.step,
      BitVec.toInt_sdiv_of_ne_or_ne _ _ (.inr (ne_neg_one_of_toInt_pos hf)), ih,
      tdiv_tdiv_of_pos _ _ (Int.pow_pos hf), pow_succ]

theorem geometricValue_div {w : Nat} {f : BitVec w} (hf : 0 < f.toInt) (a b : BitVec w)
    (m : Nat) : geometricValue .div a f b m = BitVec.ofInt w (a.toInt.tdiv (f.toInt ^ m)) + b := by
  rw [geometricValue, ← toInt_iterate_div hf, BitVec.ofInt_toInt]

theorem geometricValue_mul {w : Nat} (a f b : BitVec w) (m : Nat) :
    geometricValue .mul a f b m = a * f ^ m + b := by
  rw [geometricValue]
  congr 1
  induction m with
  | zero => rw [Function.iterate_zero_apply, BitVec.pow_zero, BitVec.mul_one]
  | succ m ih =>
    rw [Function.iterate_succ_apply', GeometricOp.step, ih, BitVec.pow_succ, BitVec.mul_assoc]

/-! ### What `GenerateLastValueGeometric` emits -/

section Emit

variable {range : InductionInfo t → Option (Int × Int)} {context : Context}
  {info : GeometricInfo t} {trip : InductionInfo t} {f m : Int} {opa opb : HCode t}

/-- Once the base and the trip count are constants and both operands generate, the last value is
`0` or the operation by the factor, plus `b`. -/
theorem generateLastValueGeometric_eq (hf : isInt64AndGet info.fetch = some f)
    (hm : constantTripCount range trip = some m) (hf1 : 1 ≤ f) (hm1 : 1 ≤ m)
    (hopa : generateCode range context false false info.opA = some opa)
    (hopb : generateCode range context false false info.opB = some opb) :
    generateLastValueGeometric range context info trip =
      some (if geometricFactor t info.operation (intPow f m) = 0 then .constant 0
        else .add (info.operation.emit opa (.constant (geometricFactor t info.operation
          (intPow f m)))) opb) := by
  have hguard : ¬ (f < 1 ∨ m < 1) := by omega
  simp only [generateLastValueGeometric, hf, hm, hopa, hopb, hguard, Option.bind_eq_bind,
    Option.bind_some, if_false]
  split <;> rfl

/-- `IntPow` of an `int` or `long` base and an `int64_t` trip count wraps like the type: the
factor of a multiplication is `f ^ m` in the type's arithmetic. -/
theorem ofInt_geometricFactor_mul {f : BitVec t.bits} (hm : m < 2 ^ 63) (hm0 : 0 ≤ m) :
    BitVec.ofInt t.bits (geometricFactor t .mul (intPow f.toInt m)) = f ^ m.toNat := by
  have hpow : (intPowLoop 64 (BitVec.ofInt 64 f.toInt) 1 false m.toNat).1 =
      BitVec.ofInt 64 f.toInt ^ m.toNat := by
    rw [intPowLoop_fst 64 _ _ false m.toNat (by omega)]
    exact BitVec.one_mul _
  -- the power of `f` read in 64 bits, then cut to the type
  have hcut : BitVec.ofInt t.bits (intPow f.toInt m).1 = f ^ m.toNat := by
    rw [intPow]
    dsimp only
    rw [hpow, ← ofInt_pow, BitVec.toInt_ofInt, ofInt_bmod_of_le (by cases t <;> decide),
      ofInt_pow, BitVec.ofInt_toInt]
  cases t with
  | int32 => rw [geometricFactor, if_pos (by decide), toInt32, BitVec.ofInt_toInt, hcut]
  | int64 => rw [geometricFactor, if_neg (by decide), hcut]

end Emit

/-! ### The last value against the loop -/

/-- For an `int` division whose base to the trip count reaches `2 ^ 31`, `GenerateLastValueGeometric`
emits the constant `0`, while after the loop the induction is `a / f ^ m + b` with the power taken
exactly: `Integer.MIN_VALUE` divided by `2` thirty-one times is `-1`, and any `b` is dropped. -/
theorem generateLastValueGeometric_div_int32 (range : InductionInfo .int32 → Option (Int × Int))
    (context : Context) (info : GeometricInfo .int32) (trip : InductionInfo .int32)
    (hdiv : info.operation = .div) {f : BitVec 32} (hf : info.fetch = .constant .int32 f)
    (hf1 : 1 ≤ f.toInt) {m : Int} (hm : constantTripCount range trip = some m) (hm1 : 1 ≤ m)
    (hm63 : m < 2 ^ 63) (hpow : 2 ^ 31 ≤ f.toInt ^ m.toNat) {opa opb : HCode .int32}
    (hopa : generateCode range context false false info.opA = some opa)
    (hopb : generateCode range context false false info.opB = some opb) :
    generateLastValueGeometric range context info trip = some (.constant 0) ∧
      ∀ a b : BitVec 32, geometricValue .div a f b m.toNat =
        BitVec.ofInt 32 (a.toInt.tdiv (f.toInt ^ m.toNat)) + b := by
  have hf31 : f.toInt < 2 ^ 31 := BitVec.toInt_lt
  -- no overflow leaves the exact power, which does not fit in an `int`
  have hfactor : geometricFactor .int32 .div (intPow f.toInt m) = 0 := by
    cases hov : (intPow f.toInt m).2 with
    | true => simp [geometricFactor, hov]
    | false =>
      rw [geometricFactor, hov, intPow_exact (by omega) (by omega) hm63 hov]
      simp only [canLongValueFitIntoInt, Bool.false_or, ne_eq,
        reduceCtorEq, not_false_eq_true, decide_true, Bool.true_and, Bool.not_eq_true',
        decide_eq_false_iff_not, not_and]
      rw [if_pos (fun _ => by omega)]
  refine ⟨?_, fun a b => geometricValue_div (by omega) a b m.toNat⟩
  rw [generateLastValueGeometric_eq (by rw [hf]; rfl) hm hf1 hm1 hopa hopb, hdiv, hfactor,
    if_pos rfl]

/-- `for (int i = 0; i < 31; i++) x /= 2;` with `x = Integer.MIN_VALUE` leaves `x = -1`, and the
last value emitted for `x` is `0`. -/
theorem generateLastValueGeometric_div_int32_min :
    generateLastValueGeometric (fun _ => none) .header
        ⟨.div, .fetch (.parameterValue .int32 0), .fetch (.constant .int32 0), .constant .int32 2⟩
        (.invariant .tripCountInLoop (some (.fetch (.constant .int32 31)))
          (.fetch (.constant .int32 1))) = some (.constant 0) ∧
      geometricValue .div (BitVec.intMin 32) 2 0 31 = -1 := by
  obtain ⟨hcode, hvalue⟩ := generateLastValueGeometric_div_int32 (fun _ => none) .header
    ⟨.div, .fetch (.parameterValue .int32 0), .fetch (.constant .int32 0), .constant .int32 2⟩
    (.invariant .tripCountInLoop (some (.fetch (.constant .int32 31))) (.fetch (.constant .int32 1)))
    rfl rfl (by decide) (m := 31) rfl (by decide) (by decide) (by decide) rfl rfl
  exact ⟨hcode, (hvalue _ _).trans (by decide)⟩

section Exact

variable {range : InductionInfo t → Option (Int × Int)} {context : Context}
  {info : GeometricInfo t} {trip : InductionInfo t} {f : BitVec t.bits} {m : Int}
  {opa opb : HCode t}

/-- Whenever `GenerateLastValueGeometric` emits a division, the code computes the value of the
induction after the loop, for every value of its operands. -/
theorem eval_generateLastValueGeometric_div (hdiv : info.operation = .div)
    (hf : info.fetch = .constant t f) (hf1 : 1 ≤ f.toInt)
    (hm : constantTripCount range trip = some m) (hm1 : 1 ≤ m) (hm63 : m < 2 ^ 63)
    (hopa : generateCode range context false false info.opA = some opa)
    (hopb : generateCode range context false false info.opB = some opb)
    (hnz : geometricFactor t .div (intPow f.toInt m) ≠ 0) (env : HEnv) :
    ∃ code, generateLastValueGeometric range context info trip = some code ∧
      code.eval env = geometricValue .div (opa.eval env) f (opb.eval env) m.toNat := by
  -- a factor that is not `0` raised no overflow: it is the exact power, and it fits the type
  have hov : (intPow f.toInt m).2 = false := by
    cases h : (intPow f.toInt m).2 with
    | false => rfl
    | true => simp [geometricFactor, h] at hnz
  have hfactor : geometricFactor t .div (intPow f.toInt m) = (intPow f.toInt m).1 := by
    simp only [geometricFactor, hov, Bool.false_or] at hnz ⊢
    exact if_neg (fun h => hnz (if_pos h))
  have hf63 : f.toInt < 2 ^ 63 := by
    have := @BitVec.toInt_lt t.bits f
    cases t <;> simp at this <;> omega
  have hexact := intPow_exact (by omega) hf63 hm63 hov
  have hfits : (BitVec.ofInt t.bits (intPow f.toInt m).1).toInt = f.toInt ^ m.toNat := by
    cases t with
    | int32 =>
      have hfit : canLongValueFitIntoInt (intPow f.toInt m).1 = true := by
        by_contra h
        simp [geometricFactor, hov, h] at hnz
      simp only [canLongValueFitIntoInt, decide_eq_true_eq, hexact] at hfit
      rw [BitVec.toInt_ofInt, hexact]
      exact Int.bmod_eq_of_le (by simp only [IntType.bits]; omega)
        (by simp only [IntType.bits]; omega)
    | int64 => rw [intPow, BitVec.ofInt_toInt, ← hexact]; rfl
  refine ⟨_, generateLastValueGeometric_eq (by rw [hf]; rfl) hm hf1 hm1 hopa hopb, ?_⟩
  rw [hdiv, if_neg hnz, hfactor, geometricValue_div (by omega), ← hfits,
    ← BitVec.toInt_sdiv_of_ne_or_ne _ _ (.inr (ne_neg_one_of_toInt_pos (by
      rw [hfits]; exact Int.pow_pos (by omega)))), BitVec.ofInt_toInt]
  rfl

/-- A multiplication induction from `a` with `b` zero: the emitted last value is `a * f ^ m`,
the value after the loop, also when the power vanishes in the type. -/
theorem eval_generateLastValueGeometric_mul (hmul : info.operation = .mul)
    (hf : info.fetch = .constant t f) (hf1 : 1 ≤ f.toInt)
    (hm : constantTripCount range trip = some m) (hm1 : 1 ≤ m) (hm63 : m < 2 ^ 63)
    (hopa : generateCode range context false false info.opA = some opa)
    (hopb : generateCode range context false false info.opB = some opb) (env : HEnv)
    (hb : opb.eval env = 0) :
    ∃ code, generateLastValueGeometric range context info trip = some code ∧
      code.eval env = geometricValue .mul (opa.eval env) f (opb.eval env) m.toNat := by
  have hcut := ofInt_geometricFactor_mul (f := f) hm63 (by omega)
  refine ⟨_, generateLastValueGeometric_eq (by rw [hf]; rfl) hm hf1 hm1 hopa hopb, ?_⟩
  rw [hmul, geometricValue_mul, hb, ← hcut]
  split
  · -- the factor vanishes, and so does `a * f ^ m`
    next h0 =>
      rw [h0, HCode.eval]
      simp
  · simp only [GeometricOp.emit, HCode.eval, hb]

end Exact

/-! ### The polynomial last value -/

/-- An `InductionInfo` of class `kPolynomial`, `k += a * i + b` from `c`: the linear term `op_a`
and the initial value `op_b`. -/
structure PolynomialInfo (t : IntType) where
  opA : Linear t
  opB : InductionInfo t

/-- `a * ((m * (m - 1)) / 2) + b * m`, computed in `int64_t`. -/
def polynomialSum (a b m : Int) : Int :=
  (BitVec.ofInt 64 a * (BitVec.ofInt 64 m * (BitVec.ofInt 64 m - 1)).sdiv 2 +
    BitVec.ofInt 64 b * BitVec.ofInt 64 m).toInt

/-- `GenerateLastValuePolynomial`: `sum + c`, the sum cut to `int` for other types than `long`. -/
def generateLastValuePolynomial (range : InductionInfo t → Option (Int × Int)) (context : Context)
    (info : PolynomialInfo t) (trip : InductionInfo t) : Option (HCode t) := do
  let a ← isExact range info.opA.opA
  let b ← isExact range info.opA.opB
  let m ← constantTripCount range trip
  if m < 1 then none
  else
    let c ← generateCode range context false false info.opB
    let sum := polynomialSum a b m
    let sum := if t ≠ .int64 then toInt32 sum else sum
    pure (.add (.constant sum) c)

/-- `k += a * i + b` after `n` iterations from `c`, in the type's arithmetic. -/
def polynomialValue {w : Nat} (a b c : BitVec w) : Nat → BitVec w
  | 0 => c
  | n + 1 => polynomialValue a b c n + (a * BitVec.ofNat w n + b)

/-- The sum of the loop in closed form, `c + a * (n * (n - 1) / 2) + b * n`. -/
theorem polynomialValue_eq {w : Nat} (a b c : BitVec w) (n : Nat) :
    polynomialValue a b c n =
      c + a * BitVec.ofInt w ((n : Int) * ((n : Int) - 1) / 2) + b * BitVec.ofInt w n := by
  induction n with
  | zero => simp [polynomialValue]
  | succ n ih =>
    have hhalf : ((n + 1 : Nat) : Int) * (((n + 1 : Nat) : Int) - 1) / 2 =
        (n : Int) * ((n : Int) - 1) / 2 + n := by
      rw [show ((n + 1 : Nat) : Int) * (((n + 1 : Nat) : Int) - 1) =
        (n : Int) * ((n : Int) - 1) + n * 2 by push_cast; ring, Int.add_mul_ediv_right _ _ (by decide)]
    rw [polynomialValue, ih, hhalf, BitVec.ofInt_add, Nat.cast_succ, BitVec.ofInt_add,
      BitVec.ofInt_natCast, BitVec.ofInt_ofNat, show 1#w = (1 : BitVec w) from rfl]
    ring

/-- `m * (m - 1)` is even. -/
theorem two_mul_half (m : Int) : m * (m - 1) = 2 * (m * (m - 1) / 2) := by
  have h : m * (m - 1) % 2 = 0 := by
    rw [Int.mul_emod]
    rcases Int.emod_two_eq_zero_or_one m with h | h
    · rw [h, Int.zero_mul, Int.zero_emod]
    · rw [h, show (m - 1) % 2 = 0 by omega, Int.mul_zero, Int.zero_emod]
  generalize m * (m - 1) = x at h ⊢
  omega

/-- When `m * (m - 1)` wraps once in `int64_t`, its half is off by `2 ^ 63`. -/
theorem sdiv_two_of_wrap {m : Int} (h1 : 2 ^ 63 ≤ m * (m - 1)) (h2 : m * (m - 1) < 2 ^ 64 + 2 ^ 63) :
    (BitVec.ofInt 64 m * (BitVec.ofInt 64 m - 1)).sdiv 2 =
      BitVec.ofInt 64 (m * (m - 1) / 2) + BitVec.intMin 64 := by
  have heven := two_mul_half m
  -- the product reads back as `m * (m - 1) - 2 ^ 64`
  have hprod : BitVec.ofInt 64 m * (BitVec.ofInt 64 m - 1) =
      BitVec.ofInt 64 (2 * (m * (m - 1) / 2 - 2 ^ 63)) := by
    rw [show 2 * (m * (m - 1) / 2 - 2 ^ 63) = m * (m - 1) - 2 ^ 64 by omega, ofInt_sub,
      BitVec.ofInt_mul, ofInt_sub, show BitVec.ofInt 64 (2 ^ 64) = 0#64 by decide,
      show BitVec.ofInt 64 1 = 1 by decide, BitVec.sub_zero]
  have htoInt : (BitVec.ofInt 64 (2 * (m * (m - 1) / 2 - 2 ^ 63))).toInt =
      2 * (m * (m - 1) / 2 - 2 ^ 63) :=
    BitVec.toInt_ofInt_eq_self (by decide) (by omega) (by omega)
  have hhalf : ((BitVec.ofInt 64 m * (BitVec.ofInt 64 m - 1)).sdiv 2).toInt =
      m * (m - 1) / 2 + -2 ^ 63 := by
    rw [hprod, BitVec.toInt_sdiv_of_ne_or_ne _ _ (.inr (by decide)), htoInt,
      show (2 : BitVec 64).toInt = 2 by decide, Int.mul_tdiv_cancel_left _ (by decide)]
    omega
  rw [← BitVec.ofInt_toInt (x := (BitVec.ofInt 64 m * (BitVec.ofInt 64 m - 1)).sdiv 2), hhalf,
    BitVec.ofInt_add]
  rfl

/-- For a `long` polynomial induction whose trip count has `2 ^ 63 ≤ m * (m - 1) < 2 ^ 64 + 2 ^ 63`,
`m * (m - 1)` wraps in `int64_t` before it is halved, and the last value is off by `a * 2 ^ 63`:
by `2 ^ 63` for an odd `a`. -/
theorem eval_generateLastValuePolynomial_int64 (range : InductionInfo .int64 → Option (Int × Int))
    (context : Context) (info : PolynomialInfo .int64) (trip : InductionInfo .int64) {a b m : Int}
    (ha : isExact range info.opA.opA = some a) (hb : isExact range info.opA.opB = some b)
    (hm : constantTripCount range trip = some m) (hm1 : 1 ≤ m) (hwrap1 : 2 ^ 63 ≤ m * (m - 1))
    (hwrap2 : m * (m - 1) < 2 ^ 64 + 2 ^ 63) {c : HCode .int64}
    (hc : generateCode range context false false info.opB = some c) :
    ∃ code, generateLastValuePolynomial range context info trip = some code ∧
      ∀ env, code.eval env = polynomialValue (BitVec.ofInt 64 a) (BitVec.ofInt 64 b) (c.eval env)
        m.toNat + BitVec.ofInt 64 a * BitVec.intMin 64 := by
  have hguard : ¬ m < 1 := by omega
  refine ⟨.add (.constant (polynomialSum a b m)) c, ?_, fun env => ?_⟩
  · simp [generateLastValuePolynomial, ha, hb, hm, hguard, hc]
  · rw [HCode.eval, HCode.eval, polynomialSum, BitVec.ofInt_toInt, sdiv_two_of_wrap hwrap1 hwrap2,
      polynomialValue_eq, Int.toNat_of_nonneg (by omega)]
    ring

/-- `for (long i = 0; i < 3037000501L; i++) k += i;` from `k = 0`: the last value emitted for `k`
is `2 ^ 63` off the sum. -/
theorem eval_generateLastValuePolynomial_int64_sum :
    ∃ code, generateLastValuePolynomial (fun _ => none) .header
        ⟨⟨.fetch (.constant .int64 1), .fetch (.constant .int64 0)⟩, .fetch (.constant .int64 0)⟩
        (.invariant .tripCountInLoop (some (.fetch (.constant .int64 3037000501)))
          (.fetch (.constant .int64 1))) = some code ∧
      ∀ env, code.eval env ≠ polynomialValue 1 0 0 3037000501 := by
  obtain ⟨code, hcode, heval⟩ := eval_generateLastValuePolynomial_int64 (fun _ => none) .header
    ⟨⟨.fetch (.constant .int64 1), .fetch (.constant .int64 0)⟩, .fetch (.constant .int64 0)⟩
    (.invariant .tripCountInLoop (some (.fetch (.constant .int64 3037000501)))
      (.fetch (.constant .int64 1))) (a := 1) (b := 0) (m := 3037000501) rfl rfl rfl (by decide)
    (by decide) (by decide) rfl
  refine ⟨code, hcode, fun env h => ?_⟩
  rw [heval] at h
  exact absurd (BitVec.add_right_eq_self.1 h) (by decide)

end InductionVarRange

end Art
