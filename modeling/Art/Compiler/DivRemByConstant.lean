import Art.Compiler.CodeGeneratorArm64
import Art.Compiler.CodeGeneratorX8664

/-!
# Division and remainder by a constant, on both back ends

`CalculateMagicAndShiftForDivRem` (`code_generator_utils.cc`) and the sequences the arm64 and
x86-64 code generators emit for an `HDiv` or `HRem` whose divisor is a non-zero constant. The
arm64 code reads `HasNonNegativeInputAt` and `HasNonNegativeOrMinIntInputAt` of the dividend;
here both are discharged from a run of the graph (`HRun`) at a visit of the division's block
(`dividend_facts`), so the arm64 result holds of every dividend the instruction can see. The x86-64
code reads no analysis.

`divRemByConstant_exact` puts the three together: the magic number and shift, and on each back
end Java's truncating quotient and remainder (`BitVec.sdiv`, `BitVec.srem`, which wrap
`MIN_VALUE / -1` to `MIN_VALUE`) in the output register.
-/

namespace Art

open MagicDivision

section Graph

variable {ι β : Type} [Fintype ι] [DecidableEq ι] [DecidableEq β] {g : HGraph ι β}

/-- The smallest value of a type is `intMin` of its width. -/
theorem ofInt_minValue (t : IntType) : BitVec.ofInt t.bits t.minValue = BitVec.intMin t.bits :=
  BitVec.intMin_eq_neg_two_pow.symm

/-- At a visit of a division's block, its dividend has the properties the analyses promise the
arm64 code generator. -/
theorem dividend_facts (hg : g.WellFormed) {instr a : ι}
    (hinput : (g.kind instr).inputs[0]? = some a) (hphi : (g.kind instr).isPhi = false)
    {t : IntType} (htype : g.type a = some t) (r : HRun g) {k : ℕ} (hk : k ≤ r.length)
    (hkb : r.blockAt k = g.block instr) :
    (hasNonNegativeInputAt g instr 0 = true → 0 ≤ (BitVec.ofInt t.bits (r.env k a)).toInt) ∧
      (hasNonNegativeOrMinIntInputAt g instr 0 = true →
        0 ≤ (BitVec.ofInt t.bits (r.env k a)).toInt ∨
          BitVec.ofInt t.bits (r.env k a) = BitVec.intMin t.bits) := by
  have hrange := r.inRange k a t htype
  rw [hrange.toInt_ofInt]
  refine ⟨fun h => ?_, fun h => ?_⟩
  · exact hasNonNegativeInputAt_sound hg hinput hphi h (by rw [htype]; exact Option.some_ne_none t)
      r hk hkb
  · rcases hasNonNegativeOrMinIntInputAt_sound hg hinput hphi h htype r hk hkb with hnn | hmin
    · exact Or.inl hnn
    · exact Or.inr (by rw [hmin, ofInt_minValue])

end Graph

/-- Division and remainder by a non-zero constant compile exactly. The magic number and shift
satisfy the law of `signedQuotient` for every dividend in range; on arm64, at every visit of an
`HDiv`/`HRem` with dividend `a` whose register holds `a`'s value, the sequence leaves Java's
quotient or remainder in `out`; on x86-64 the sequence leaves them in `rax` or `rdx`. -/
theorem divRemByConstant_exact {ι β : Type} [Fintype ι] [DecidableEq ι] [DecidableEq β] :
    (∀ (isLong : Bool) (d : Int), -2 ^ (divWidth isLong - 1) ≤ d → d < 2 ^ (divWidth isLong - 1) →
      2 ≤ d.natAbs → (∀ j, d.natAbs ≠ 2 ^ j) →
      ∃ magic shift,
        (∀ fuel, divWidth isLong ≤ fuel →
          calculateMagicAndShiftForDivRem (.ofInt 64 d) isLong fuel = some (magic, shift)) ∧
        0 ≤ shift ∧ shift < divWidth isLong ∧
        ∀ n : Int, -2 ^ (divWidth isLong - 1) ≤ n → n < 2 ^ (divWidth isLong - 1) →
          signedQuotient (correctedMagic (divWidth isLong) magic d) (divWidth isLong + shift).toNat
            n = n.tdiv d) ∧
    (∀ (g : HGraph ι β), g.WellFormed → ∀ (instr a : ι) (t : IntType),
      (g.kind instr).inputs[0]? = some a → (g.kind instr).isPhi = false → g.type a = some t →
      ∀ d : Int, t.InRange d → d ≠ 0 →
      ∀ (r : HRun g) (k : ℕ), k ≤ r.length → r.blockAt k = g.block instr →
      ∀ out dividend : Fin 32, dividend ≠ Arm64.ip0 → dividend ≠ Arm64.ip1 → out ≠ Arm64.ip0 →
      ∀ s : Arm64.State, s.read t.bits dividend = BitVec.ofInt t.bits (r.env k a) →
        (Arm64.run s (Arm64.generateIntDivForConstDenom g instr t (.ofInt 64 d) out dividend)).read
            t.bits out = (BitVec.ofInt t.bits (r.env k a)).sdiv (.ofInt t.bits d) ∧
        (Arm64.run s (Arm64.generateIntRemForConstDenom g instr t (.ofInt 64 d) out dividend)).read
            t.bits out = (BitVec.ofInt t.bits (r.env k a)).srem (.ofInt t.bits d)) ∧
    (∀ (isDiv : Bool) (t : IntType) (d : Int), t.InRange d → d ≠ 0 →
      ∀ temp : X8664.Reg, temp ≠ .rax → temp ≠ .rdx → ∀ s : X8664.State,
        (X8664.run s (X8664.generateDivRemIntegral isDiv t (.ofInt 64 d) temp)).read t.bits
            (if isDiv then .rax else .rdx) =
          if isDiv then (s.read t.bits .rax).sdiv (.ofInt t.bits d)
          else (s.read t.bits .rax).srem (.ofInt t.bits d)) := by
  refine ⟨fun isLong d hlo hhi habs hpow =>
      calculateMagicAndShiftForDivRem_spec isLong d hlo hhi habs hpow, ?_,
    fun isDiv t d hd hd0 temp hrax hrdx s =>
      X8664.generateDivRemIntegral_correct isDiv t hd hd0 hrax hrdx s⟩
  intro g hg instr a t hinput hphi htype d hd hd0 r k hk hkb out dividend hdividend0 hdividend1
    hout s hs
  -- the analyses' promises about the dividend, read in the dividend's register
  obtain ⟨hnonneg, hmin⟩ := dividend_facts hg hinput hphi htype r hk hkb
  rw [← hs] at hnonneg hmin ⊢
  exact ⟨Arm64.generateIntDivForConstDenom_correct g instr t hd hd0 hdividend0 hdividend1 s
      hnonneg hmin,
    Arm64.generateIntRemForConstDenom_correct g instr t hd hd0 hout hdividend0 hdividend1 s
      hnonneg hmin⟩

end Art
