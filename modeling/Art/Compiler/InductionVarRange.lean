import Art.Compiler.InductionVarAnalysis
import Mathlib.Data.BitVec

/-!
# Code for trip counts and last values (`compiler/optimizing/induction_var_range.cc`)

`GenerateCode` turns an invariant expression into instructions (`HCode`). Asked not to allow
overflow, it only emits an addition or a subtraction by folding two exact operands whose `int`
arithmetic does not overflow (`AddValue`, `SubValue`), or by dropping an exact zero
(`TryGenerateAddWithoutOverflow`, `TryGenerateSubWithoutOverflow`); range analysis `Value`s hold
`int32_t`s, so an operand is first narrowed to `int` (`Value(int32_t)`). `GenerateTripCount`
emits the trip count of a loop, guarded by its taken test when it is only valid in the body;
`GenerateLastValueLinear` emits the value `S * TC + L` a linear induction has after the loop,
with the trip count generated without overflow.

* With overflow allowed, the code computes the Java value of the expression
  (`eval_generateCode_of_isArithmetic`); so the code of a trip count is its Java value
  (`eval_generateTripCount`), which read unsigned is the number of iterations when the stride is a
  unit or the numerator does not wrap (`toNat_eval_generateTripCount`).
* For an `int` loop that is taken and passes `IsFinite`, the last value the code computes is the
  value with which the loop exits (`generateLastValue_int32`).
* For a `long` loop the folded constants are narrowed to `int`:
  `for (long i = 1; i < 4294967296L; i++)` exits with `i = 4294967296`, and the last value
  generated for `i` is `0` (`generateLastValue_int64_narrowed`).
-/

namespace Art

namespace InductionVarRange

open HInductionVarAnalysis

variable {t : IntType}

/-- The instructions `GenerateCode` inserts (`HAdd`, `HSub`, ... , `HSelect`), over the
instructions already in the graph it fetches and the constants it asks the graph for
(`GetConstant`). -/
inductive HCode (t : IntType) where
  | fetch (instruction : HInstruction t)
  | constant (value : Int)
  | add (a b : HCode t)
  | sub (a b : HCode t)
  | mul (a b : HCode t)
  | div (a b : HCode t)
  | rem (a b : HCode t)
  | xor (a b : HCode t)
  | neg (b : HCode t)
  | lessThan (a b : HCode t)
  | lessThanOrEqual (a b : HCode t)
  | greaterThan (a b : HCode t)
  | greaterThanOrEqual (a b : HCode t)
  | select (condition trueValue falseValue : HCode t)
  deriving Repr

/-- The Java value of generated code: wrapping arithmetic, truncating division, conditions `0`
or `1`, and a selection by a non-zero condition. `GetConstant` of an `int` keeps the low bits. -/
def HCode.eval (env : HEnv) : HCode t → BitVec t.bits
  | .fetch f => f.eval env
  | .constant value => BitVec.ofInt t.bits value
  | .add a b => a.eval env + b.eval env
  | .sub a b => a.eval env - b.eval env
  | .mul a b => a.eval env * b.eval env
  | .div a b => (a.eval env).sdiv (b.eval env)
  | .rem a b => (a.eval env).srem (b.eval env)
  | .xor a b => a.eval env ^^^ b.eval env
  | .neg b => -b.eval env
  | .lessThan a b => if (a.eval env).slt (b.eval env) then 1 else 0
  | .lessThanOrEqual a b => if (a.eval env).sle (b.eval env) then 1 else 0
  | .greaterThan a b => if (b.eval env).slt (a.eval env) then 1 else 0
  | .greaterThanOrEqual a b => if (b.eval env).sle (a.eval env) then 1 else 0
  | .select c a b => if c.eval env ≠ 0 then a.eval env else b.eval env

/-- Where code is generated (`context`): the loop header, the loop body, or after the loop,
where the exit of the loop control may dominate it or not. -/
inductive Context where
  | header
  | body
  | after (exitDominates : Bool)
  deriving DecidableEq, Repr

/-- `IsContextInBody`. -/
def Context.isInBody : Context → Bool
  | .body => true
  | _ => false

/-- `UseFullTripCount`: in the header, the maximum of the trip count is the full count; after
the loop, the full count holds where the loop exit dominates. -/
def useFullTripCount : Context → Bool → Bool
  | .header, isMin => !isMin
  | .body, _ => false
  | .after exitDominates, _ => exitDominates

/-- `CanLongValueFitIntoInt`. -/
def canLongValueFitIntoInt (c : Int) : Bool := decide (-2 ^ 31 ≤ c ∧ c ≤ 2 ^ 31 - 1)

/-- The `int32_t` that `Value(int32_t)` keeps of an `int64_t`: its low 32 bits. -/
def toInt32 (c : Int) : Int := (BitVec.ofInt 32 c).toInt

/-- `AddValue` of two constant `Value`s: their sum, when `IsSafeAdd`. -/
def addValue (c1 c2 : Int) : Option Int :=
  if canLongValueFitIntoInt (c1 + c2) then some (c1 + c2) else none

/-- `SubValue` of two constant `Value`s: their difference, when `IsSafeSub`. -/
def subValue (c1 c2 : Int) : Option Int :=
  if canLongValueFitIntoInt (c1 - c2) then some (c1 - c2) else none

/-- The instruction `GenerateCode` emits for a binary operation. -/
def emitBinary : InductionOp → HCode t → HCode t → Option (HCode t)
  | .add, a, b => some (.add a b)
  | .sub, a, b => some (.sub a b)
  | .mul, a, b => some (.mul a b)
  | .div, a, b => some (.div a b)
  | .rem, a, b => some (.rem a b)
  | .xor, a, b => some (.xor a b)
  | .lt, a, b => some (.lessThan a b)
  | .le, a, b => some (.lessThanOrEqual a b)
  | .gt, a, b => some (.greaterThan a b)
  | .ge, a, b => some (.greaterThanOrEqual a b)
  | _, _, _ => none

section Generate

variable (range : InductionInfo t → Option (Int × Int))

/-- `TryGenerateAddWithoutOverflow` for `a + b`, whose operands generated `opa` and `opb`. -/
def tryGenerateAddWithoutOverflow (a b : InductionInfo t) (opa opb : HCode t) :
    Option (HCode t) :=
  let folded : Option (HCode t) :=
    match isExact range a, isExact range b with
    | some valA, some valB => (addValue (toInt32 valA) (toInt32 valB)).map .constant
    | _, _ => none
  match folded with
  | some result => some result
  | none =>
    if isExact range a = some 0 then some opb
    else if isExact range b = some 0 then some opa
    else none

/-- `TryGenerateSubWithoutOverflow` for `a - b`, whose first operand generated `opa`. -/
def tryGenerateSubWithoutOverflow (a b : InductionInfo t) (opa : HCode t) : Option (HCode t) :=
  match isExact range b with
  | none => none
  | some valB =>
    let folded : Option (HCode t) :=
      match isExact range a with
      | some valA => (subValue (toInt32 valA) (toInt32 valB)).map .constant
      | none => none
    match folded with
    | some result => some result
    | none => if valB = 0 then some opa else none

/-- `GenerateCode` on an invariant expression or a trip count; `none` is failure. -/
def generateCode (context : Context) : Bool → Bool → InductionInfo t → Option (HCode t)
  | _, _, .fetch f => some (.fetch f)
  | isMin, allowPotentialOverflow, .invariant .neg _ b =>
    (generateCode context (!isMin) allowPotentialOverflow b).map .neg
  | isMin, allowPotentialOverflow, .invariant op (some a) b =>
    -- the trip count inside the body is one less than the full count, and at least zero
    let inBody : Option (HCode t) :=
      if isMin then some (.constant 0)
      else if context.isInBody || (context = .header && !allowPotentialOverflow) then
        (generateCode context isMin allowPotentialOverflow a).map fun opb =>
          if context.isInBody then .sub opb (.constant 1) else opb
      else none
    match op with
    | .tripCountInLoop | .tripCountInLoopUnsafe =>
      if useFullTripCount context isMin then generateCode context isMin allowPotentialOverflow a
      else inBody
    | .tripCountInBody | .tripCountInBodyUnsafe => inBody
    | _ => do
      let opa ← generateCode context isMin allowPotentialOverflow a
      let opb ← generateCode context isMin allowPotentialOverflow b
      if !allowPotentialOverflow then
        match op with
        | .add => tryGenerateAddWithoutOverflow range a b opa opb
        | .sub => tryGenerateSubWithoutOverflow range a b opa
        | _ => emitBinary op opa opb
      else emitBinary op opa opb
  | _, _, .invariant _ none _ => none

/-- `IsBodyTripCount`. -/
def isBodyTripCount : InductionInfo t → Bool
  | .invariant .tripCountInBody _ _ | .invariant .tripCountInBodyUnsafe _ _ => true
  | _ => false

/-- `IsUnsafeTripCount`. -/
def isUnsafeTripCount : InductionInfo t → Bool
  | .invariant .tripCountInBodyUnsafe _ _ | .invariant .tripCountInLoopUnsafe _ _ => true
  | _ => false

/-- `GenerateTripCount`: the trip count in the context of the loop header, selected by the taken
test when it is only valid in the body. -/
def generateTripCount (trip : InductionInfo t) : Option (HCode t) :=
  match trip with
  | .invariant _ (some count) takenTestInfo =>
    if isUnsafeTripCount trip then none
    else do
      let takenTest ←
        if isBodyTripCount trip then (generateCode range .header false true takenTestInfo).map some
        else pure none
      let tripExpr ← generateCode range .header false true count
      pure (match takenTest with
        | some test => .select test tripExpr (.constant 0)
        | none => tripExpr)
  | _ => none

/-- A linear induction `a * i + b` (`op_a`, `op_b`). Its type is the type of its trip count, so
the checks of `IsNarrowingLinear` and of the types pass. -/
structure Linear (t : IntType) where
  opA : InductionInfo t
  opB : InductionInfo t

/-- `TryGenerateTakenTest`: `is_taken ? result : not_taken_result`. -/
def tryGenerateTakenTest (context : Context) (info : InductionInfo t)
    (result notTakenResult : HCode t) : Option (HCode t) :=
  (generateCode range context false true info).map fun isTaken =>
    .select isTaken result notTakenResult

/-- `GenerateLastValueLinear`: `a * TC + b` with the trip count generated without overflow; the
flag is `needs_taken_test` after the call. -/
def generateLastValueLinear (context : Context) (info : Linear t) (trip : InductionInfo t)
    (isMin needsTakenTest : Bool) : Option (HCode t × Bool) := do
  let strideValue ← isExact range info.opA
  if !canLongValueFitIntoInt strideValue then none
  else
    let isMinA := if strideValue ≥ 0 then isMin else !isMin
    let opa ← generateCode range context isMinA false trip
    let opb ← generateCode range context isMin true info.opB
    let result : HCode t :=
      if strideValue = 1 then .add opa opb
      else if strideValue = -1 then .sub opb opa
      else .add (.mul (.constant strideValue) opa) opb
    if needsTakenTest then
      match trip with
      | .invariant _ _ takenTest => do
        let result ← tryGenerateTakenTest range context takenTest result opb
        pure (result, false)
      | _ => none
    else pure (result, needsTakenTest)

/-- `GenerateLastValue` of a linear induction (`GenerateRangeOrLastValue` with `is_last_value`):
the last value is refused while it still needs a finite test or a taken test
(`CanGenerateLastValue`). -/
def generateLastValue (context : Context) (info : Linear t) (trip : InductionInfo t) :
    Option (HCode t) := do
  let strideValue := (isExact range info.opA).getD 0
  let needsFiniteTest := (isExact range info.opA).isSome && isUnsafeTripCount trip
  let (result, needsTakenTest) ← generateLastValueLinear range context info trip
    (!decide (0 < strideValue)) (isBodyTripCount trip)
  if needsFiniteTest || needsTakenTest then none else pure result

end Generate

theorem isConstant_createConstant {range : InductionInfo t → Option (Int × Int)}
    (request : ConstantRequest) (v : Int) :
    isConstant range request (createConstant (t := t) v) = some (BitVec.ofInt t.bits v).toInt :=
  rfl

theorem generateCode_fetch {range : InductionInfo t → Option (Int × Int)} (context : Context)
    (isMin allowPotentialOverflow : Bool) (f : HInstruction t) :
    generateCode range context isMin allowPotentialOverflow (.fetch f) = some (.fetch f) := rfl

/-! ## Code with overflow allowed -/

/-- The operations `GenerateCode` emits as one binary instruction. -/
def isBinary : InductionOp → Bool
  | .add | .sub | .mul | .div | .rem | .xor | .lt | .le | .gt | .ge => true
  | _ => false

/-- Expressions as `CreateInvariantOp` builds them, with no trip count inside: `kNeg` without a
first operand, the other operations with one. -/
def isArithmetic : InductionInfo t → Bool
  | .fetch _ => true
  | .invariant op none b => decide (op = .neg) && isArithmetic b
  | .invariant op (some a) b => isBinary op && isArithmetic a && isArithmetic b

theorem isArithmetic_opB {op : InductionOp} {a : Option (InductionInfo t)} {b : InductionInfo t}
    (h : isArithmetic (.invariant op a b) = true) : isArithmetic b = true := by
  cases a <;> simp only [isArithmetic, Bool.and_eq_true] at h <;> simp only [h]

theorem isArithmetic_opA {op : InductionOp} {a b : InductionInfo t}
    (h : isArithmetic (.invariant op (some a) b) = true) : isArithmetic a = true := by
  simp only [isArithmetic, Bool.and_eq_true] at h
  exact h.1.2

theorem isArithmetic_neg {b : InductionInfo t} :
    isArithmetic (.invariant .neg none b) = isArithmetic b := by
  simp [isArithmetic]

theorem isArithmetic_binary {op : InductionOp} (hop : isBinary op = true) {a b : InductionInfo t}
    (ha : isArithmetic a = true) (hb : isArithmetic b = true) :
    isArithmetic (.invariant op (some a) b) = true := by
  simp only [isArithmetic, hop, ha, hb, Bool.and_self]

section Arithmetic

variable {range : InductionInfo t → Option (Int × Int)}

/-- The simplifications keep an expression arithmetic. -/
theorem isArithmetic_of_simplifies {op : InductionOp} {a : Option (InductionInfo t)}
    {b r : InductionInfo t} (h : Simplifies range op a b r)
    (hn : isArithmetic (.invariant op a b) = true) : isArithmetic r = true := by
  induction h with
  | zero_add_or_xor _ _ => exact isArithmetic_opB hn
  | zero_mul _ => exact isArithmetic_opA hn
  | one_mul _ => exact isArithmetic_opB hn
  | neg_one_mul _ _ ih => exact ih (by rw [isArithmetic_neg]; exact isArithmetic_opB hn)
  | add_sub_or_xor_zero _ _ => exact isArithmetic_opA hn
  | mul_or_neg_zero _ _ => exact isArithmetic_opB hn
  | mul_or_div_one _ _ => exact isArithmetic_opA hn
  | mul_or_div_neg_one _ _ _ ih => exact ih (by rw [isArithmetic_neg]; exact isArithmetic_opA hn)
  | @add_neg a y c r _ ih =>
    -- `a + (-c)` is arithmetic only with a first operand, and `-c` only without one
    cases a with
    | none => simp [isArithmetic] at hn
    | some x =>
      have hc := isArithmetic_opB (isArithmetic_opB hn)
      exact ih (isArithmetic_binary rfl (isArithmetic_opA hn) hc)
  | @sub_neg a y c r _ ih =>
    cases a with
    | none => simp [isArithmetic] at hn
    | some x =>
      have hc := isArithmetic_opB (isArithmetic_opB hn)
      exact ih (isArithmetic_binary rfl (isArithmetic_opA hn) hc)
  | neg_neg => exact isArithmetic_opB (isArithmetic_opB hn)
  | neg_sub _ ih =>
    have hsub := isArithmetic_opB hn
    exact ih (isArithmetic_binary rfl (isArithmetic_opB hsub) (isArithmetic_opA hsub))
  | self => exact hn

theorem isArithmetic_createSimplifiedInvariant {op : InductionOp} {a : Option (InductionInfo t)}
    {b : InductionInfo t} (hn : isArithmetic (.invariant op a b) = true) :
    isArithmetic (createSimplifiedInvariant range op a b) = true :=
  isArithmetic_of_simplifies (simplifies_createSimplifiedInvariant op a b) hn

/-- The count and the taken test `VisitTripCount` builds on arithmetic bounds and stride are
arithmetic. -/
theorem isArithmetic_tripCountExpr {lowerExpr upperExpr strideExpr : InductionInfo t}
    (hl : isArithmetic lowerExpr = true) (hu : isArithmetic upperExpr = true)
    (hs : isArithmetic strideExpr = true) (strideValue : Int) (cmp : IfCondition) :
    isArithmetic (tripCountExpr range lowerExpr upperExpr strideExpr strideValue cmp) = true := by
  have hc : isArithmetic (createConstant (t := t) 1) = true := rfl
  have hbound : isArithmetic (if cmp = .lt then
      createSimplifiedInvariant range .sub (some upperExpr) (createConstant 1)
    else if cmp = .gt then createSimplifiedInvariant range .add (some upperExpr) (createConstant 1)
    else upperExpr) = true := by
    split_ifs
    · exact isArithmetic_createSimplifiedInvariant (isArithmetic_binary rfl hu hc)
    · exact isArithmetic_createSimplifiedInvariant (isArithmetic_binary rfl hu hc)
    · exact hu
  have hcount : isArithmetic (if (cmp = .lt ∨ cmp = .gt) ∧ strideValue.natAbs = 1 then upperExpr
      else createSimplifiedInvariant range .add (some (if cmp = .lt then
        createSimplifiedInvariant range .sub (some upperExpr) (createConstant 1)
      else if cmp = .gt then createSimplifiedInvariant range .add (some upperExpr) (createConstant 1)
      else upperExpr)) strideExpr) = true := by
    split
    · exact hu
    · exact isArithmetic_createSimplifiedInvariant (isArithmetic_binary rfl hbound hs)
  exact isArithmetic_createSimplifiedInvariant (isArithmetic_binary rfl
    (isArithmetic_createSimplifiedInvariant (isArithmetic_binary rfl hcount hl)) hs)

theorem generateCode_binary_of_allow {op : InductionOp} (hop : isBinary op = true)
    (context : Context) (isMin : Bool) (a b : InductionInfo t) :
    generateCode range context isMin true (.invariant op (some a) b) =
      (generateCode range context isMin true a).bind fun opa =>
        (generateCode range context isMin true b).bind fun opb => emitBinary op opa opb := by
  cases op <;> simp only [isBinary, Bool.false_eq_true] at hop <;> rfl

/-- With overflow allowed, `GenerateCode` succeeds on every arithmetic expression, and its code
computes the Java value of the expression. -/
theorem eval_generateCode_of_isArithmetic (range : InductionInfo t → Option (Int × Int))
    (context : Context) :
    ∀ (isMin : Bool) (e : InductionInfo t), isArithmetic e = true →
      ∃ c, generateCode range context isMin true e = some c ∧
        ∀ env, c.eval env = (wrapping env).eval e
  | _, .fetch f, _ => ⟨.fetch f, rfl, fun _ => rfl⟩
  | isMin, .invariant op none b, h => by
    simp only [isArithmetic, Bool.and_eq_true, decide_eq_true_eq] at h
    obtain ⟨rfl, hb⟩ := h
    obtain ⟨c, hc, hv⟩ := eval_generateCode_of_isArithmetic range context (!isMin) b hb
    refine ⟨.neg c, by simp only [generateCode, hc, Option.map_some], fun env => ?_⟩
    rw [HCode.eval, hv]
    rfl
  | isMin, .invariant op (some a) b, h => by
    simp only [isArithmetic, Bool.and_eq_true] at h
    obtain ⟨⟨hop, ha⟩, hb⟩ := h
    obtain ⟨ca, hca, hva⟩ := eval_generateCode_of_isArithmetic range context isMin a ha
    obtain ⟨cb, hcb, hvb⟩ := eval_generateCode_of_isArithmetic range context isMin b hb
    cases op <;> simp only [isBinary, Bool.false_eq_true] at hop <;>
      exact ⟨_, by rw [generateCode_binary_of_allow rfl, hca, hcb]; rfl,
        fun env => by rw [HCode.eval, hva, hvb]; rfl⟩

end Arithmetic

/-! ## The trip count -/

section TripCount

variable {range : InductionInfo t → Option (Int × Int)}

theorem isBinary_of_takenTestOp {cmp : IfCondition} {op : InductionOp}
    (h : takenTestOp cmp = some op) : isBinary op = true := by
  cases cmp <;> simp only [takenTestOp, reduceCtorEq, Option.some.injEq] at h <;> subst h <;> rfl

/-- The taken test of a loop condition is `1` when the condition holds and `0` otherwise. -/
theorem wrapping_apply_takenTestOp (env : HEnv) {cmp : IfCondition} {op : InductionOp}
    (h : takenTestOp cmp = some op) (x y : BitVec t.bits) :
    (wrapping env).apply op x y = if cmp.Holds t x.toInt y.toInt then 1 else 0 := by
  cases cmp <;> simp only [takenTestOp, reduceCtorEq, Option.some.injEq] at h <;> subst h <;>
    simp only [wrapping, IfCondition.Holds, ← BitVec.slt_iff_toInt_lt, ← BitVec.sle_iff_toInt_le,
      gt_iff_lt, ge_iff_le]

/-- What `VisitTripCount` returns: a trip count of some kind on the count, with the taken test. -/
theorem visitTripCount_eq_some {lowerExpr upperExpr strideExpr : InductionInfo t}
    {strideValue : Int} {cmp : IfCondition} {trip : InductionInfo t}
    (h : visitTripCount range lowerExpr upperExpr strideExpr strideValue cmp = some trip) :
    ∃ op, takenTestOp cmp = some op ∧
      trip = createTripCount
        (tripCountKind (isTaken range lowerExpr upperExpr cmp)
          (isFinite range upperExpr strideValue cmp))
        (tripCountExpr range lowerExpr upperExpr strideExpr strideValue cmp)
        (createSimplifiedInvariant range op (some lowerExpr) upperExpr) := by
  cases hop : takenTestOp cmp with
  | none => simp [visitTripCount, hop] at h
  | some op =>
    simp [visitTripCount, hop] at h
    exact ⟨op, rfl, h.symm⟩

theorem one_ne_zero_bits : (1 : BitVec t.bits) ≠ 0 := by
  cases t <;> decide

/-- In an execution where the loop is taken, the code of its taken test is not `0`. -/
theorem eval_takenTest_ne_zero (hrange : RangeSound range) (env : HEnv) {cmp : IfCondition}
    {op : InductionOp} (hop : takenTestOp cmp = some op) {l u : HInstruction t}
    (htaken : cmp.Holds t (l.eval env).toInt (u.eval env).toInt) {context : Context}
    {isMin : Bool} {ct : HCode t}
    (hct : generateCode range context isMin true
      (createSimplifiedInvariant range op (some (.fetch l)) (.fetch u)) = some ct) :
    ct.eval env ≠ 0 := by
  obtain ⟨ct', hct', hvt⟩ := eval_generateCode_of_isArithmetic range context isMin
    (createSimplifiedInvariant range op (some (.fetch l)) (.fetch u))
    (isArithmetic_createSimplifiedInvariant (isArithmetic_binary (isBinary_of_takenTestOp hop)
      rfl rfl))
  rw [hct, Option.some.injEq] at hct'
  subst hct'
  rw [hvt env, Meaning.eval_createSimplifiedInvariant (exactSound_wrapping hrange env),
    Meaning.eval_invariant, wrapping_apply_takenTestOp env hop]
  show (if cmp.Holds t (l.eval env).toInt (u.eval env).toInt then (1 : BitVec t.bits) else 0) ≠ 0
  rw [if_pos htaken]
  exact one_ne_zero_bits

/-- The code of the trip count of a loop taken in this execution computes the Java value of the
count, whether the count is guarded by its taken test or not. -/
theorem eval_generateTripCount (hrange : RangeSound range) (env : HEnv) {l u : HInstruction t}
    {strideValue : Int} {cmp : IfCondition}
    (htaken : cmp.Holds t (l.eval env).toInt (u.eval env).toInt) {trip : InductionInfo t}
    (htrip : visitTripCount range (.fetch l) (.fetch u) (createConstant strideValue) strideValue
      cmp = some trip)
    {code : HCode t} (hcode : generateTripCount range trip = some code) :
    code.eval env = (wrapping env).eval
      (tripCountExpr range (.fetch l) (.fetch u) (createConstant strideValue) strideValue cmp) := by
  obtain ⟨op, hop, rfl⟩ := visitTripCount_eq_some htrip
  have harith : isArithmetic (tripCountExpr range (.fetch l) (.fetch u)
      (createConstant strideValue) strideValue cmp) = true :=
    isArithmetic_tripCountExpr rfl rfl rfl strideValue cmp
  obtain ⟨c, hc, hv⟩ := eval_generateCode_of_isArithmetic range .header false _ harith
  obtain ⟨ct, hct, -⟩ := eval_generateCode_of_isArithmetic range .header false
    (createSimplifiedInvariant range op (some (.fetch l)) (.fetch u))
    (isArithmetic_createSimplifiedInvariant (isArithmetic_binary (isBinary_of_takenTestOp hop)
      rfl rfl))
  simp [generateTripCount, createTripCount, hc, hct] at hcode
  obtain ⟨-, hcode⟩ := hcode
  -- a count valid in the body only is selected by its taken test
  split_ifs at hcode <;> cases hcode
  · rw [HCode.eval, if_pos (eval_takenTest_ne_zero hrange env hop htaken hct), hv]
  · exact hv env

/-- `GenerateTripCount` succeeds on the trip count of a loop whose bound passes `IsFinite`. -/
theorem generateTripCount_isSome {lowerExpr upperExpr strideExpr : InductionInfo t}
    (hl : isArithmetic lowerExpr = true) (hu : isArithmetic upperExpr = true)
    (hs : isArithmetic strideExpr = true) {strideValue : Int} {cmp : IfCondition}
    (hfin : isFinite range upperExpr strideValue cmp = true) {trip : InductionInfo t}
    (htrip : visitTripCount range lowerExpr upperExpr strideExpr strideValue cmp = some trip) :
    (generateTripCount range trip).isSome := by
  obtain ⟨op, hop, rfl⟩ := visitTripCount_eq_some htrip
  have harith : isArithmetic (tripCountExpr range lowerExpr upperExpr strideExpr strideValue
      cmp) = true := isArithmetic_tripCountExpr hl hu hs strideValue cmp
  have htest : isArithmetic (createSimplifiedInvariant range op (some lowerExpr) upperExpr) =
      true := isArithmetic_createSimplifiedInvariant (isArithmetic_binary
        (isBinary_of_takenTestOp hop) hl hu)
  obtain ⟨c, hc, -⟩ := eval_generateCode_of_isArithmetic range .header false _ harith
  obtain ⟨ct, hct, -⟩ := eval_generateCode_of_isArithmetic range .header false _ htest
  -- a finite loop has a safe trip count
  have hsafe : isUnsafeTripCount (createTripCount (tripCountKind
      (isTaken range lowerExpr upperExpr cmp) true)
      (tripCountExpr range lowerExpr upperExpr strideExpr strideValue cmp)
      (createSimplifiedInvariant range op (some lowerExpr) upperExpr)) = false := by
    cases isTaken range lowerExpr upperExpr cmp <;> rfl
  rw [hfin]
  simp only [createTripCount] at hsafe
  simp [generateTripCount, createTripCount, hsafe, hc, hct]
  split_ifs <;> rfl

/-- Read unsigned, the code of the trip count of a taken loop whose bound satisfies `IsFinite`'s
rule is the number of iterations, when the stride is a unit or the numerator `U' + S - L` does
not wrap. -/
theorem toNat_eval_generateTripCount (hrange : RangeSound range) (env : HEnv)
    {l u : HInstruction t} {s : BitVec t.bits} {cmp : IfCondition}
    (hnorm : Normalized cmp s.toInt) (htaken : cmp.Holds t (l.eval env).toInt (u.eval env).toInt)
    (hfin : FiniteRule t cmp s.toInt (u.eval env).toInt)
    (hnum : s.toInt.natAbs = 1 ∨
      t.InRange (inclusiveBound cmp (u.eval env).toInt + s.toInt - (l.eval env).toInt))
    {trip : InductionInfo t}
    (htrip : visitTripCount range (.fetch l) (.fetch u) (createConstant s.toInt) s.toInt cmp =
      some trip)
    {code : HCode t} (hcode : generateTripCount range trip = some code) :
    (code.eval env).toNat = (iterations cmp (l.eval env).toInt (u.eval env).toInt s.toInt).toNat := by
  rw [eval_generateTripCount hrange env htaken htrip hcode,
    wrapping_eval_tripCountExpr hrange env l u hnorm]
  exact toNat_tripCount (inRange_toInt _) (inRange_toInt _) (inRange_toInt s) hnorm htaken hfin hnum

/-- Without the condition on the numerator: `for (int i = INT_MIN; i < INT_MAX - 1; i += 2)` is
taken, finite, and runs `2^31 - 1` times, and the code `GenerateTripCount` emits for its trip
count computes `(INT_MAX + 1 - INT_MIN) / 2`, whose numerator wraps to `-1`: it is `0`. -/
theorem toNat_eval_generateTripCount_of_wrapped_numerator (env : HEnv) :
    ∃ trip code,
      visitTripCount (fun _ => none) (.fetch (.constant .int32 (BitVec.ofInt 32 (-2 ^ 31))))
        (.fetch (.constant .int32 (BitVec.ofInt 32 (2 ^ 31 - 2)))) (createConstant 2) 2 .lt =
        some trip ∧
      generateTripCount (fun _ => none) trip = some code ∧ (code.eval env).toNat = 0 ∧
      (iterations .lt (-2 ^ 31) (2 ^ 31 - 2) 2).toNat = 2 ^ 31 - 1 := by
  have hrange : RangeSound (t := .int32) (fun _ => none) := fun _ _ _ h => by cases h
  obtain ⟨trip, htrip⟩ : ∃ trip, visitTripCount (fun _ => none)
      (.fetch (.constant .int32 (BitVec.ofInt 32 (-2 ^ 31))))
      (.fetch (.constant .int32 (BitVec.ofInt 32 (2 ^ 31 - 2)))) (createConstant 2) 2 .lt =
      some trip := ⟨_, rfl⟩
  obtain ⟨code, hcode⟩ := Option.isSome_iff_exists.1
    (generateTripCount_isSome rfl rfl rfl (by decide) htrip)
  have hnorm : Normalized .lt (2 : Int) := .inl ⟨by decide, .inl rfl⟩
  refine ⟨trip, code, htrip, hcode, ?_, by decide⟩
  rw [eval_generateTripCount hrange env (by simp only [HInstruction.eval]; decide) htrip hcode,
    wrapping_eval_tripCountExpr hrange env _ _ hnorm]
  simp only [HInstruction.eval]
  decide

end TripCount

/-! ## Code without overflow for `int` -/

/-- Sums and differences of fetched values: the expressions whose code `GenerateCode` may emit
without overflow, by folding exact operands or dropping an exact zero. -/
def isAffine : InductionInfo t → Bool
  | .fetch _ => true
  | .invariant op (some a) b =>
    (decide (op = .add) || decide (op = .sub)) && isAffine a && isAffine b
  | .invariant _ none _ => false

theorem isAffine_invariant_some {op : InductionOp} {a b : InductionInfo t} :
    isAffine (.invariant op (some a) b) = true ↔
      (op = .add ∨ op = .sub) ∧ isAffine a = true ∧ isAffine b = true := by
  simp [isAffine, and_assoc]

theorem isAffine_neg {a : Option (InductionInfo t)} {b : InductionInfo t} :
    isAffine (.invariant .neg a b) = false := by
  cases a <;> rfl

section Affine

variable {range : InductionInfo t → Option (Int × Int)}

/-- The simplifications of a sum or a difference of affine expressions are affine. -/
theorem isAffine_of_simplifies {op : InductionOp} {a : Option (InductionInfo t)}
    {b r : InductionInfo t} (h : Simplifies range op a b r)
    (hn : isAffine (.invariant op a b) = true) : isAffine r = true := by
  induction h with
  | zero_add_or_xor _ _ => exact (isAffine_invariant_some.1 hn).2.2
  | add_sub_or_xor_zero _ _ => exact (isAffine_invariant_some.1 hn).2.1
  | self => exact hn
  -- the other simplifications need a product, a quotient or a negation, which is not affine
  | zero_mul _ | one_mul _ | neg_one_mul _ _ _ => simp [isAffine] at hn
  | @mul_or_neg_zero op a b _ hop => rcases hop with rfl | rfl <;> cases a <;> simp [isAffine] at hn
  | mul_or_div_one _ hop | mul_or_div_neg_one _ hop _ _ =>
    rcases hop with rfl | rfl <;> simp [isAffine] at hn
  | @add_neg a y c r _ _ | @sub_neg a y c r _ _ =>
    cases a <;> simp [isAffine_neg, isAffine] at hn
  | neg_neg | neg_sub _ _ => rw [isAffine_neg] at hn; cases hn

theorem isAffine_createSimplifiedInvariant {op : InductionOp} {a : Option (InductionInfo t)}
    {b : InductionInfo t} (hn : isAffine (.invariant op a b) = true) :
    isAffine (createSimplifiedInvariant range op a b) = true :=
  isAffine_of_simplifies (simplifies_createSimplifiedInvariant op a b) hn

end Affine

theorem tryGenerateAddWithoutOverflow_eq_some {range : InductionInfo t → Option (Int × Int)}
    {a b : InductionInfo t} {opa opb c : HCode t}
    (h : tryGenerateAddWithoutOverflow range a b opa opb = some c) :
    (∃ va vb s, isExact range a = some va ∧ isExact range b = some vb ∧
        addValue (toInt32 va) (toInt32 vb) = some s ∧ c = .constant s) ∨
      (isExact range a = some 0 ∧ c = opb) ∨ (isExact range b = some 0 ∧ c = opa) := by
  -- when no fold applies, an exact zero operand is dropped
  have hzero : (if isExact range a = some 0 then some opb
      else if isExact range b = some 0 then some opa else none) = some c →
      (isExact range a = some 0 ∧ c = opb) ∨ (isExact range b = some 0 ∧ c = opa) := by
    intro h
    split_ifs at h with ha hb <;> cases h
    · exact .inl ⟨ha, rfl⟩
    · exact .inr ⟨hb, rfl⟩
  unfold tryGenerateAddWithoutOverflow at h
  split at h
  · rename_i va vb hva hvb
    cases hs : addValue (toInt32 va) (toInt32 vb) with
    | none =>
      simp only [hs, Option.map_none] at h
      exact .inr (hzero h)
    | some s =>
      simp only [hs, Option.map_some, Option.some.injEq] at h
      exact .inl ⟨va, vb, s, hva, hvb, hs, h.symm⟩
  · exact .inr (hzero h)

theorem tryGenerateSubWithoutOverflow_eq_some {range : InductionInfo t → Option (Int × Int)}
    {a b : InductionInfo t} {opa c : HCode t}
    (h : tryGenerateSubWithoutOverflow range a b opa = some c) :
    (∃ va vb s, isExact range a = some va ∧ isExact range b = some vb ∧
        subValue (toInt32 va) (toInt32 vb) = some s ∧ c = .constant s) ∨
      (isExact range b = some 0 ∧ c = opa) := by
  unfold tryGenerateSubWithoutOverflow at h
  split at h
  · cases h
  · rename_i vb hvb
    -- when no fold applies, an exact zero is dropped
    have hzero : (if vb = 0 then some opa else none) = some c →
        isExact range b = some 0 ∧ c = opa := by
      intro h
      split_ifs at h with hb
      cases h
      exact ⟨hb ▸ hvb, rfl⟩
    split at h
    · rename_i va hva
      cases hs : subValue (toInt32 va) (toInt32 vb) with
      | none =>
        simp only [hs, Option.map_none] at h
        exact .inr (hzero h)
      | some s =>
        simp only [hs, Option.map_some, Option.some.injEq] at h
        exact .inl ⟨va, vb, s, hva, hvb, hs, h.symm⟩
    · exact .inr (hzero h)

theorem canLongValueFitIntoInt_iff (c : Int) :
    canLongValueFitIntoInt c = true ↔ IntType.int32.InRange c := by
  simp only [canLongValueFitIntoInt, decide_eq_true_eq, IntType.InRange, IntType.bits]
  omega

theorem addValue_eq_some {c1 c2 s : Int} (h : addValue c1 c2 = some s) :
    IntType.int32.InRange (c1 + c2) ∧ s = c1 + c2 := by
  unfold addValue at h
  split_ifs at h with hfit
  cases h
  exact ⟨(canLongValueFitIntoInt_iff _).1 hfit, rfl⟩

theorem subValue_eq_some {c1 c2 s : Int} (h : subValue c1 c2 = some s) :
    IntType.int32.InRange (c1 - c2) ∧ s = c1 - c2 := by
  unfold subValue at h
  split_ifs at h with hfit
  cases h
  exact ⟨(canLongValueFitIntoInt_iff _).1 hfit, rfl⟩

/-- `Value(int32_t)` keeps an `int`. -/
theorem toInt32_of_inRange {c : Int} (h : IntType.int32.InRange c) : toInt32 c = c :=
  h.toInt_ofInt

theorem generateCode_add_of_not_allow {range : InductionInfo t → Option (Int × Int)}
    (context : Context) (isMin : Bool) (a b : InductionInfo t) :
    generateCode range context isMin false (.invariant .add (some a) b) =
      (generateCode range context isMin false a).bind fun opa =>
        (generateCode range context isMin false b).bind fun opb =>
          tryGenerateAddWithoutOverflow range a b opa opb := rfl

theorem generateCode_sub_of_not_allow {range : InductionInfo t → Option (Int × Int)}
    (context : Context) (isMin : Bool) (a b : InductionInfo t) :
    generateCode range context isMin false (.invariant .sub (some a) b) =
      (generateCode range context isMin false a).bind fun opa =>
        (generateCode range context isMin false b).bind fun _ =>
          tryGenerateSubWithoutOverflow range a b opa := rfl

theorem generateCode_div_of_not_allow {range : InductionInfo t → Option (Int × Int)}
    (context : Context) (isMin : Bool) (a b : InductionInfo t) :
    generateCode range context isMin false (.invariant .div (some a) b) =
      (generateCode range context isMin false a).bind fun opa =>
        (generateCode range context isMin false b).bind fun opb => some (.div opa opb) := rfl

section Int32

variable {range : InductionInfo .int32 → Option (Int × Int)}

/-- Over `int`, every constant `IsConstant` reports is an `int`. -/
theorem isConstant_inRange (hrange : RangeSound range) {request : ConstantRequest}
    {info : InductionInfo .int32} {v : Int} (h : isConstant range request info = some v) :
    IntType.int32.InRange v := by
  unfold isConstant at h
  split at h
  · cases h
    exact inRange_toInt _
  · rcases hr : range info with _ | ⟨lo, hi⟩ <;> simp only [hr] at h
    · cases h
    · obtain ⟨hlo, hhi, -⟩ := hrange _ _ _ hr
      split_ifs at h <;> cases h
      · exact hhi
      · exact hlo

/-- Code that computes the exact value of an expression over `int`, a value that does not wrap. -/
def ComputesExactly (env : HEnv) (c : HCode .int32) (e : InductionInfo .int32) : Prop :=
  c.eval env = BitVec.ofInt 32 ((exact env).eval e) ∧ IntType.int32.InRange ((exact env).eval e)

theorem computesExactly_tryGenerateAddWithoutOverflow (hrange : RangeSound range) (env : HEnv)
    {a b : InductionInfo .int32} {opa opb c : HCode .int32} (ha : ComputesExactly env opa a)
    (hb : ComputesExactly env opb b) (h : tryGenerateAddWithoutOverflow range a b opa opb = some c) :
    ComputesExactly env c (.invariant .add (some a) b) := by
  have hexact : ∀ {e v}, isExact range e = some v → (exact env).eval e = v :=
    fun hv => ((isConstant_sound hrange env hv).1 rfl).1
  show c.eval env = BitVec.ofInt 32 ((exact env).eval a + (exact env).eval b) ∧
    IntType.int32.InRange ((exact env).eval a + (exact env).eval b)
  rcases tryGenerateAddWithoutOverflow_eq_some h with
    ⟨va, vb, s, hva, hvb, hs, rfl⟩ | ⟨ha0, rfl⟩ | ⟨hb0, rfl⟩
  · -- the operands are `int`s, so the fold adds them and checks that the sum fits
    rw [toInt32_of_inRange (isConstant_inRange hrange hva),
      toInt32_of_inRange (isConstant_inRange hrange hvb)] at hs
    obtain ⟨hfit, rfl⟩ := addValue_eq_some hs
    rw [hexact hva, hexact hvb]
    exact ⟨rfl, hfit⟩
  · rw [hexact ha0, Int.zero_add]
    exact hb
  · rw [hexact hb0, Int.add_zero]
    exact ha

theorem computesExactly_tryGenerateSubWithoutOverflow (hrange : RangeSound range) (env : HEnv)
    {a b : InductionInfo .int32} {opa c : HCode .int32} (ha : ComputesExactly env opa a)
    (h : tryGenerateSubWithoutOverflow range a b opa = some c) :
    ComputesExactly env c (.invariant .sub (some a) b) := by
  have hexact : ∀ {e v}, isExact range e = some v → (exact env).eval e = v :=
    fun hv => ((isConstant_sound hrange env hv).1 rfl).1
  show c.eval env = BitVec.ofInt 32 ((exact env).eval a - (exact env).eval b) ∧
    IntType.int32.InRange ((exact env).eval a - (exact env).eval b)
  rcases tryGenerateSubWithoutOverflow_eq_some h with ⟨va, vb, s, hva, hvb, hs, rfl⟩ | ⟨hb0, rfl⟩
  · rw [toInt32_of_inRange (isConstant_inRange hrange hva),
      toInt32_of_inRange (isConstant_inRange hrange hvb)] at hs
    obtain ⟨hfit, rfl⟩ := subValue_eq_some hs
    rw [hexact hva, hexact hvb]
    exact ⟨rfl, hfit⟩
  · rw [hexact hb0, Int.sub_zero]
    exact ha

/-- Without overflow, the code `GenerateCode` emits for a sum or difference of fetched `int`s
computes its exact value. -/
theorem computesExactly_generateCode_of_isAffine (hrange : RangeSound range) (env : HEnv)
    (context : Context) :
    ∀ (isMin : Bool) (e : InductionInfo .int32) (c : HCode .int32), isAffine e = true →
      generateCode range context isMin false e = some c → ComputesExactly env c e
  | _, .fetch f, c, _, hc => by
    cases hc
    exact ⟨BitVec.ofInt_toInt.symm, inRange_toInt _⟩
  | isMin, .invariant op (some a) b, c, h, hc => by
    obtain ⟨hop, ha, hb⟩ := isAffine_invariant_some.1 h
    rcases hop with rfl | rfl
    · rw [generateCode_add_of_not_allow, Option.bind_eq_some_iff] at hc
      obtain ⟨opa, hopa, hc⟩ := hc
      rw [Option.bind_eq_some_iff] at hc
      obtain ⟨opb, hopb, hc⟩ := hc
      exact computesExactly_tryGenerateAddWithoutOverflow hrange env
        (computesExactly_generateCode_of_isAffine hrange env context isMin a opa ha hopa)
        (computesExactly_generateCode_of_isAffine hrange env context isMin b opb hb hopb) hc
    · rw [generateCode_sub_of_not_allow, Option.bind_eq_some_iff] at hc
      obtain ⟨opa, hopa, hc⟩ := hc
      rw [Option.bind_eq_some_iff] at hc
      obtain ⟨-, -, hc⟩ := hc
      exact computesExactly_tryGenerateSubWithoutOverflow hrange env
        (computesExactly_generateCode_of_isAffine hrange env context isMin a opa ha hopa) hc
  | _, .invariant _ none _, _, h, _ => by simp [isAffine] at h

/-- Without overflow, the code of what `CreateSimplifiedInvariant` makes of the negation of an
affine expression computes its exact value, up to the wrap of `-INT_MIN`. -/
theorem eval_generateCode_of_simplifies_neg (hrange : RangeSound range) (env : HEnv)
    (context : Context) {op : InductionOp} {a : Option (InductionInfo .int32)}
    {b r : InductionInfo .int32} (h : Simplifies range op a b r) (hop : op = .neg)
    (ha : a = none) (hb : isAffine b = true) {isMin : Bool} {c : HCode .int32}
    (hc : generateCode range context isMin false r = some c) :
    c.eval env = BitVec.ofInt 32 ((exact env).eval r) := by
  cases h
  case mul_or_neg_zero => exact (computesExactly_generateCode_of_isAffine hrange env context
    isMin _ c hb hc).1
  case neg_neg => rw [isAffine_neg] at hb; cases hb
  case neg_sub x y hsub =>
    -- `-(x - y)` becomes `y - x`, which is affine
    obtain ⟨-, hx, hy⟩ := isAffine_invariant_some.1 hb
    have hr := isAffine_of_simplifies hsub (isAffine_invariant_some.2 ⟨.inr rfl, hy, hx⟩)
    exact (computesExactly_generateCode_of_isAffine hrange env context isMin _ c hr hc).1
  case self =>
    subst hop ha
    obtain ⟨cb, hcb, rfl⟩ := Option.map_eq_some_iff.1 hc
    have hcomp := computesExactly_generateCode_of_isAffine hrange env context (!isMin) b cb hb hcb
    rw [HCode.eval, hcomp.1, ← BitVec.ofInt_neg]
    rfl
  -- the other simplifications need another operation
  all_goals simp_all

/-- Without overflow, the code of what `CreateSimplifiedInvariant` makes of the quotient of an
affine expression by a constant stride computes its exact value, up to the wrap of
`INT_MIN / -1`. -/
theorem eval_generateCode_of_simplifies_div (hrange : RangeSound range) (env : HEnv)
    (context : Context) {op : InductionOp} {a : Option (InductionInfo .int32)}
    {b r : InductionInfo .int32} (h : Simplifies range op a b r) (hop : op = .div)
    {n : InductionInfo .int32} (ha : a = some n) (hn : isAffine n = true) {S : Int}
    (hS : IntType.int32.InRange S) (hS0 : S ≠ 0) (hb : b = createConstant S) {isMin : Bool}
    {c : HCode .int32} (hc : generateCode range context isMin false r = some c) :
    c.eval env = BitVec.ofInt 32 ((exact env).eval r) := by
  cases h
  case mul_or_div_one =>
    cases ha
    exact (computesExactly_generateCode_of_isAffine hrange env context isMin _ c hn hc).1
  case mul_or_div_neg_one hneg =>
    cases ha
    exact eval_generateCode_of_simplifies_neg hrange env context hneg rfl rfl hn hc
  case self =>
    subst hop ha hb
    rw [generateCode_div_of_not_allow, Option.bind_eq_some_iff] at hc
    obtain ⟨opa, hopa, hc⟩ := hc
    have hcomp := computesExactly_generateCode_of_isAffine hrange env context isMin n opa hn hopa
    cases hc
    -- the quotient of an `int` by an `int` stride is the truncating quotient, `-1` included
    have hstride : (exact env).eval (createConstant (t := .int32) S) = S := hS.toInt_ofInt
    show (opa.eval env).sdiv (BitVec.ofInt 32 S) =
      BitVec.ofInt 32 (((exact env).eval n).tdiv ((exact env).eval (createConstant S)))
    rw [hcomp.1, hstride, sdiv_ofInt_eq_tdiv hS hS0 (.inr hcomp.2)]
  -- the other simplifications need another operation
  all_goals simp_all

/-- Without overflow, the code of the count of a loop over `int` computes its exact value, up to
the wrap of a quotient by `-1`: the numerator is affine, and only the stride divides it. -/
theorem eval_generateCode_tripCountExpr (hrange : RangeSound range) (env : HEnv)
    (context : Context) (l u : HInstruction .int32) {S : Int} (hS : IntType.int32.InRange S)
    (hS0 : S ≠ 0) (cmp : IfCondition) {isMin : Bool} {c : HCode .int32}
    (hc : generateCode range context isMin false
      (tripCountExpr range (.fetch l) (.fetch u) (createConstant S) S cmp) = some c) :
    c.eval env = BitVec.ofInt 32
      ((exact env).eval (tripCountExpr range (.fetch l) (.fetch u) (createConstant S) S cmp)) := by
  have hbound : isAffine (if cmp = .lt then
      createSimplifiedInvariant range .sub (some (.fetch u)) (createConstant 1)
    else if cmp = .gt then
      createSimplifiedInvariant range .add (some (.fetch u)) (createConstant 1)
    else .fetch u) = true := by
    split_ifs
    · exact isAffine_createSimplifiedInvariant (isAffine_invariant_some.2 ⟨.inr rfl, rfl, rfl⟩)
    · exact isAffine_createSimplifiedInvariant (isAffine_invariant_some.2 ⟨.inl rfl, rfl, rfl⟩)
    · rfl
  have hcount : isAffine (if (cmp = .lt ∨ cmp = .gt) ∧ S.natAbs = 1 then .fetch u
      else createSimplifiedInvariant range .add (some (if cmp = .lt then
        createSimplifiedInvariant range .sub (some (.fetch u)) (createConstant 1)
      else if cmp = .gt then
        createSimplifiedInvariant range .add (some (.fetch u)) (createConstant 1)
      else .fetch u)) (createConstant S)) = true := by
    split
    · rfl
    · exact isAffine_createSimplifiedInvariant (isAffine_invariant_some.2 ⟨.inl rfl, hbound, rfl⟩)
  -- the numerator subtracts `L` from an affine bound
  exact eval_generateCode_of_simplifies_div hrange env context
    (simplifies_createSimplifiedInvariant _ _ _) rfl rfl
    (isAffine_createSimplifiedInvariant
      (isAffine_invariant_some.2 ⟨.inr rfl, hcount, (rfl : isAffine (.fetch l) = true)⟩))
    hS hS0 rfl hc

end Int32

/-- The exact value of the count is the number of iterations. -/
theorem exact_eval_tripCountExpr {range : InductionInfo t → Option (Int × Int)}
    (hrange : RangeSound range) (env : HEnv) (l u : HInstruction t) {S : Int} (hS : t.InRange S)
    {cmp : IfCondition} (hnorm : Normalized cmp S) :
    (exact env).eval (tripCountExpr range (.fetch l) (.fetch u) (createConstant S) S cmp) =
      iterations cmp (l.eval env).toInt (u.eval env).toInt S := by
  have hone : (BitVec.ofInt t.bits 1).toInt = 1 := by cases t <;> decide
  have hs : (exact env).eval (createConstant (t := t) S) = S := hS.toInt_ofInt
  rw [Meaning.eval_tripCountExpr (exactSound_exact hrange env) (by rw [hone]), hs]
  -- the adjustment of the bound cancels with a unit stride of the sign of the test
  rcases hnorm with ⟨hpos, rfl | rfl⟩ | ⟨hneg, rfl | rfl⟩ <;>
    simp only [exact, Meaning.eval, iterations, inclusiveBound, id, reduceCtorEq, or_true,
      or_false, true_and, false_and, if_true, if_false] <;>
    split_ifs <;> congr 1 <;> omega

/-- Outside the body, the code `GenerateCode` emits for the largest value of a trip count without
overflow is the code of its count. -/
theorem generateCode_tripCount {range : InductionInfo t → Option (Int × Int)} {context : Context}
    (hctx : context ≠ .body) {isTaken isFinite : Bool} {count takenTest : InductionInfo t}
    {c : HCode t}
    (h : generateCode range context false false
      (createTripCount (tripCountKind isTaken isFinite) count takenTest) = some c) :
    generateCode range context false false count = some c := by
  cases context with
  | body => exact absurd rfl hctx
  | header =>
    cases isTaken <;> cases isFinite <;>
      simpa [createTripCount, tripCountKind, generateCode, useFullTripCount, Context.isInBody]
        using h
  | after exitDominates =>
    -- where the exit does not dominate, there is no code
    cases exitDominates <;> cases isTaken <;> cases isFinite <;>
      simp [createTripCount, tripCountKind, generateCode, useFullTripCount, Context.isInBody]
        at h ⊢ <;> exact h

/-- What `GenerateLastValueLinear` returns: `result`, the code of `a * TC + b` for the exact stride
`a`, or, when a taken test is needed, `result` selected by the code of the trip count's taken
test. -/
theorem generateLastValueLinear_eq_some {range : InductionInfo t → Option (Int × Int)}
    {context : Context} {info : Linear t} {trip : InductionInfo t} {isMin needsTakenTest : Bool}
    {code : HCode t} {needs : Bool}
    (h : generateLastValueLinear range context info trip isMin needsTakenTest =
      some (code, needs)) :
    ∃ strideValue opa opb result, isExact range info.opA = some strideValue ∧
      generateCode range context (if strideValue ≥ 0 then isMin else !isMin) false trip =
        some opa ∧
      generateCode range context isMin true info.opB = some opb ∧
      result = (if strideValue = 1 then HCode.add opa opb
        else if strideValue = -1 then .sub opb opa
        else .add (.mul (.constant strideValue) opa) opb) ∧
      (needsTakenTest = false → code = result) ∧
      (needsTakenTest = true → ∃ op count takenTest isTaken,
        trip = .invariant op count takenTest ∧
        generateCode range context false true takenTest = some isTaken ∧
        code = .select isTaken result opb) := by
  simp only [generateLastValueLinear, Option.bind_eq_bind, Option.bind_eq_some_iff] at h
  obtain ⟨S, hS, h⟩ := h
  cases hfit : canLongValueFitIntoInt S
  · simp [hfit] at h
  simp only [hfit, Bool.not_true, Bool.false_eq_true, if_false, Option.bind_eq_some_iff] at h
  obtain ⟨opa, hopa, opb, hopb, h⟩ := h
  refine ⟨S, opa, opb, _, hS, hopa, hopb, rfl, fun hn => ?_, fun hn => ?_⟩
  · simp only [hn, Bool.false_eq_true, if_false, Option.pure_def, Option.some.injEq,
      Prod.mk.injEq] at h
    exact h.1.symm
  · simp only [hn, if_true] at h
    split at h
    · rename_i op count takenTest
      rw [Option.bind_eq_some_iff] at h
      obtain ⟨r, hr, h⟩ := h
      obtain ⟨isTaken, hgen, rfl⟩ := Option.map_eq_some_iff.1 hr
      simp only [Option.pure_def, Option.some.injEq, Prod.mk.injEq] at h
      exact ⟨op, count, takenTest, isTaken, rfl, hgen, h.1.symm⟩
    · cases h

/-- `a * TC + b` as `GenerateLastValueLinear` emits it computes `b + TC * a`. -/
theorem eval_linearResult (env : HEnv) {opa opb : HCode t} {S k : Int} {b : BitVec t.bits}
    (ha : opa.eval env = BitVec.ofInt t.bits k) (hb : opb.eval env = b) :
    (if S = 1 then HCode.add opa opb
      else if S = -1 then .sub opb opa
      else .add (.mul (.constant S) opa) opb).eval env = BitVec.ofInt t.bits (b.toInt + k * S) := by
  split_ifs with h1 hm1
  · rw [HCode.eval, ha, hb, h1, Int.mul_one, BitVec.ofInt_add, BitVec.ofInt_toInt, BitVec.add_comm]
  · rw [HCode.eval, ha, hb, hm1, Int.mul_neg_one, ← Int.sub_eq_add_neg, ofInt_sub,
      BitVec.ofInt_toInt]
  · rw [HCode.eval, HCode.eval, HCode.eval, ha, hb, BitVec.ofInt_add, BitVec.ofInt_toInt,
      BitVec.add_comm, BitVec.ofInt_mul, BitVec.mul_comm]

/-- For a loop over `int` that is taken and whose bound satisfies `IsFinite`'s rule, the last value
of `i` that `GenerateLastValueLinear` emits outside the body, when it succeeds, is the value with
which the loop exits. -/
theorem generateLastValueLinear_int32 {range : InductionInfo .int32 → Option (Int × Int)}
    (hrange : RangeSound range) (env : HEnv) {context : Context} (hctx : context ≠ .body)
    {l u : HInstruction .int32} {s : BitVec 32} {cmp : IfCondition}
    (hnorm : Normalized cmp s.toInt)
    (htaken : cmp.Holds .int32 (l.eval env).toInt (u.eval env).toInt)
    (hfin : FiniteRule .int32 cmp s.toInt (u.eval env).toInt) {trip : InductionInfo .int32}
    (htrip : visitTripCount range (.fetch l) (.fetch u) (createConstant s.toInt) s.toInt cmp =
      some trip)
    {code : HCode .int32} {needsTakenTest : Bool}
    (hcode : generateLastValueLinear range context ⟨createConstant s.toInt, .fetch l⟩ trip
      (!decide (0 < s.toInt)) (isBodyTripCount trip) = some (code, needsTakenTest)) :
    ∀ fuel, (iterations cmp (l.eval env).toInt (u.eval env).toInt s.toInt).toNat < fuel →
      loopRun cmp (u.eval env) s fuel (l.eval env) =
        some ((iterations cmp (l.eval env).toInt (u.eval env).toInt s.toInt).toNat,
          code.eval env) := by
  obtain ⟨op, hop, rfl⟩ := visitTripCount_eq_some htrip
  obtain ⟨S, opa, opb, result, hS, hopa, hopb, rfl, hfree, htest⟩ :=
    generateLastValueLinear_eq_some hcode
  have hSs : S = s.toInt := by
    rw [isExact, isConstant_createConstant, BitVec.ofInt_toInt, Option.some.injEq] at hS
    exact hS.symm
  subst hSs
  have hS0 : s.toInt ≠ 0 := by rcases hnorm with ⟨h, -⟩ | ⟨h, -⟩ <;> omega
  -- the trip count is generated from its largest value, the full count
  have hmax : (if s.toInt ≥ 0 then !decide (0 < s.toInt) else !!decide (0 < s.toInt)) = false := by
    split_ifs <;> simp only [Bool.not_not, Bool.not_eq_false', decide_eq_true_eq,
      decide_eq_false_iff_not] <;> omega
  rw [hmax] at hopa
  have hva : opa.eval env = BitVec.ofInt 32 (iterations cmp (l.eval env).toInt (u.eval env).toInt
      s.toInt) := by
    rw [eval_generateCode_tripCountExpr hrange env context l u (inRange_toInt s) hS0 cmp
      (generateCode_tripCount hctx hopa), exact_eval_tripCountExpr hrange env l u (inRange_toInt s)
      hnorm]
  cases hopb
  obtain ⟨h0, -⟩ := iterations_lt (inRange_toInt _) (inRange_toInt _) hnorm htaken hfin
  have hresult := eval_linearResult env (S := s.toInt) hva
    (rfl : (HCode.fetch l).eval env = l.eval env)
  rw [← Int.toNat_of_nonneg h0] at hresult
  -- a taken test, when needed, holds in this execution
  have hcode_eval : code.eval env = (if s.toInt = 1 then HCode.add opa (.fetch l)
      else if s.toInt = -1 then .sub (.fetch l) opa
      else .add (.mul (.constant s.toInt) opa) (.fetch l)).eval env := by
    cases hbody : isBodyTripCount (createTripCount (tripCountKind (isTaken range (.fetch l)
        (.fetch u) cmp) (isFinite range (.fetch u) s.toInt cmp))
        (tripCountExpr range (.fetch l) (.fetch u) (createConstant s.toInt) s.toInt cmp)
        (createSimplifiedInvariant range op (some (.fetch l)) (.fetch u))) with
    | false => rw [hfree hbody]
    | true =>
      obtain ⟨op', count', takenTest', isTaken', htrip', hgen, rfl⟩ := htest hbody
      simp only [createTripCount, InductionInfo.invariant.injEq] at htrip'
      obtain ⟨-, -, rfl⟩ := htrip'
      rw [HCode.eval, if_pos (eval_takenTest_ne_zero hrange env hop htaken hgen)]
  intro fuel hfuel
  rw [(loopRun_eq hnorm htaken hfin).2 fuel hfuel, hcode_eval, hresult]
  rfl

/-! ## `long` loops -/

/-- `CreateSimplifiedInvariant` leaves `a - b` as it is when `b` is exact and not zero. -/
theorem createSimplifiedInvariant_sub {range : InductionInfo t → Option (Int × Int)}
    {a b : InductionInfo t} {v : Int} (hb : isExact range b = some v) (hv : v ≠ 0) :
    createSimplifiedInvariant range .sub (some a) b = .invariant .sub (some a) b := by
  rw [createSimplifiedInvariant.eq_def]
  rcases ha : isExact range a with _ | va <;> simp [ha, hb, hv]

/-- `CreateSimplifiedInvariant` gives `a` for `a / b` when `b` is exactly one. -/
theorem createSimplifiedInvariant_div_one {range : InductionInfo t → Option (Int × Int)}
    {a b : InductionInfo t} (hb : isExact range b = some 1) :
    createSimplifiedInvariant range .div (some a) b = a := by
  rw [createSimplifiedInvariant.eq_def]
  rcases ha : isExact range a with _ | va <;> simp [ha, hb]

/-- Where the full trip count is used, the code of a trip count in the loop is that of its count. -/
theorem generateCode_tripCountInLoop {range : InductionInfo t → Option (Int × Int)}
    {context : Context} {isMin : Bool} (hctx : useFullTripCount context isMin = true)
    (allowPotentialOverflow : Bool) (count takenTest : InductionInfo t) :
    generateCode range context isMin allowPotentialOverflow
        (.invariant .tripCountInLoop (some count) takenTest) =
      generateCode range context isMin allowPotentialOverflow count := by
  simp only [generateCode, hctx, if_true]

/-- `for (long i = l; i < u; i++)` exits with `i = u`, but the last value `GenerateLastValue` emits
for `i` after the loop is `l + ((int) u - (int) l)`: the fold of `TryGenerateSubWithoutOverflow`
narrows both bounds to `int` (`Value(int32_t)`). The count is `u - l` when `l` is not zero. -/
theorem generateLastValue_int64_narrowed (range : InductionInfo .int64 → Option (Int × Int))
    {context : Context} (hctx : useFullTripCount context false = true) {l u : BitVec 64}
    (hl0 : l.toInt ≠ 0) (hlu : l.toInt < u.toInt)
    (hfit : canLongValueFitIntoInt (toInt32 u.toInt - toInt32 l.toInt) = true) :
    ∃ trip code,
      visitTripCount range (.fetch (.constant .int64 l)) (.fetch (.constant .int64 u))
        (createConstant 1) 1 .lt = some trip ∧
      generateLastValue range context ⟨createConstant 1, .fetch (.constant .int64 l)⟩ trip =
        some code ∧
      (∀ env, code.eval env = BitVec.ofInt 64 (l.toInt + (toInt32 u.toInt - toInt32 l.toInt))) ∧
      ∀ fuel, (u.toInt - l.toInt).toNat < fuel →
        loopRun (t := .int64) .lt u 1 fuel l = some ((u.toInt - l.toInt).toNat, u) := by
  have hone : isExact range (createConstant (t := .int64) 1) = some 1 := rfl
  -- the unit stride cancels the adjustment of the bound, and the division by one goes
  have hcount : tripCountExpr range (.fetch (.constant .int64 l)) (.fetch (.constant .int64 u))
      (createConstant 1) 1 .lt =
      .invariant .sub (some (.fetch (.constant .int64 u))) (.fetch (.constant .int64 l)) := by
    simp only [tripCountExpr]
    rw [if_pos (by decide), createSimplifiedInvariant_sub rfl hl0,
      createSimplifiedInvariant_div_one hone]
  have hkind : tripCountKind (isTaken range (.fetch (.constant .int64 l))
      (.fetch (.constant .int64 u)) .lt) (isFinite range (.fetch (.constant .int64 u)) 1 .lt) =
      .tripCountInLoop := by
    simp [tripCountKind, isTaken, isFinite, isAtMost, isAtLeast, isConstant, hlu]
  -- both bounds are constants: the count folds to the difference of their narrowings
  have hsub : tryGenerateSubWithoutOverflow range (.fetch (.constant .int64 u))
      (.fetch (.constant .int64 l)) (.fetch (.constant .int64 u)) =
      some (.constant (toInt32 u.toInt - toInt32 l.toInt)) := by
    simp [tryGenerateSubWithoutOverflow, isExact, isConstant, subValue, hfit]
  refine ⟨_, .add (.constant (toInt32 u.toInt - toInt32 l.toInt)) (.fetch (.constant .int64 l)),
    rfl, ?_, fun env => ?_, fun fuel hfuel => ?_⟩
  · -- the full trip count is the count, which folds
    have hopa : generateCode range context false false (.invariant .tripCountInLoop
        (some (.invariant .sub (some (.fetch (.constant .int64 u))) (.fetch (.constant .int64 l))))
        (createSimplifiedInvariant range .lt (some (.fetch (.constant .int64 l)))
          (.fetch (.constant .int64 u)))) =
        some (.constant (toInt32 u.toInt - toInt32 l.toInt)) := by
      rw [generateCode_tripCountInLoop hctx, generateCode_sub_of_not_allow]
      exact hsub
    simp [generateLastValue, generateLastValueLinear, hone, hkind, hcount, hopa, isBodyTripCount,
      createTripCount, isUnsafeTripCount, canLongValueFitIntoInt, generateCode_fetch]
  · rw [HCode.eval, HCode.eval, HCode.eval, HInstruction.eval, BitVec.ofInt_add,
      BitVec.ofInt_toInt, BitVec.add_comm]
  · -- the loop runs `u - l` times and exits with `i = u`
    have hs : (1 : BitVec 64).toInt = 1 := by decide
    have hnorm : Normalized .lt (1 : BitVec IntType.int64.bits).toInt := .inl ⟨by decide, .inl rfl⟩
    have hfin : FiniteRule .int64 .lt (1 : BitVec IntType.int64.bits).toInt u.toInt := .inl hs
    obtain ⟨-, hloop⟩ := loopRun_eq hnorm hlu hfin
    have hiter : iterations .lt l.toInt u.toInt (1 : BitVec 64).toInt = u.toInt - l.toInt := by
      rw [hs, iterations, inclusiveBound, Int.tdiv_one]
      omega
    rw [hiter] at hloop
    rw [hloop fuel hfuel, Int.toNat_of_nonneg (by omega), hs, Int.mul_one,
      show l.toInt + (u.toInt - l.toInt) = u.toInt by omega, BitVec.ofInt_toInt]

/-- `for (long i = 1; i < 4294967296L; i++)` exits with `i = 4294967296`, and the last value
generated for `i` is `0`. -/
theorem generateLastValue_int64_narrowed_two_pow_32 :
    ∃ trip code,
      visitTripCount (fun _ => none) (.fetch (.constant .int64 1))
        (.fetch (.constant .int64 (2 ^ 32))) (createConstant 1) 1 .lt = some trip ∧
      generateLastValue (fun _ => none) .header ⟨createConstant 1, .fetch (.constant .int64 1)⟩
        trip = some code ∧
      (∀ env, code.eval env = 0) ∧
      ∀ fuel, 2 ^ 32 - 1 < fuel →
        loopRun (t := .int64) .lt (2 ^ 32) 1 fuel 1 = some (2 ^ 32 - 1, 2 ^ 32) := by
  obtain ⟨trip, code, htrip, hcode, hval, hloop⟩ :=
    generateLastValue_int64_narrowed (fun _ => none) (rfl : useFullTripCount .header false = true)
      (l := 1) (u := 2 ^ 32) (by decide) (by decide) (by decide)
  have hn : ((2 ^ 32 : BitVec 64).toInt - (1 : BitVec 64).toInt).toNat = 2 ^ 32 - 1 := by decide
  rw [hn] at hloop
  exact ⟨trip, code, htrip, hcode, fun env => by rw [hval]; decide, hloop⟩

end InductionVarRange

end Art
