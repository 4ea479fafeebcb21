import Art.Compiler.Graph
import Art.Lib.CountedLoop
import Mathlib.Data.Int.Bitwise

/-!
# Trip counts of the induction variable analysis (`compiler/optimizing/induction_var_analysis.cc`)

For a loop `for (i = L; i cmp U; i += S)` whose control compares the linear induction `i` with an
invariant `U`, `VisitTripCount` builds the trip count `(U' + S - L) / S` as an invariant
expression (`InductionInfo`), where `U'` is `U - 1` for `<` and `U + 1` for `>` unless the stride
is a unit and the two cancel. Every operation goes through `CreateSimplifiedInvariant`, whose
simplifications read exact values from range analysis (`InductionVarRange::IsConstant`). The
trip count is tagged with what the analysis proved: taken (`IsTaken`) and finite (`IsFinite`).

Range analysis itself is not modelled: `isConstant` takes the bounds it finds as a function
`range`, and the results assume only what it guarantees (`RangeSound`).

* `Simplifies` lists what `CreateSimplifiedInvariant` may return (`simplifies_createSimplifiedInvariant`).
  Every simplification keeps the value of the expression, for every meaning of the operations
  with the identities the simplifications use (`Meaning.eval_createSimplifiedInvariant`): the Java
  values (`wrapping`) and the exact integers (`exact`) are two such meanings.
* `loopRun` is the loop itself. If it is taken and `IsFinite`'s rule holds of its bound, it runs
  `iterations` times and `i` never wraps (`loopRun_eq`).
* The Java value of the trip count is `(U' + S - L) / S` computed with wrapping and truncating
  division (`wrapping_eval_tripCountExpr`). Read unsigned, it is the number of iterations when
  the stride is a unit or the numerator does not wrap (`toNat_tripCount`); the code generated
  for it, and a loop whose numerator wraps, are in `Art.Compiler.InductionVarRange`.
-/

namespace Art

namespace IntType

/-- `MaxValueOfIntegralType`. -/
def maxValue (t : IntType) : Int := 2 ^ (t.bits - 1) - 1

theorem inRange_iff (t : IntType) (x : Int) : t.InRange x ↔ t.minValue ≤ x ∧ x ≤ t.maxValue := by
  unfold InRange minValue maxValue
  omega

end IntType

/-- The comparisons of values can be decided. -/
instance IfCondition.decidableHolds (t : IntType) :
    (c : IfCondition) → (x y : Int) → Decidable (c.Holds t x y)
  | .eq, x, y => inferInstanceAs (Decidable (x = y))
  | .ne, x, y => inferInstanceAs (Decidable (x ≠ y))
  | .lt, x, y => inferInstanceAs (Decidable (x < y))
  | .le, x, y => inferInstanceAs (Decidable (x ≤ y))
  | .gt, x, y => inferInstanceAs (Decidable (x > y))
  | .ge, x, y => inferInstanceAs (Decidable (x ≥ y))
  | .b, x, y => inferInstanceAs (Decidable (x % 2 ^ t.bits < y % 2 ^ t.bits))
  | .be, x, y => inferInstanceAs (Decidable (x % 2 ^ t.bits ≤ y % 2 ^ t.bits))
  | .a, x, y => inferInstanceAs (Decidable (x % 2 ^ t.bits > y % 2 ^ t.bits))
  | .ae, x, y => inferInstanceAs (Decidable (x % 2 ^ t.bits ≥ y % 2 ^ t.bits))

namespace HInductionVarAnalysis

/-- `InductionOp`: the operations of invariant expressions and the kinds of trip count (`kNop`
never labels an invariant; `kFetch` is the constructor `InductionInfo.fetch`). -/
inductive InductionOp where
  | add | sub | neg | mul | div | rem | xor
  | lt | le | gt | ge
  | tripCountInLoop | tripCountInBody | tripCountInLoopUnsafe | tripCountInBodyUnsafe
  deriving DecidableEq, Repr

/-- An `InductionInfo` of class `kInvariant` and type `t`: a fetch of an instruction defined
outside the loop, or an operation with its operands `op_a` (absent for `kNeg`) and `op_b`. A trip
count is the operation `kTripCount...` on the count and the taken test. -/
inductive InductionInfo (t : IntType) where
  | fetch (instruction : HInstruction t)
  | invariant (operation : InductionOp) (opA : Option (InductionInfo t)) (opB : InductionInfo t)
  deriving Repr

variable {t : IntType}

theorem InductionInfo.sizeOf_pos (x : InductionInfo t) : 0 < sizeOf x := by
  cases x <;> simp only [InductionInfo.fetch.sizeOf_spec, InductionInfo.invariant.sizeOf_spec] <;>
    omega

/-- `InductionVarRange::ConstantRequest`. -/
inductive ConstantRequest where
  | exact | atMost | atLeast
  deriving DecidableEq, Repr

/-- `InductionVarRange::IsConstant`: a fetch of a constant (`IsInt64AndGet`) satisfies every
request; otherwise range analysis gives the expression's smallest and largest values,
`range info`, when both are constants (`GetVal`, not modelled). -/
def isConstant (range : InductionInfo t → Option (Int × Int)) (request : ConstantRequest)
    (info : InductionInfo t) : Option Int :=
  match info with
  | .fetch (.constant _ v) => some v.toInt
  | _ =>
    match range info with
    | some (minVal, maxVal) =>
      if minVal ≤ maxVal then
        if (request = .exact ∧ minVal = maxVal) ∨ request = .atMost then some maxVal
        else if request = .atLeast then some minVal else none
      else none
    | none => none

section Analysis

variable (range : InductionInfo t → Option (Int × Int))

/-- `IsExact`. -/
def isExact (info : InductionInfo t) : Option Int := isConstant range .exact info

/-- `IsAtMost`. -/
def isAtMost (info : InductionInfo t) : Option Int := isConstant range .atMost info

/-- `IsAtLeast`. -/
def isAtLeast (info : InductionInfo t) : Option Int := isConstant range .atLeast info

/-- `CreateSimplifiedInvariant` (and `CreateInvariantOp`, which only checks that `op_a` is absent
exactly for `kNeg`): light simplifications while the expression is built. -/
def createSimplifiedInvariant (op : InductionOp) (a : Option (InductionInfo t))
    (b : InductionInfo t) : InductionInfo t :=
  -- 0 + b = b, 0 ^ b = b, 0 * b = 0, 1 * b = b, -1 * b = -b
  let onA : Option (InductionInfo t) :=
    match a with
    | some x =>
      match isExact range x with
      | some value =>
        if value = 0 then
          if op = .add ∨ op = .xor then some b else if op = .mul then some x else none
        else if op = .mul then
          if value = 1 then some b
          else if value = -1 then some (createSimplifiedInvariant .neg none b) else none
        else none
      | none => none
    | none => none
  -- a + 0 = a, a - 0 = a, a ^ 0 = a, a * 0 = 0, -0 = 0, a * 1 = a, a / 1 = a, a * -1 = -a,
  -- a / -1 = -a; and when `b` is not exact, a + (-b) = a - b, a - (-b) = a + b, -(-b) = b,
  -- -(a - b) = b - a
  let onB : Option (InductionInfo t) :=
    match isExact range b with
    | some value =>
      if value = 0 then
        if op = .add ∨ op = .sub ∨ op = .xor then a
        else if op = .mul ∨ op = .neg then some b else none
      else if op = .mul ∨ op = .div then
        if value = 1 then a
        else if value = -1 then
          match a with
          | some x => some (createSimplifiedInvariant .neg none x)
          | none => none
        else none
      else none
    | none =>
      match b with
      | .invariant .neg _ c =>
        if op = .add then some (createSimplifiedInvariant .sub a c)
        else if op = .sub then some (createSimplifiedInvariant .add a c)
        else if op = .neg then some c else none
      | .invariant .sub (some x) y =>
        if op = .neg then some (createSimplifiedInvariant .sub (some y) x) else none
      | _ => none
  onA.getD (onB.getD (.invariant op a b))
termination_by sizeOf a + sizeOf b
decreasing_by
  all_goals simp_wf
  all_goals first | omega | exact InductionInfo.sizeOf_pos _

/-- `CreateConstant`: a fetch of the `int` or `long` constant. -/
def createConstant (value : Int) : InductionInfo t :=
  .fetch (.constant t (BitVec.ofInt t.bits value))

/-- `CreateTripCount`. -/
def createTripCount (op : InductionOp) (a b : InductionInfo t) : InductionInfo t :=
  .invariant op (some a) b

/-- `IsTaken`: the loop test holds on entry for every value the bounds can have. -/
def isTaken (lowerExpr upperExpr : InductionInfo t) (cmp : IfCondition) : Bool :=
  match cmp, isAtMost range lowerExpr, isAtLeast range upperExpr,
      isAtLeast range lowerExpr, isAtMost range upperExpr with
  | .lt, some lowerValue, some upperValue, _, _ => decide (lowerValue < upperValue)
  | .le, some lowerValue, some upperValue, _, _ => decide (lowerValue ≤ upperValue)
  | .gt, _, _, some lowerValue, some upperValue => decide (lowerValue > upperValue)
  | .ge, _, _, some lowerValue, some upperValue => decide (lowerValue ≥ upperValue)
  | _, _, _, _, _ => false

/-- `IsFinite`: rules under which `i` reaches the bound without passing the largest (smallest)
value of the type. -/
def isFinite (upperExpr : InductionInfo t) (strideValue : Int) (cmp : IfCondition) : Bool :=
  match cmp with
  | .lt => strideValue = 1 ||
      (isAtMost range upperExpr).any fun value => value ≤ t.maxValue - strideValue + 1
  | .le => (isAtMost range upperExpr).any fun value => value ≤ t.maxValue - strideValue
  | .gt => strideValue = -1 ||
      (isAtLeast range upperExpr).any fun value => value ≥ t.minValue - strideValue - 1
  | .ge => (isAtLeast range upperExpr).any fun value => value ≥ t.minValue - strideValue
  | _ => false

/-- The operation of the taken test of a loop condition (the other conditions never reach
`VisitTripCount`). -/
def takenTestOp : IfCondition → Option InductionOp
  | .lt => some .lt
  | .le => some .le
  | .gt => some .gt
  | .ge => some .ge
  | _ => none

/-- The count `VisitTripCount` builds, `(U' + S - L) / S`. -/
def tripCountExpr (lowerExpr upperExpr strideExpr : InductionInfo t) (strideValue : Int)
    (cmp : IfCondition) : InductionInfo t :=
  let cancels := (cmp = .lt ∨ cmp = .gt) ∧ strideValue.natAbs = 1
  let tripCount :=
    if cancels then upperExpr
    else
      -- i < U is i <= U - 1 and i > U is i >= U + 1; then compensate for the stride
      let tripCount :=
        if cmp = .lt then createSimplifiedInvariant range .sub (some upperExpr) (createConstant 1)
        else if cmp = .gt then
          createSimplifiedInvariant range .add (some upperExpr) (createConstant 1)
        else upperExpr
      createSimplifiedInvariant range .add (some tripCount) strideExpr
  let tripCount := createSimplifiedInvariant range .sub (some tripCount) lowerExpr
  createSimplifiedInvariant range .div (some tripCount) strideExpr

/-- The kind of trip count `VisitTripCount` assigns, from what `IsTaken` and `IsFinite` proved. -/
def tripCountKind (isTaken isFinite : Bool) : InductionOp :=
  if isTaken ∧ isFinite then .tripCountInLoop
  else if isFinite then .tripCountInBody
  else if isTaken then .tripCountInLoopUnsafe
  else .tripCountInBodyUnsafe

/-- `VisitTripCount`: the trip count of the loop control, with the test it needs. -/
def visitTripCount (lowerExpr upperExpr strideExpr : InductionInfo t) (strideValue : Int)
    (cmp : IfCondition) : Option (InductionInfo t) := do
  let op ← takenTestOp cmp
  let takenTest := createSimplifiedInvariant range op (some lowerExpr) upperExpr
  pure (createTripCount
    (tripCountKind (isTaken range lowerExpr upperExpr cmp)
      (isFinite range upperExpr strideValue cmp))
    (tripCountExpr range lowerExpr upperExpr strideExpr strideValue cmp) takenTest)

end Analysis

/-! ## What the simplifications may return -/

section Simplifies

variable {range : InductionInfo t → Option (Int × Int)}

/-- What `CreateSimplifiedInvariant` may return for `op a b`: one of its simplifications, each
under the exact values it tests, or the operation itself. -/
inductive Simplifies (range : InductionInfo t → Option (Int × Int)) :
    InductionOp → Option (InductionInfo t) → InductionInfo t → InductionInfo t → Prop
  | zero_add_or_xor {op x b} : isExact range x = some 0 → op = .add ∨ op = .xor →
      Simplifies range op (some x) b b
  | zero_mul {x b} : isExact range x = some 0 → Simplifies range .mul (some x) b x
  | one_mul {x b} : isExact range x = some 1 → Simplifies range .mul (some x) b b
  | neg_one_mul {x b r} : isExact range x = some (-1) → Simplifies range .neg none b r →
      Simplifies range .mul (some x) b r
  | add_sub_or_xor_zero {op x b} : isExact range b = some 0 → op = .add ∨ op = .sub ∨ op = .xor →
      Simplifies range op (some x) b x
  | mul_or_neg_zero {op a b} : isExact range b = some 0 → op = .mul ∨ op = .neg →
      Simplifies range op a b b
  | mul_or_div_one {op x b} : isExact range b = some 1 → op = .mul ∨ op = .div →
      Simplifies range op (some x) b x
  | mul_or_div_neg_one {op x b r} : isExact range b = some (-1) → op = .mul ∨ op = .div →
      Simplifies range .neg none x r → Simplifies range op (some x) b r
  | add_neg {a y c r} : Simplifies range .sub a c r →
      Simplifies range .add a (.invariant .neg y c) r
  | sub_neg {a y c r} : Simplifies range .add a c r →
      Simplifies range .sub a (.invariant .neg y c) r
  | neg_neg {a y c} : Simplifies range .neg a (.invariant .neg y c) c
  | neg_sub {a x y r} : Simplifies range .sub (some y) x r →
      Simplifies range .neg a (.invariant .sub (some x) y) r
  | self {op a b} : Simplifies range op a b (.invariant op a b)

theorem prop_getD {α : Type} {P : α → Prop} {o : Option α} {d : α}
    (h : ∀ r, o = some r → P r) (hd : P d) : P (o.getD d) := by
  cases o with
  | none => exact hd
  | some r => exact h r rfl

/-- `CreateSimplifiedInvariant` returns one of its simplifications or the operation. -/
theorem simplifies_createSimplifiedInvariant (op : InductionOp) (a : Option (InductionInfo t))
    (b : InductionInfo t) : Simplifies range op a b (createSimplifiedInvariant range op a b) := by
  induction hn : sizeOf a + sizeOf b using Nat.strong_induction_on generalizing op a b with
  | _ n ih =>
  subst hn
  rw [createSimplifiedInvariant.eq_def]
  refine prop_getD (fun r hr => ?_) (prop_getD (fun r hr => ?_) .self)
  · -- the simplifications on `a`
    obtain _ | x := a
    · cases hr
    · have hx := InductionInfo.sizeOf_pos x
      simp only at hr
      split at hr
      · rename_i value hv
        split_ifs at hr with h0 hop hmul hmul' h1 hm1 <;> cases hr
        · exact .zero_add_or_xor (h0 ▸ hv) hop
        · exact hmul ▸ .zero_mul (h0 ▸ hv)
        · exact hmul' ▸ .one_mul (h1 ▸ hv)
        · exact hmul' ▸ .neg_one_mul (hm1 ▸ hv) (ih _ (by simp only [Option.some.sizeOf_spec, Option.none.sizeOf_spec]; omega) _ _ _ rfl)
      · cases hr
  · -- the simplifications on `b`
    split at hr
    · rename_i value hv
      split_ifs at hr with h0 hop hop' hop'' h1 hm1 <;> try cases hr
      · exact .add_sub_or_xor_zero (h0 ▸ hv) hop
      · exact .mul_or_neg_zero (h0 ▸ hv) hop'
      · exact .mul_or_div_one (h1 ▸ hv) hop''
      · obtain _ | x := a
        · cases hr
        · cases hr
          exact .mul_or_div_neg_one (hm1 ▸ hv) hop''
            (ih _ (by simp only [Option.some.sizeOf_spec, Option.none.sizeOf_spec]; have := InductionInfo.sizeOf_pos b; omega) _ _ _ rfl)
    · split at hr
      · rename_i y c
        split_ifs at hr with hadd hsub hneg <;> cases hr
        · subst hadd
          exact .add_neg (ih _ (by simp only [InductionInfo.invariant.sizeOf_spec]; omega) _ _ _ rfl)
        · subst hsub
          exact .sub_neg (ih _ (by simp only [InductionInfo.invariant.sizeOf_spec]; omega) _ _ _ rfl)
        · subst hneg
          exact .neg_neg
      · rename_i x y
        split_ifs at hr with hneg
        cases hr
        subst hneg
        exact .neg_sub (ih _ (by simp only [Option.some.sizeOf_spec, InductionInfo.invariant.sizeOf_spec]; omega) _ _ _ rfl)
      · cases hr

end Simplifies

/-! ## Meanings of invariant expressions -/

/-- A meaning of invariant expressions: a value for each constant and each fetched instruction,
and each operation as a function of the values of its operands (`kNeg` is given `0` for its
absent first operand and ignores it). The other fields are the identities the simplifications
of `CreateSimplifiedInvariant` rely on. -/
structure Meaning (t : IntType) (α : Type) where
  ofInt : Int → α
  fetch : HInstruction t → α
  apply : InductionOp → α → α → α
  fetch_constant : ∀ v, fetch (.constant t v) = ofInt v.toInt
  zero_add : ∀ b, apply .add (ofInt 0) b = b
  zero_xor : ∀ b, apply .xor (ofInt 0) b = b
  zero_mul : ∀ b, apply .mul (ofInt 0) b = ofInt 0
  one_mul : ∀ b, apply .mul (ofInt 1) b = b
  neg_one_mul : ∀ b, apply .mul (ofInt (-1)) b = apply .neg (ofInt 0) b
  add_zero : ∀ a, apply .add a (ofInt 0) = a
  sub_zero : ∀ a, apply .sub a (ofInt 0) = a
  xor_zero : ∀ a, apply .xor a (ofInt 0) = a
  mul_zero : ∀ a, apply .mul a (ofInt 0) = ofInt 0
  neg_zero : ∀ a, apply .neg a (ofInt 0) = ofInt 0
  mul_one : ∀ a, apply .mul a (ofInt 1) = a
  div_one : ∀ a, apply .div a (ofInt 1) = a
  mul_neg_one : ∀ a, apply .mul a (ofInt (-1)) = apply .neg (ofInt 0) a
  div_neg_one : ∀ a, apply .div a (ofInt (-1)) = apply .neg (ofInt 0) a
  add_neg : ∀ a x c, apply .add a (apply .neg x c) = apply .sub a c
  sub_neg : ∀ a x c, apply .sub a (apply .neg x c) = apply .add a c
  neg_neg : ∀ x y c, apply .neg x (apply .neg y c) = c
  neg_sub : ∀ x a b, apply .neg x (apply .sub a b) = apply .sub b a

namespace Meaning

variable {α : Type} (σ : Meaning t α)

/-- The value of an expression. -/
def eval : InductionInfo t → α
  | .fetch f => σ.fetch f
  | .invariant op (some a) b => σ.apply op (eval a) (eval b)
  | .invariant op none b => σ.apply op (σ.ofInt 0) (eval b)

/-- The value of an operand that may be absent. -/
def evalOpA : Option (InductionInfo t) → α
  | some a => σ.eval a
  | none => σ.ofInt 0

theorem eval_invariant (op : InductionOp) (a : Option (InductionInfo t)) (b : InductionInfo t) :
    σ.eval (.invariant op a b) = σ.apply op (σ.evalOpA a) (σ.eval b) := by
  cases a <;> rfl

/-- The exact values `IsExact` reports are the values of the expressions. -/
def ExactSound (range : InductionInfo t → Option (Int × Int)) : Prop :=
  ∀ info v, isExact range info = some v → σ.eval info = σ.ofInt v

variable {σ} {range : InductionInfo t → Option (Int × Int)}

theorem eval_of_simplifies (hσ : σ.ExactSound range) {op : InductionOp}
    {a : Option (InductionInfo t)} {b r : InductionInfo t} (h : Simplifies range op a b r) :
    σ.eval r = σ.eval (.invariant op a b) := by
  induction h with
  | zero_add_or_xor hx hop =>
    rcases hop with rfl | rfl <;> simp only [eval, hσ _ _ hx, σ.zero_add, σ.zero_xor]
  | zero_mul hx => simp only [eval, hσ _ _ hx, σ.zero_mul]
  | one_mul hx => simp only [eval, hσ _ _ hx, σ.one_mul]
  | neg_one_mul hx _ ih => rw [ih]; simp only [eval, hσ _ _ hx, σ.neg_one_mul]
  | add_sub_or_xor_zero hb hop =>
    rcases hop with rfl | rfl | rfl <;> simp only [eval, hσ _ _ hb, σ.add_zero, σ.sub_zero, σ.xor_zero]
  | mul_or_neg_zero hb hop =>
    rcases hop with rfl | rfl <;> simp only [eval_invariant, hσ _ _ hb, σ.mul_zero, σ.neg_zero]
  | mul_or_div_one hb hop =>
    rcases hop with rfl | rfl <;> simp only [eval, hσ _ _ hb, σ.mul_one, σ.div_one]
  | mul_or_div_neg_one hb hop _ ih =>
    rw [ih]
    rcases hop with rfl | rfl <;> simp only [eval, hσ _ _ hb, σ.mul_neg_one, σ.div_neg_one]
  | add_neg _ ih => rw [ih, eval_invariant, eval_invariant, eval_invariant, σ.add_neg]
  | sub_neg _ ih => rw [ih, eval_invariant, eval_invariant, eval_invariant, σ.sub_neg]
  | neg_neg => rw [eval_invariant, eval_invariant, σ.neg_neg]
  | neg_sub _ ih => rw [ih]; simp only [eval_invariant, evalOpA, σ.neg_sub]
  | self => rfl

/-- `CreateSimplifiedInvariant` keeps the value of the expression it builds. -/
theorem eval_createSimplifiedInvariant (hσ : σ.ExactSound range) (op : InductionOp)
    (a : Option (InductionInfo t)) (b : InductionInfo t) :
    σ.eval (createSimplifiedInvariant range op a b) = σ.eval (.invariant op a b) :=
  eval_of_simplifies hσ (simplifies_createSimplifiedInvariant op a b)

end Meaning

/-- `ofInt (-1)` is `-1`. -/
theorem ofInt_neg_one (w : Nat) : BitVec.ofInt w (-1) = -1 := by
  rw [show (-1 : Int) = -((1 : Nat) : Int) from rfl, BitVec.ofInt_neg, BitVec.ofInt_natCast]
  rfl

theorem ofInt_one (w : Nat) : BitVec.ofInt w 1 = 1 := by
  simp

/-- Java's division by `-1` is negation, `MIN_VALUE / -1 = MIN_VALUE` included. -/
theorem sdiv_ofInt_neg_one {w : Nat} (x : BitVec w) : x.sdiv (BitVec.ofInt w (-1)) = -x := by
  have hm : BitVec.ofInt w (-1) = BitVec.allOnes w := by
    rw [ofInt_neg_one]
    exact BitVec.neg_one_eq_allOnes
  apply BitVec.eq_of_toInt_eq
  rw [hm, BitVec.toInt_sdiv, BitVec.toInt_allOnes, BitVec.toInt_neg]
  rcases w with _ | w
  · simp [BitVec.toInt_zero_length]
  · rw [if_pos (by omega), Int.tdiv_neg, Int.tdiv_one]

/-- The Java values of invariant expressions in one execution: wrapping arithmetic of `t`,
truncating division, conditions `0` or `1`, and a trip count is its count. -/
def wrapping (env : HEnv) : Meaning t (BitVec t.bits) where
  ofInt := BitVec.ofInt t.bits
  fetch f := f.eval env
  apply op a b :=
    match op with
    | .add => a + b
    | .sub => a - b
    | .neg => -b
    | .mul => a * b
    | .div => a.sdiv b
    | .rem => a.srem b
    | .xor => a ^^^ b
    | .lt => if a.slt b then 1 else 0
    | .le => if a.sle b then 1 else 0
    | .gt => if b.slt a then 1 else 0
    | .ge => if b.sle a then 1 else 0
    | _ => a
  fetch_constant v := by simp [HInstruction.eval]
  zero_add b := by simp
  zero_xor b := by simp
  zero_mul b := by simp
  one_mul b := by simp
  neg_one_mul b := by simp [ofInt_neg_one]
  add_zero a := by simp
  sub_zero a := by simp
  xor_zero a := by simp
  mul_zero a := by simp
  neg_zero a := by simp
  mul_one a := by simp
  div_one a := by simp
  mul_neg_one a := by simp [ofInt_neg_one]
  div_neg_one a := by simp only [sdiv_ofInt_neg_one]
  add_neg a x c := by simp [BitVec.sub_eq_add_neg]
  sub_neg a x c := by simp
  neg_neg x y c := by simp
  neg_sub x a b := by
    show -(a - b) = b - a
    rw [BitVec.neg_sub, BitVec.add_comm, ← BitVec.sub_eq_add_neg]

/-- The exact values of invariant expressions in one execution: integers that do not wrap,
division truncating toward zero. -/
def exact (env : HEnv) : Meaning t Int where
  ofInt := id
  fetch f := (f.eval env).toInt
  apply op a b :=
    match op with
    | .add => a + b
    | .sub => a - b
    | .neg => -b
    | .mul => a * b
    | .div => a.tdiv b
    | .rem => a.tmod b
    | .xor => Int.xor a b
    | .lt => if a < b then 1 else 0
    | .le => if a ≤ b then 1 else 0
    | .gt => if a > b then 1 else 0
    | .ge => if a ≥ b then 1 else 0
    | _ => a
  fetch_constant v := by simp [HInstruction.eval]
  zero_add b := by simp
  zero_xor b := by cases b <;> simp [Int.xor]
  zero_mul b := by simp
  one_mul b := by simp
  neg_one_mul b := by simp
  add_zero a := by simp
  sub_zero a := by simp
  xor_zero a := by cases a <;> simp [Int.xor]
  mul_zero a := by simp
  neg_zero a := by simp
  mul_one a := by simp
  div_one a := by simp
  mul_neg_one a := by simp
  div_neg_one a := by simp [Int.tdiv_neg]
  add_neg a x c := by simp [Int.sub_eq_add_neg]
  sub_neg a x c := by simp
  neg_neg x y c := by simp
  neg_sub x a b := by simp

/-- What range analysis guarantees of the constant bounds it finds: they are `int` values (its
`Value`s are 32-bit), and in every execution the exact value of the expression lies between them
and is its Java value (range analysis only combines bounds whose arithmetic does not wrap). -/
def RangeSound (range : InductionInfo t → Option (Int × Int)) : Prop :=
  ∀ info lo hi, range info = some (lo, hi) →
    IntType.int32.InRange lo ∧ IntType.int32.InRange hi ∧
      ∀ env, lo ≤ (exact env).eval info ∧ (exact env).eval info ≤ hi ∧
        (wrapping env).eval info = BitVec.ofInt t.bits ((exact env).eval info)

section Sound

variable {range : InductionInfo t → Option (Int × Int)}

/-- What a request of `IsConstant` returns bounds the exact value of the expression. -/
theorem isConstant_sound (hrange : RangeSound range) (env : HEnv) {request : ConstantRequest}
    {info : InductionInfo t} {v : Int} (h : isConstant range request info = some v) :
    (request = .exact → (exact env).eval info = v ∧
        (wrapping env).eval info = BitVec.ofInt t.bits v) ∧
      (request = .atMost → (exact env).eval info ≤ v) ∧
      (request = .atLeast → v ≤ (exact env).eval info) := by
  unfold isConstant at h
  split at h
  · -- a constant is its own value
    rename_i c
    cases h
    have hw := (wrapping env).fetch_constant c
    have he := (exact env).fetch_constant c
    simp only [Meaning.eval] at hw he ⊢
    exact ⟨fun _ => ⟨he, hw⟩, fun _ => Int.le_of_eq he, fun _ => Int.le_of_eq he.symm⟩
  · rcases hr : range info with _ | ⟨minVal, maxVal⟩ <;> simp only [hr] at h
    · cases h
    · obtain ⟨-, -, hb⟩ := hrange _ _ _ hr
      obtain ⟨hlo, hhi, hw⟩ := hb env
      split_ifs at h with hle hreq hat <;> cases h
      · refine ⟨fun hex => ?_, fun _ => hhi, fun hat' => ?_⟩
        · subst hex
          have hv : (exact env).eval info = v := by simp at hreq; omega
          exact ⟨hv, by rw [hw, hv]⟩
        · subst hat'
          simp at hreq
      · refine ⟨fun hex => ?_, fun hm => ?_, fun _ => hlo⟩
        · subst hex
          simp at hat
        · subst hm
          simp at hat

theorem exactSound_wrapping (hrange : RangeSound range) (env : HEnv) :
    (wrapping env).ExactSound range :=
  fun _ _ h => ((isConstant_sound hrange env h).1 rfl).2

theorem exactSound_exact (hrange : RangeSound range) (env : HEnv) :
    (exact env).ExactSound range :=
  fun _ _ h => ((isConstant_sound hrange env h).1 rfl).1

end Sound

/-! ## The loop -/

/-- The loop `for (i = lower; i cmp upper; i += stride)` of type `t`: the test compares signed
values and the increment wraps. It gives the number of iterations and the value of `i` that
failed the test. -/
def loopRun (cmp : IfCondition) (upper stride : BitVec t.bits) (fuel : Nat)
    (lower : BitVec t.bits) : Option (Nat × BitVec t.bits) :=
  CountedLoop.run (fun i => decide (cmp.Holds t i.toInt upper.toInt)) (· + stride) fuel lower

/-- The inclusive bound of a test: `i < U` is `i <= U - 1` and `i > U` is `i >= U + 1`. -/
def inclusiveBound (cmp : IfCondition) (u : Int) : Int :=
  match cmp with
  | .lt => u - 1
  | .gt => u + 1
  | _ => u

/-- The number of iterations of a taken loop, `(U' + S - L) / S` in exact integers. -/
def iterations (cmp : IfCondition) (l u s : Int) : Int := (inclusiveBound cmp u + s - l).tdiv s

/-- The conditions `VisitCondition` normalises a loop control to: `<` or `<=` for a positive
stride, `>` or `>=` for a negative one. -/
def Normalized (cmp : IfCondition) (s : Int) : Prop :=
  (0 < s ∧ (cmp = .lt ∨ cmp = .le)) ∨ (s < 0 ∧ (cmp = .gt ∨ cmp = .ge))

/-- `IsFinite`'s rules, on the value `u` of the bound. -/
def FiniteRule (t : IntType) (cmp : IfCondition) (s u : Int) : Prop :=
  match cmp with
  | .lt => s = 1 ∨ u ≤ t.maxValue - s + 1
  | .le => u ≤ t.maxValue - s
  | .gt => s = -1 ∨ u ≥ t.minValue - s - 1
  | .ge => u ≥ t.minValue - s
  | _ => False

theorem inRange_toInt (x : BitVec t.bits) : t.InRange x.toInt :=
  ⟨BitVec.le_toInt x, BitVec.toInt_lt⟩

/-- When `IsFinite` holds of a bound that range analysis bounds soundly, its rule holds of the
bound's value. -/
theorem finiteRule_of_isFinite {range : InductionInfo t → Option (Int × Int)}
    (hrange : RangeSound range) (env : HEnv) {u : HInstruction t} {s : Int} {cmp : IfCondition}
    (h : isFinite range (.fetch u) s cmp = true) : FiniteRule t cmp s (u.eval env).toInt := by
  have hmost : ∀ v, isAtMost range (.fetch u) = some v → (u.eval env).toInt ≤ v :=
    fun _ hv => (isConstant_sound hrange env hv).2.1 rfl
  have hleast : ∀ v, isAtLeast range (.fetch u) = some v → v ≤ (u.eval env).toInt :=
    fun _ hv => (isConstant_sound hrange env hv).2.2 rfl
  cases cmp <;> simp only [isFinite, Bool.or_eq_true, decide_eq_true_eq, Option.any_eq_true,
    Bool.false_eq_true] at h <;> simp only [FiniteRule]
  · rcases h with h | ⟨v, hv, hle⟩
    · exact .inl h
    · exact .inr (Int.le_trans (hmost v hv) hle)
  · obtain ⟨v, hv, hle⟩ := h
    exact Int.le_trans (hmost v hv) hle
  · rcases h with h | ⟨v, hv, hge⟩
    · exact .inl h
    · exact .inr (Int.le_trans hge (hleast v hv))
  · obtain ⟨v, hv, hge⟩ := h
    exact Int.le_trans hge (hleast v hv)

/-- The terms of an increasing progression that do not pass `u'`, counted by `VisitTripCount`'s
formula. -/
theorem add_mul_le_iff_lt_tdiv {l u' s : Int} (hs : 0 < s) (hlu : l ≤ u') (k : Nat) :
    l + k * s ≤ u' ↔ k < ((u' + s - l).tdiv s).toNat := by
  have hq : 0 ≤ (u' - l) / s := Int.ediv_nonneg (by omega) (by omega)
  have hcount : ((u' + s - l).tdiv s).toNat = ((u' - l) / s).toNat + 1 := by
    rw [Int.tdiv_eq_ediv_of_nonneg (by omega), show u' + s - l = (u' - l) + 1 * s by omega,
      Int.add_mul_ediv_right _ _ (by omega)]
    omega
  rw [hcount]
  exact CountedLoop.add_mul_le_iff hs hlu k

/-- Up to the `n`-th, the terms of an increasing progression stay within one stride of `u'`. -/
theorem add_mul_le_of_le_tdiv {l u' s : Int} (hs : 0 < s) (hlu : l ≤ u') {k : Nat}
    (hk : k ≤ ((u' + s - l).tdiv s).toNat) : l ≤ l + k * s ∧ l + k * s ≤ u' + s := by
  have hc := add_mul_le_iff_lt_tdiv hs hlu
  have hpos := (hc 0).1 (by omega)
  obtain ⟨m, hm⟩ : ∃ m, ((u' + s - l).tdiv s).toNat = m + 1 := ⟨_, (Nat.succ_pred_eq_of_pos hpos).symm⟩
  -- the last term that passes the test is the `m`-th, and the `k`-th is at most one stride past
  have hlast := (hc m).2 (by omega)
  have hks : (k : Int) * s ≤ m * s + s := by
    have := Int.mul_le_mul_of_nonneg_right (show (k : Int) ≤ m + 1 by omega) (Int.le_of_lt hs)
    rwa [Int.add_mul, Int.one_mul] at this
  have hk0 : 0 ≤ (k : Int) * s := Int.mul_nonneg (by omega) (Int.le_of_lt hs)
  omega

/-- The same for a decreasing progression and a lower bound. -/
theorem le_add_mul_iff_lt_tdiv {l u' s : Int} (hs : s < 0) (hlu : u' ≤ l) (k : Nat) :
    u' ≤ l + k * s ↔ k < ((u' + s - l).tdiv s).toNat := by
  have h := add_mul_le_iff_lt_tdiv (show 0 < -s by omega) (show -l ≤ -u' by omega) k
  rw [show -u' + -s - -l = -(u' + s - l) by omega, Int.neg_tdiv_neg, Int.mul_neg] at h
  rw [← h]
  omega

theorem le_add_mul_of_le_tdiv {l u' s : Int} (hs : s < 0) (hlu : u' ≤ l) {k : Nat}
    (hk : k ≤ ((u' + s - l).tdiv s).toNat) : u' + s ≤ l + k * s ∧ l + k * s ≤ l := by
  have h := @add_mul_le_of_le_tdiv (-l) (-u') (-s) (by omega) (by omega) k
    (by rwa [show -u' + -s - -l = -(u' + s - l) by omega, Int.neg_tdiv_neg])
  rw [Int.mul_neg] at h
  omega

section Progression

variable {cmp : IfCondition} {l u s : Int}

/-- The values `i` takes, in exact integers: up to the `n`-th they lie in `t`, and the test holds
of the `k`-th exactly when `k < n`, for `n` the number of iterations. -/
theorem progression (hl : t.InRange l) (hu : t.InRange u) (hnorm : Normalized cmp s)
    (htaken : cmp.Holds t l u) (hfin : FiniteRule t cmp s u) (k : Nat) :
    (k ≤ (iterations cmp l u s).toNat → t.InRange (l + k * s)) ∧
      (cmp.Holds t (l + k * s) u ↔ k < (iterations cmp l u s).toNat) := by
  rw [t.inRange_iff] at hl hu
  simp only [t.inRange_iff]
  -- the test is `i <= u'` or `u' <= i` for the inclusive bound `u'`, which the finite rule keeps
  -- one stride away from the end of the type
  rcases hnorm with ⟨hs, rfl | rfl⟩ | ⟨hs, rfl | rfl⟩ <;>
    simp only [IfCondition.Holds, FiniteRule, iterations, inclusiveBound] at htaken hfin ⊢
  · have hc := add_mul_le_iff_lt_tdiv hs (show l ≤ u - 1 by omega) k
    exact ⟨fun hk => by have := add_mul_le_of_le_tdiv hs (show l ≤ u - 1 by omega) hk; omega,
      by rw [← hc]; omega⟩
  · have hc := add_mul_le_iff_lt_tdiv hs htaken k
    exact ⟨fun hk => by have := add_mul_le_of_le_tdiv hs htaken hk; omega, hc⟩
  · have hc := le_add_mul_iff_lt_tdiv hs (show u + 1 ≤ l by omega) k
    exact ⟨fun hk => by have := le_add_mul_of_le_tdiv hs (show u + 1 ≤ l by omega) hk; omega,
      by rw [← hc]; omega⟩
  · have hc := le_add_mul_iff_lt_tdiv hs htaken k
    exact ⟨fun hk => by have := le_add_mul_of_le_tdiv hs htaken hk; omega, hc⟩

end Progression

theorem iterate_add_stride {w : Nat} (s x : BitVec w) (k : Nat) :
    (· + s)^[k] x = BitVec.ofInt w (x.toInt + k * s.toInt) := by
  induction k with
  | zero => simp
  | succ k ih =>
    rw [Function.iterate_succ_apply', ih,
      show x.toInt + ((k + 1 : Nat) : Int) * s.toInt = x.toInt + k * s.toInt + s.toInt by
        push_cast; rw [Int.add_mul, Int.one_mul, Int.add_assoc],
      BitVec.ofInt_add (x.toInt + k * s.toInt) s.toInt, BitVec.ofInt_toInt]

/-- A taken loop whose bound satisfies `IsFinite`'s rule runs `iterations` times and `i` never
wraps: up to the value that fails the test, the values of `i` are `L + k * S`. -/
theorem loopRun_eq {cmp : IfCondition} {l u s : BitVec t.bits} (hnorm : Normalized cmp s.toInt)
    (htaken : cmp.Holds t l.toInt u.toInt) (hfin : FiniteRule t cmp s.toInt u.toInt) :
    (∀ k ≤ (iterations cmp l.toInt u.toInt s.toInt).toNat, t.InRange (l.toInt + k * s.toInt)) ∧
      ∀ fuel, (iterations cmp l.toInt u.toInt s.toInt).toNat < fuel →
        loopRun cmp u s fuel l = some ((iterations cmp l.toInt u.toInt s.toInt).toNat,
          BitVec.ofInt t.bits
            (l.toInt + (iterations cmp l.toInt u.toInt s.toInt).toNat * s.toInt)) := by
  have hp := progression (inRange_toInt l) (inRange_toInt u) hnorm htaken hfin
  refine ⟨fun k hk => (hp k).1 hk, fun fuel hfuel => ?_⟩
  -- the `k`-th value of `i`, read back, is `L + k * S` as long as it lies in `t`
  have hval : ∀ k ≤ (iterations cmp l.toInt u.toInt s.toInt).toNat,
      ((· + s)^[k] l).toInt = l.toInt + k * s.toInt := fun k hk => by
    rw [iterate_add_stride]
    exact ((hp k).1 hk).toInt_ofInt
  rw [loopRun, ← iterate_add_stride]
  refine CountedLoop.run_eq_of_exit (fun k hk => ?_) ?_ hfuel
  · rw [hval k (Nat.le_of_lt hk), decide_eq_true_eq]
    exact (hp k).2.2 hk
  · rw [hval _ (Nat.le_refl _), decide_eq_false_iff_not]
    exact fun h => Nat.lt_irrefl _ ((hp _).2.1 h)

/-- Neither bound of a taken finite loop is more than the width of `t` from the other: the
number of iterations is a value of `t` read unsigned. -/
theorem iterations_lt {cmp : IfCondition} {l u s : Int} (hl : t.InRange l) (hu : t.InRange u)
    (hnorm : Normalized cmp s) (htaken : cmp.Holds t l u) (hfin : FiniteRule t cmp s u) :
    0 ≤ iterations cmp l u s ∧ iterations cmp l u s < 2 ^ t.bits := by
  have hw : (2 : Int) ^ t.bits = 2 * 2 ^ (t.bits - 1) := by cases t <;> decide
  rw [t.inRange_iff] at hl hu
  unfold IntType.minValue IntType.maxValue at hl hu
  have habs := Int.natAbs_tdiv_le_natAbs (inclusiveBound cmp u + s - l) s
  unfold iterations
  rcases hnorm with ⟨hs, rfl | rfl⟩ | ⟨hs, rfl | rfl⟩ <;>
    simp only [IfCondition.Holds, FiniteRule, inclusiveBound, IntType.minValue,
      IntType.maxValue] at htaken hfin habs ⊢
  · exact ⟨Int.tdiv_nonneg (by omega) (by omega), by omega⟩
  · exact ⟨Int.tdiv_nonneg (by omega) (by omega), by omega⟩
  · exact ⟨Int.tdiv_nonneg_of_nonpos_of_nonpos (by omega) (by omega), by omega⟩
  · exact ⟨Int.tdiv_nonneg_of_nonpos_of_nonpos (by omega) (by omega), by omega⟩

/-! ## The value of the trip count -/

section TripCount

variable {range : InductionInfo t → Option (Int × Int)}

/-- In any meaning, the count is `(U' + S - L) / S` with the meaning's operations. -/
theorem Meaning.eval_tripCountExpr {α : Type} {σ : Meaning t α} (hσ : σ.ExactSound range)
    (hone : σ.ofInt (BitVec.ofInt t.bits 1).toInt = σ.ofInt 1)
    (lowerExpr upperExpr strideExpr : InductionInfo t) (strideValue : Int) (cmp : IfCondition) :
    σ.eval (tripCountExpr range lowerExpr upperExpr strideExpr strideValue cmp) =
      σ.apply .div
        (σ.apply .sub
          (if (cmp = .lt ∨ cmp = .gt) ∧ strideValue.natAbs = 1 then σ.eval upperExpr
          else
            σ.apply .add
              (if cmp = .lt then σ.apply .sub (σ.eval upperExpr) (σ.ofInt 1)
              else if cmp = .gt then σ.apply .add (σ.eval upperExpr) (σ.ofInt 1)
              else σ.eval upperExpr)
              (σ.eval strideExpr))
          (σ.eval lowerExpr))
        (σ.eval strideExpr) := by
  have hc : σ.eval (createConstant (t := t) 1) = σ.ofInt 1 := by
    rw [createConstant, Meaning.eval, σ.fetch_constant, hone]
  simp only [tripCountExpr, Meaning.eval_createSimplifiedInvariant hσ, Meaning.eval]
  split_ifs <;> simp only [Meaning.eval_createSimplifiedInvariant hσ, Meaning.eval, hc]

theorem ofInt_sub (w : Nat) (x y : Int) :
    BitVec.ofInt w (x - y) = BitVec.ofInt w x - BitVec.ofInt w y := by
  rw [Int.sub_eq_add_neg, BitVec.ofInt_add, BitVec.ofInt_neg, BitVec.sub_eq_add_neg]

/-- The Java value of the count: the numerator `U' + S - L` wraps, and the division truncates. -/
theorem wrapping_eval_tripCountExpr (hrange : RangeSound range) (env : HEnv)
    (l u : HInstruction t) {strideValue : Int} {cmp : IfCondition}
    (hnorm : Normalized cmp strideValue) :
    (wrapping env).eval
        (tripCountExpr range (.fetch l) (.fetch u) (createConstant strideValue) strideValue cmp) =
      (BitVec.ofInt t.bits
          (inclusiveBound cmp (u.eval env).toInt + strideValue - (l.eval env).toInt)).sdiv
        (BitVec.ofInt t.bits strideValue) := by
  have hone : (BitVec.ofInt t.bits 1).toInt = 1 := by cases t <;> decide
  rw [Meaning.eval_tripCountExpr (exactSound_wrapping hrange env) (by rw [hone])]
  have hs : (wrapping env).eval (createConstant (t := t) strideValue) =
      BitVec.ofInt t.bits strideValue := by
    simp only [createConstant, Meaning.eval, (wrapping env).fetch_constant]
    exact BitVec.ofInt_toInt
  rw [hs]
  -- a unit stride cancels the adjustment of the bound only when its sign matches the test
  rcases hnorm with ⟨hs, rfl | rfl⟩ | ⟨hs, rfl | rfl⟩ <;>
    simp only [wrapping, Meaning.eval, inclusiveBound, ofInt_sub, BitVec.ofInt_add,
      BitVec.ofInt_toInt, reduceCtorEq, or_true, or_false, true_and, false_and, if_true,
      if_false] <;>
    split_ifs with h1 <;> congr 1
  · rw [show strideValue = 1 by omega, ofInt_one, BitVec.sub_add_cancel]
  · rw [show strideValue = -1 by omega, ofInt_one, ofInt_neg_one, BitVec.add_assoc,
      BitVec.add_right_neg, BitVec.add_zero]

end TripCount

/-- The Java quotient of two values of `t` by a unit, or of a numerator that lies in `t`, is the
truncating quotient. -/
theorem sdiv_ofInt_eq_tdiv {n s : Int} (hs : t.InRange s) (hs0 : s ≠ 0)
    (h : s.natAbs = 1 ∨ t.InRange n) :
    (BitVec.ofInt t.bits n).sdiv (BitVec.ofInt t.bits s) = BitVec.ofInt t.bits (n.tdiv s) := by
  by_cases hunit : s.natAbs = 1
  · rcases (show s = 1 ∨ s = -1 by omega) with rfl | rfl
    · simp
    · rw [sdiv_ofInt_neg_one, Int.tdiv_neg, Int.tdiv_one, BitVec.ofInt_neg]
  · have hn := h.resolve_left hunit
    -- a quotient by at least two of a value of `t` lies in `t`
    have hq : t.InRange (n.tdiv s) := by
      have hdiv := Nat.div_le_div_left (show 2 ≤ s.natAbs by omega) (show 0 < 2 by omega)
        (a := n.natAbs)
      have := Int.natAbs_tdiv n s
      have hw : 2 ≤ t.bits := t.one_lt_bits
      have hp : (2 : Int) ^ (t.bits - 1) = 2 * 2 ^ (t.bits - 2) := by
        rw [show t.bits - 1 = (t.bits - 2) + 1 by omega, Int.pow_succ, Int.mul_comm]
      unfold IntType.InRange at hn ⊢
      rw [show n.natAbs.div s.natAbs = n.natAbs / s.natAbs from rfl] at this
      omega
    have hm1 : t.InRange (-1) := by unfold IntType.InRange; cases t <;> decide
    apply BitVec.eq_of_toInt_eq
    rw [BitVec.toInt_sdiv_of_ne_or_ne _ _ (.inr fun h1 => ?_), hn.toInt_ofInt, hs.toInt_ofInt,
      hq.toInt_ofInt]
    have := congrArg BitVec.toInt h1
    rw [hs.toInt_ofInt, show (-1#t.bits) = BitVec.ofInt t.bits (-1) from (ofInt_neg_one _).symm,
      hm1.toInt_ofInt] at this
    omega

/-- Read unsigned, the Java value of the trip count of a taken finite loop is its number of
iterations when the stride is a unit or the numerator `U' + S - L` lies in `t`. -/
theorem toNat_tripCount {cmp : IfCondition} {l u s : Int} (hl : t.InRange l) (hu : t.InRange u)
    (hs : t.InRange s) (hnorm : Normalized cmp s) (htaken : cmp.Holds t l u)
    (hfin : FiniteRule t cmp s u) (h : s.natAbs = 1 ∨ t.InRange (inclusiveBound cmp u + s - l)) :
    ((BitVec.ofInt t.bits (inclusiveBound cmp u + s - l)).sdiv (BitVec.ofInt t.bits s)).toNat =
      (iterations cmp l u s).toNat := by
  have hs0 : s ≠ 0 := by rcases hnorm with ⟨hs, -⟩ | ⟨hs, -⟩ <;> omega
  obtain ⟨h0, hlt⟩ := iterations_lt hl hu hnorm htaken hfin
  rw [sdiv_ofInt_eq_tdiv hs hs0 h, BitVec.toNat_ofInt]
  unfold iterations at h0 hlt ⊢
  rw [Int.emod_eq_of_lt h0 (by exact_mod_cast hlt)]

end HInductionVarAnalysis

end Art
