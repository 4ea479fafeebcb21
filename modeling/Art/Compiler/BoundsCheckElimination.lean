import Art.Compiler.Nodes

/-!
# Bounds-check elimination (`compiler/optimizing/bounds_check_elimination.cc`)

`BCEVisitor` walks the dominator tree and keeps, per block, a map from instructions to
`ValueRange`s: an inclusive lower and upper `ValueBound`, each `instruction + constant` or a
constant alone. A range is read as a fact about the instruction's `int` value, with the bound
`ValueBound(i, c)` standing for `value(i) + c` in exact arithmetic. Ranges come from the
arithmetic visitors (`VisitAdd`, `VisitSub`, `VisitDiv`, `VisitShr`, `VisitUShr`, `VisitAnd`,
`VisitRem`), from the comparison of an `HIf` (`HandleIf`, for the successor taken on each
outcome) and from constant-index bounds checks (`array.length > c` after `array[c]`). A bounds
check whose index range fits in `[0, array.length - 1]` is replaced by its index.

The model keeps the dominator-based part of the pass: the lookup of a range in a block and its
dominators is a function `RangeLookup`, and a path down the dominator tree is a list of blocks,
each a list of instructions and bounds checks ended by the `HIf` whose successor the path
takes. Loop-header phis (`MonotonicValueRange`), `HNewArray` lengths, `HDivZeroCheck` inputs of
`Rem`, and the induction-based and dynamic (deoptimizing) eliminations are not modelled.

`VisitRem` gives `i % c` the range `[1 - |c|, |c| - 1]` narrowed by the range of `i`. The
narrowing is right for `i`'s bounds on the side of zero only: under `if (i > 0)` it gives
`i % 10` the range `[1, 9]`, while `i = 10` gives `0`, and `a[i % 10 - 1]` loses its bounds
check for the index `-1` (`pathRemovedChecks_remainder_unsafe`).
-/

namespace Art

namespace HInstruction

/-- `IsArrayLength`. -/
def isArrayLength {t : IntType} : HInstruction t → Bool
  | arrayLength _ => true
  | _ => false

end HInstruction

namespace BoundsCheckElimination

/-! ## `ValueBound` -/

/-- `ValueBound`: `instruction + constant`, the constant alone when `instruction` is null. -/
structure ValueBound where
  instruction : Option (HInstruction .int32)
  constant : BitVec 32
  deriving DecidableEq, Repr

namespace ValueBound

/-- `WouldAddOverflowOrUnderflow`, with `int32_t` comparisons signed. The subtractions from the
limits cannot wrap on the branch that computes them. -/
def wouldAddOverflowOrUnderflow (left right : BitVec 32) : Bool :=
  if right = 0 then false
  else if (0#32).slt right && left.sle (BitVec.intMax 32 - right) then false
  else if right.slt 0#32 && (BitVec.intMin 32 - right).sle left then false
  else true

/-- The constructor `ValueBound(instruction, constant)`: an `IntConstant` instruction is folded
into the constant when the sum does not overflow. -/
def make (instruction : Option (HInstruction .int32)) (constant : BitVec 32) : ValueBound :=
  match instruction with
  | some (.constant _ instrConst) =>
    if !wouldAddOverflowOrUnderflow instrConst constant then ⟨none, instrConst + constant⟩
    else ⟨instruction, constant⟩
  | _ => ⟨instruction, constant⟩

/-- The loop of `IsAddOrSubAConstant`: strips `+ v` and `- v` with `v` a constant from
`instruction` as long as the accumulated constant does not overflow. It is stated for both
kinds so that its recursion is structural; `IsAddOrSubAConstant` runs it on `int`s, whose
constants are `IntConstant`s. -/
def isAddOrSubAConstantFrom {t : IntType} (instruction : HInstruction t)
    (leftSoFar : Option (HInstruction t)) (rightSoFar : BitVec 32) :
    Option (HInstruction t) × BitVec 32 :=
  match t, instruction with
  | .int32, .add left (.constant _ v) =>
    if !wouldAddOverflowOrUnderflow rightSoFar v then
      isAddOrSubAConstantFrom left (some left) (rightSoFar + v)
    else (leftSoFar, rightSoFar)
  | .int32, .sub left (.constant _ v) =>
    if !wouldAddOverflowOrUnderflow rightSoFar (-v) then
      isAddOrSubAConstantFrom left (some left) (rightSoFar + -v)
    else (leftSoFar, rightSoFar)
  | _, _ => (leftSoFar, rightSoFar)

/-- `IsAddOrSubAConstant`: `instruction` as `left + right` with `right` a constant. -/
def isAddOrSubAConstant (instruction : HInstruction .int32) :
    Option (HInstruction .int32 × BitVec 32) :=
  match isAddOrSubAConstantFrom instruction none 0 with
  | (some left, right) => some (left, right)
  | (none, _) => none

def min : ValueBound := ⟨none, BitVec.intMin 32⟩

def max : ValueBound := ⟨none, BitVec.intMax 32⟩

/-- `DetectValueBoundFromValue`: a constant, `array.length` or `array.length + c`; `none` when
the source sets `found` to false. -/
def detectValueBoundFromValue (instruction : HInstruction .int32) : Option ValueBound :=
  match instruction with
  | .constant _ c => some (make none c)
  | .arrayLength a => some (make (some (.arrayLength a)) 0)
  | _ =>
    match isAddOrSubAConstant instruction with
    | some (left, right) => if left.isArrayLength then some (make (some left) right) else none
    | none => none

def isRelatedToArrayLength (bound : ValueBound) : Bool :=
  match bound.instruction with
  | some i => i.isArrayLength
  | none => false

def isConstant (bound : ValueBound) : Bool :=
  bound.instruction.isNone

/-- `ValueBound::Equal`. The source compares the declarations found by `HuntForDeclaration`,
which takes an array length to its array; here each array has one length node, so the two
instructions are compared directly. -/
def equal (instruction1 instruction2 : Option (HInstruction .int32)) : Bool :=
  instruction1 == instruction2

def greaterThanOrEqualTo (bound other : ValueBound) : Bool :=
  equal bound.instruction other.instruction && other.constant.sle bound.constant

def lessThanOrEqualTo (bound other : ValueBound) : Bool :=
  equal bound.instruction other.instruction && bound.constant.sle other.constant

/-- `NarrowLowerBound`: the greater of two comparable bounds, else the constant one. -/
def narrowLowerBound (bound1 bound2 : ValueBound) : ValueBound :=
  if bound1.greaterThanOrEqualTo bound2 then bound1
  else if bound2.greaterThanOrEqualTo bound1 then bound2
  else if bound1.isConstant then bound1 else bound2

/-- `NarrowUpperBound`: the lesser of two comparable bounds, else the array-length one. -/
def narrowUpperBound (bound1 bound2 : ValueBound) : ValueBound :=
  if bound1.lessThanOrEqualTo bound2 then bound1
  else if bound2.lessThanOrEqualTo bound1 then bound2
  else if bound1.isRelatedToArrayLength then bound1 else bound2

/-- The result of `ValueBound::Add` with its two out-parameters. -/
structure AddResult where
  bound : ValueBound
  overflow : Bool
  underflow : Bool
  deriving DecidableEq, Repr

/-- `ValueBound::Add(c, &overflow, &underflow)`. -/
def add (bound : ValueBound) (c : BitVec 32) : AddResult :=
  if c = 0 then ⟨bound, false, false⟩
  else if (0#32).slt c then
    if (BitVec.intMax 32 - c).slt bound.constant then ⟨max, true, false⟩
    else
      let newConstant := bound.constant + c
      -- `array.length` plus a non-positive constant does not overflow.
      if bound.isConstant || (bound.isRelatedToArrayLength && newConstant.sle 0) then
        ⟨make bound.instruction newConstant, false, false⟩
      else ⟨max, true, false⟩
  else
    if bound.constant.slt (BitVec.intMin 32 - c) then ⟨min, false, true⟩
    else
      let newConstant := bound.constant + c
      -- `array.length` plus any constant does not underflow, the length being non-negative.
      if bound.isConstant || bound.isRelatedToArrayLength then
        ⟨make bound.instruction newConstant, false, false⟩
      else ⟨min, false, true⟩

end ValueBound

/-! ## `ValueRange` -/

/-- `ValueRange`: inclusive lower and upper bounds. -/
structure ValueRange where
  lower : ValueBound
  upper : ValueBound
  deriving DecidableEq, Repr

namespace ValueRange

def isConstantValueRange (range : ValueRange) : Bool :=
  range.lower.isConstant && range.upper.isConstant

/-- `FitsIn`: certainly inside `other`. -/
def fitsIn (range other : ValueRange) : Bool :=
  range.lower.greaterThanOrEqualTo other.lower && range.upper.lessThanOrEqualTo other.upper

/-- `Narrow`: the intersection, where the bounds are comparable. -/
def narrow (range other : ValueRange) : ValueRange :=
  ⟨ValueBound.narrowLowerBound range.lower other.lower,
    ValueBound.narrowUpperBound range.upper other.upper⟩

/-- `ValueRange::Add`: the range shifted by a constant; `none` (a null range) when the lower
bound may underflow or the upper bound may overflow. -/
def add (range : ValueRange) (constant : BitVec 32) : Option ValueRange :=
  let lower := range.lower.add constant
  if lower.underflow then none
  else
    let upper := range.upper.add constant
    if upper.overflow then none else some ⟨lower.bound, upper.bound⟩

end ValueRange

/-! ## The visitors -/

/-- `LookupValueRange` in one block: the range found in the block or its dominators. -/
abbrev RangeLookup := HInstruction .int32 → Option ValueRange

open ValueBound in
/-- `VisitAdd`: `left + c` gets `left`'s range shifted by `c`. -/
def visitAdd (lookup : RangeLookup) (left right : HInstruction .int32) : Option ValueRange :=
  match right with
  | .constant _ c => (lookup left).bind fun leftRange => leftRange.add c
  | _ => none

/-- `1LL << n` as `TryToAssignRangeIfOptimizedRemWithConstantDivisor` computes it. A negative
`n` or one of 63 or more is an undefined shift in C++; it is taken to match no divisor. -/
def shiftedOne (n : BitVec 32) : Option Int :=
  if 0 ≤ n.toInt ∧ n.toInt < 63 then some (2 ^ n.toNat) else none

/-- `TryToAssignRangeIfOptimizedRemWithConstantDivisor` for `Sub(left, right)`: `right` is
`q * k`, `q + (q << n)` or `(q << n) - q` with `q = left / k`, and the remainder gets
`[1 - |k|, |k| - 1]`, narrowed by `left`'s range. -/
def tryToAssignRangeIfOptimizedRemWithConstantDivisor (lookup : RangeLookup)
    (left right : HInstruction .int32) : Option ValueRange :=
  let found : Option (HInstruction .int32 × Int) :=
    match right with
    | .mul (.div dividend divisor) (.constant _ k) => some (.div dividend divisor, k.toInt)
    | .add addLeft (.shl (.div dividend divisor) (.constant _ n)) =>
      if addLeft = .div dividend divisor ∧ n.toInt ≠ 31 then
        (shiftedOne n).map fun p => (.div dividend divisor, p + 1)
      else none
    | .sub (.shl (.div dividend divisor) (.constant _ n)) subRight =>
      if subRight = .div dividend divisor then
        (shiftedOne n).map fun p => (.div dividend divisor, p - 1)
      else none
    | _ => none
  match found with
  | some (.div dividend (.constant _ k), constDivisor) =>
    if k.toInt = constDivisor ∧ dividend = left then
      let range : ValueRange :=
        if constDivisor = (BitVec.intMin 32).toInt then
          ⟨.make none (BitVec.intMin 32 + 1), .make none (BitVec.intMax 32)⟩
        else
          let absConstDivisor := BitVec.ofInt 32 constDivisor.natAbs
          ⟨.make none (1 - absConstDivisor), .make none (absConstDivisor - 1)⟩
      match lookup left with
      | some leftRange => some (range.narrow leftRange)
      | none => some range
    else none
  | _ => none

/-- The triangular case of `VisitSub`: `array.length + c0 - v` with `v` in
`[c1, array.length + c2]` gets `[c0 - c2, array.length + c0 - c1]`. -/
def visitSubTriangular (lookup : RangeLookup) (left right : HInstruction .int32) :
    Option ValueRange :=
  let (left', rightConst) := match ValueBound.isAddOrSubAConstant left with
    | some (leftOfLeft, c) => (leftOfLeft, c)
    | none => (left, 0)
  if left'.isArrayLength then
    match lookup right with
    | some rightRange =>
      let lower := rightRange.lower
      let upper := rightRange.upper
      if lower.isConstant && upper.isRelatedToArrayLength &&
          ValueBound.equal (some left') upper.instruction then
        let c0 := rightConst
        let c1 := lower.constant
        let c2 := upper.constant
        if !ValueBound.wouldAddOverflowOrUnderflow c0 (-c2) &&
            !ValueBound.wouldAddOverflowOrUnderflow c0 (-c1) && (c0 - c1).sle 0 then
          some ⟨.make none (c0 - c2), .make (some left') (c0 - c1)⟩
        else none
      else none
    | none => none
  else none

/-- `VisitSub`. -/
def visitSub (lookup : RangeLookup) (left right : HInstruction .int32) : Option ValueRange :=
  match tryToAssignRangeIfOptimizedRemWithConstantDivisor lookup left right with
  | some range => some range
  | none =>
    match right with
    | .constant _ c =>
      match lookup left with
      | none => none
      | some leftRange =>
        match leftRange.add (-c) with
        | some range => some range
        | none => visitSubTriangular lookup left right
    | _ => visitSubTriangular lookup left right

/-- The three instructions `FindAndHandlePartialArrayLength` looks at. -/
inductive PartialKind where
  | div | shr | ushr
  deriving DecidableEq, Repr

/-- `FindAndHandlePartialArrayLength`: `(array.length + c) / k`, `>> k` or `>>> k` with
`c ≤ 1` gets `[Min, array.length]`. -/
def findAndHandlePartialArrayLength (kind : PartialKind) (left right : HInstruction .int32) :
    Option ValueRange :=
  match right with
  | .constant _ rightConst =>
    -- Detect division by two or more.
    if (kind = .div ∧ rightConst.sle 1) ∨ (kind = .shr ∧ rightConst.slt 1) ∨
        (kind = .ushr ∧ rightConst.slt 1) then none
    else
      let (left', c) := match ValueBound.isAddOrSubAConstant left with
        | some (leftOfLeft, c) => (leftOfLeft, c)
        | none => (left, 0)
      if left'.isArrayLength ∧ c.sle 1 then
        -- An unsigned shift of a negative value is not small.
        if kind = .ushr ∧ c.slt 0 then none
        else some ⟨.make none (BitVec.intMin 32), .make (some left') 0⟩
      else none
  | _ => none

/-- `VisitAnd`: a positive constant mask bounds the result to `[0, mask]`. -/
def visitAnd (right : HInstruction .int32) : Option ValueRange :=
  match right with
  | .constant _ c => if (0#32).slt c then some ⟨.make none 0, .make none c⟩ else none
  | _ => none

/-- `VisitRem`: `i % c` gets `[1 - |c|, |c| - 1]` and `i % array.length` gets
`[Min, array.length - 1]`, each narrowed by `i`'s range. `std::abs` of `INT_MIN` is taken to
wrap. -/
def visitRem (lookup : RangeLookup) (left right : HInstruction .int32) : Option ValueRange :=
  let narrowed (range : ValueRange) : ValueRange :=
    match lookup left with
    | some leftRange => range.narrow leftRange
    | none => range
  match right with
  | .constant _ c =>
    let rightConst := if c.slt 0 then -c else c
    if rightConst = 0 then none
    else some (narrowed ⟨.make none (1 - rightConst), .make none (rightConst - 1)⟩)
  | .arrayLength a => some (narrowed ⟨ValueBound.min, .make (some (.arrayLength a)) (-1)⟩)
  | _ => none

/-- The range `BCEVisitor` assigns to an instruction when it visits it. -/
def visitInstruction (lookup : RangeLookup) : HInstruction .int32 → Option ValueRange
  | .add left right => visitAdd lookup left right
  | .sub left right => visitSub lookup left right
  | .div left right => findAndHandlePartialArrayLength .div left right
  | .shr left right => findAndHandlePartialArrayLength .shr left right
  | .ushr left right => findAndHandlePartialArrayLength .ushr left right
  | .and _ right => visitAnd right
  | .rem left right => visitRem lookup left right
  | _ => none

/-! ## `HandleIf` -/

/-- `IfCondition`. -/
inductive IfCondition where
  | eq | ne | lt | le | gt | ge | b | be | a | ae
  deriving DecidableEq, Repr

/-- Whether `x cond y` holds: signed for `lt`..`ge`, unsigned for `b`..`ae`. -/
def IfCondition.holds (cond : IfCondition) (x y : BitVec 32) : Bool :=
  match cond with
  | .eq => x == y
  | .ne => x != y
  | .lt => x.slt y
  | .le => x.sle y
  | .gt => y.slt x
  | .ge => y.sle x
  | .b => x.ult y
  | .be => x.ule y
  | .a => y.ult x
  | .ae => y.ule x

/-- `ApplyRangeFromComparison`: the new range narrows the one `left` already has. -/
def applyRangeFromComparison (lookup : RangeLookup) (instruction : HInstruction .int32)
    (range : ValueRange) : ValueRange :=
  match lookup instruction with
  | some existing => existing.narrow range
  | none => range

/-- A bound moved by `compensation`; `none` when `ValueBound::Add` reports a possible wrap, on
which `HandleIf` returns. -/
def compensate (bound : ValueBound) (compensation : BitVec 32) : Option ValueBound :=
  let result := bound.add compensation
  if result.overflow || result.underflow then none else some result.bound

/-- The ranges `HandleIf` gives `left` in the successor taken when the condition holds and in
the one taken when it does not. -/
structure BranchRanges where
  onTrue : Option ValueRange
  onFalse : Option ValueRange
  deriving DecidableEq, Repr

/-- The bounds a comparison with `right` gives: `right` itself when it is a constant or
`array.length + c`, else `right`'s own range, else nothing. -/
def comparisonBounds (lookup : RangeLookup) (right : HInstruction .int32) :
    ValueBound × ValueBound :=
  match ValueBound.detectValueBoundFromValue right with
  | some bound => (bound, bound)
  | none =>
    match lookup right with
    | some rightRange => (rightRange.lower, rightRange.upper)
    | none => (ValueBound.min, ValueBound.max)

/-- `left ≤ upper + compensation` as a range, applied to `left`. -/
def upperRange (lookup : RangeLookup) (left : HInstruction .int32) (upper : ValueBound)
    (compensation : BitVec 32) : Option ValueRange :=
  (compensate upper compensation).map fun newUpper =>
    applyRangeFromComparison lookup left ⟨ValueBound.min, newUpper⟩

/-- `left ≥ lower + compensation` as a range, applied to `left`. -/
def lowerRange (lookup : RangeLookup) (left : HInstruction .int32) (lower : ValueBound)
    (compensation : BitVec 32) : Option ValueRange :=
  (compensate lower compensation).map fun newLower =>
    applyRangeFromComparison lookup left ⟨newLower, ValueBound.max⟩

/-- Whether a lower bound is worth using: not `Min`, and not `array.length`-related. -/
def usefulLower (lower : ValueBound) : Bool :=
  lower != ValueBound.min && !lower.isRelatedToArrayLength

/-- `HandleIf` for `if (left cond right)`. Each comparison gives one successor an upper and
the other a lower bound; when the first of the two may wrap, `HandleIf` returns before the
second. -/
def handleIf (lookup : RangeLookup) (left right : HInstruction .int32) (cond : IfCondition) :
    BranchRanges :=
  let (lower, upper) := comparisonBounds lookup right
  match cond with
  | .lt | .le =>
    let lowerStep := if usefulLower lower then
        lowerRange lookup left lower (if cond = .le then 1 else 0)
      else none
    if upper != ValueBound.max then
      match upperRange lookup left upper (if cond = .lt then -1 else 0) with
      | some range => ⟨some range, lowerStep⟩
      | none => ⟨none, none⟩
    else ⟨none, lowerStep⟩
  | .gt | .ge =>
    let upperStep := if upper != ValueBound.max then
        upperRange lookup left upper (if cond = .ge then -1 else 0)
      else none
    if usefulLower lower then
      match lowerRange lookup left lower (if cond = .gt then 1 else 0) with
      | some range => ⟨some range, upperStep⟩
      | none => ⟨none, none⟩
    else ⟨none, upperStep⟩
  | .eq | .ne =>
    let onEqual (range : Option ValueRange) (onNotEqual : Option ValueRange) : BranchRanges :=
      if cond = .eq then ⟨range, onNotEqual⟩ else ⟨onNotEqual, range⟩
    if left.isArrayLength then
      if lower.isConstant && upper.isConstant then
        -- `length == [c, d]` on the equal side, and `length ≥ 1` on the other side of `== 0`.
        let equalRange := if lower != ValueBound.min || upper != ValueBound.max then
            some (applyRangeFromComparison lookup left ⟨lower, upper⟩)
          else none
        let notEqualRange := if lower.constant = 0 && upper.constant = 0 then
            some (applyRangeFromComparison lookup left ⟨.make none 1, ValueBound.max⟩)
          else none
        onEqual equalRange notEqualRange
      else ⟨none, none⟩
    else if lower.isRelatedToArrayLength && lower == upper then
      onEqual (some (applyRangeFromComparison lookup left ⟨lower, upper⟩)) none
    else ⟨none, none⟩
  | .b | .be | .a | .ae => ⟨none, none⟩

/-! ## `VisitBoundsCheck` -/

/-- What `VisitBoundsCheck` does without induction information: whether it replaces the check
by its index, and the range it gives `array.length` after a constant index. -/
structure BoundsCheckResult where
  replaced : Bool
  lengthRange : Option ValueRange
  deriving DecidableEq, Repr

/-- `VisitBoundsCheck(index, array_length)`, its dominator-based part. -/
def visitBoundsCheck (lookup : RangeLookup) (index arrayLength : HInstruction .int32) :
    BoundsCheckResult :=
  match index with
  | .constant _ constant =>
    if constant.slt 0 then ⟨false, none⟩
    else
      match arrayLength with
      | .constant _ length => ⟨constant.slt length, none⟩
      | _ =>
        let existingFits := match lookup arrayLength with
          | some existing => constant.slt existing.lower.constant
          | none => false
        if existingFits then ⟨true, none⟩
        -- After `array[c]`, `array.length ≥ c + 1`.
        else if constant = BitVec.intMax 32 then ⟨false, none⟩
        else ⟨false, some ⟨.make none (constant + 1), ValueBound.max⟩⟩
  | _ =>
    let lower := ValueBound.make none 0
    let upper := ValueBound.make (some arrayLength) (-1)
    match lookup index with
    | some indexRange =>
      if indexRange.fitsIn ⟨lower, upper⟩ then ⟨true, none⟩
      else if indexRange.isConstantValueRange then
        match lookup arrayLength with
        | some existing =>
          if existing.isConstantValueRange && (0#32).slt existing.lower.constant then
            ⟨indexRange.fitsIn ⟨lower, .make none (existing.lower.constant - 1)⟩, none⟩
          else ⟨false, none⟩
        | none => ⟨false, none⟩
      else ⟨false, none⟩
    | none => ⟨false, none⟩

/-! ## Paths down the dominator tree -/

/-- What a block holds, in order: instructions whose ranges the visitor computes, and bounds
checks. -/
inductive Statement where
  | define (instruction : HInstruction .int32)
  | boundsCheck (index arrayLength : HInstruction .int32)
  deriving DecidableEq, Repr

/-- A block on a path: its statements, then `if (left cond right)`, of which the path takes the
successor `taken`. -/
structure PathBlock where
  statements : List Statement
  cond : IfCondition
  left : HInstruction .int32
  right : HInstruction .int32
  taken : Bool
  deriving DecidableEq, Repr

/-- `AssignRange`: later lookups of `instruction` see `range`. -/
def assignRange (lookup : RangeLookup) (instruction : HInstruction .int32) (range : ValueRange) :
    RangeLookup :=
  fun i => if i = instruction then some range else lookup i

/-- The lookup after a range that may be null. -/
def assignRange? (lookup : RangeLookup) (instruction : HInstruction .int32) :
    Option ValueRange → RangeLookup
  | some range => assignRange lookup instruction range
  | none => lookup

/-- One statement of the walk: the new lookup, and the bounds check it replaced, if any. -/
def visitStatement (lookup : RangeLookup) : Statement → RangeLookup × List Statement
  | .define instruction =>
    (assignRange? lookup instruction (visitInstruction lookup instruction), [])
  | .boundsCheck index arrayLength =>
    let result := visitBoundsCheck lookup index arrayLength
    (assignRange? lookup arrayLength result.lengthRange,
      if result.replaced then [.boundsCheck index arrayLength] else [])

/-- The walk over a block's statements: the lookup at the block's end and the checks it
replaced. -/
def visitStatements (lookup : RangeLookup) : List Statement → RangeLookup × List Statement
  | [] => (lookup, [])
  | s :: rest =>
    let (lookup', removed) := visitStatement lookup s
    let (lookup'', removed') := visitStatements lookup' rest
    (lookup'', removed ++ removed')

/-- The checks replaced on a path down the dominator tree, ending in the statements of its last
block: after each block, the successor taken sees the range `HandleIf` gave `left` on that
side. -/
def pathRemovedChecks (lookup : RangeLookup) : List PathBlock → List Statement → List Statement
  | [], final => (visitStatements lookup final).2
  | block :: rest, final =>
    let (lookup', removed) := visitStatements lookup block.statements
    let branch := handleIf lookup' block.left block.right block.cond
    let successorRange := if block.taken then branch.onTrue else branch.onFalse
    removed ++ pathRemovedChecks (assignRange? lookup' block.left successorRange) rest final

/-- An execution passes a bounds check when `0 ≤ index < length`. -/
def Statement.Passes (env : HEnv) : Statement → Prop
  | .define _ => True
  | .boundsCheck index arrayLength =>
    0 ≤ (index.eval env).toInt ∧ (index.eval env).toInt < (arrayLength.eval env).toInt

/-- An execution follows a path when it passes the bounds checks of its blocks and takes, at
the end of each block, the successor the path takes. -/
def PathReaches (env : HEnv) (path : List PathBlock) : Prop :=
  ∀ block ∈ path, (∀ s ∈ block.statements, s.Passes env) ∧
    block.cond.holds (block.left.eval env) (block.right.eval env) = block.taken

/-! ## A remainder narrowed by its dividend -/

/-- `i % 10` for the `int` parameter `i`. -/
def remainderOfI : HInstruction .int32 :=
  .rem (.parameterValue .int32 0) (.constant .int32 10)

/-- `i % 10 - 1`, as the simplifier writes it. -/
def remainderIndex : HInstruction .int32 :=
  .add remainderOfI (.constant .int32 (-1))

/-- `a[8] = ...; if (i > 0) {`: the check of `a[8]` gives `a.length` the range `[9, Max]`, and
the branch gives `i` the range `[1, Max]`. -/
def remainderPath : List PathBlock :=
  [⟨[.boundsCheck (.constant .int32 8) (.arrayLength 0)], .gt, .parameterValue .int32 0,
    .constant .int32 0, true⟩]

/-- `... a[i % 10 - 1] ... }`: `VisitRem` narrows `[-9, 9]` by `i`'s range to `[1, 9]`, so the
index gets `[0, 8]`, which fits in `[0, 9 - 1]`. -/
def remainderFinal : List Statement :=
  [.define remainderOfI, .define remainderIndex, .boundsCheck remainderIndex (.arrayLength 0)]

theorem srem_ten_of_multiple {x : BitVec 32} (hpos : 0 < x.toInt) (hmultiple : x.toInt % 10 = 0) :
    x.srem 10 = 0 := by
  have hmsb : x.msb = false := by
    rw [BitVec.msb_eq_false_iff_two_mul_lt, ← BitVec.toInt_pos_iff]
    omega
  have hnat : x.toInt = x.toNat := BitVec.toInt_eq_toNat_of_msb hmsb
  have hten : BitVec.msb (10 : BitVec 32) = false := by decide
  rw [BitVec.srem_eq, hmsb, hten]
  apply BitVec.eq_of_toNat_eq
  rw [BitVec.toNat_umod]
  simp
  omega

/-- In every execution where `i` is a positive multiple of ten and `a` has at least nine
elements, the path is followed to `a[i % 10 - 1]`, whose check the walk has replaced, and the
index is `-1`. -/
theorem pathRemovedChecks_remainder_unsafe (env : HEnv)
    (hpos : 0 < (env.parameter .int32 0).toInt)
    (hmultiple : (env.parameter .int32 0).toInt % 10 = 0) (hlength : 9 ≤ env.arrayLength 0) :
    pathRemovedChecks (fun _ => none) remainderPath remainderFinal =
        [.boundsCheck remainderIndex (.arrayLength 0)] ∧
      PathReaches env remainderPath ∧ (remainderIndex.eval env).toInt = -1 := by
  have hwalk : pathRemovedChecks (fun _ => none) remainderPath remainderFinal =
      [.boundsCheck remainderIndex (.arrayLength 0)] := by
    decide +kernel
  have hlengthInt := HInstruction.toInt_eval_arrayLength env 0
  have hreaches : PathReaches env remainderPath := by
    intro block hblock
    simp only [remainderPath, List.mem_singleton] at hblock
    subst hblock
    refine ⟨?_, ?_⟩
    · intro s hs
      simp only [List.mem_singleton] at hs
      subst hs
      have h8 : (8 : BitVec IntType.int32.bits).toInt = 8 := by decide
      rw [Statement.Passes, hlengthInt]
      simp only [HInstruction.eval, h8]
      omega
    · simp only [IfCondition.holds, HInstruction.eval, BitVec.slt_iff_toInt_lt]
      simpa using hpos
  have hindex : remainderIndex.eval env = -1 := by
    simp only [remainderIndex, remainderOfI, HInstruction.eval,
      srem_ten_of_multiple hpos hmultiple]
    decide
  refine ⟨hwalk, hreaches, ?_⟩
  rw [hindex]
  decide

/-- `i = 10`, and `a` has nine elements. -/
def remainderEnv : HEnv where
  parameter := fun _ _ => 10
  arrayLength := fun _ => 9
  arrayLength_lt := fun _ => by decide

theorem pathRemovedChecks_remainder_unsafe_at_ten :
    (0 < (remainderEnv.parameter .int32 0).toInt ∧
      (remainderEnv.parameter .int32 0).toInt % 10 = 0 ∧ 9 ≤ remainderEnv.arrayLength 0) ∧
      (pathRemovedChecks (fun _ => none) remainderPath remainderFinal =
          [.boundsCheck remainderIndex (.arrayLength 0)] ∧
        PathReaches remainderEnv remainderPath ∧ (remainderIndex.eval remainderEnv).toInt = -1) :=
  ⟨⟨by decide, by decide, by decide⟩,
    pathRemovedChecks_remainder_unsafe remainderEnv (by decide) (by decide) (by decide)⟩

end BoundsCheckElimination

end Art
