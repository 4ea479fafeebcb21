import Art.Compiler.Nodes

/-!
# Shift and rotate rewrites of the instruction simplifier

`InstructionSimplifierVisitor` (`compiler/optimizing/instruction_simplifier.cc`) rewrites an
instruction in place when it matches one of its patterns. Two families are modelled here, each
as the function that returns the replacement, or `none` when the instruction is left alone:

* `VisitShift` on `Shl`, `Shr` and `UShr`: a constant distance is masked (and a shift by a
  multiple of the width dropped), and an `And`/`Or`/`Xor`/`Add`/`Sub` with a constant, or an
  integral conversion, that does not change the low bits of the distance is bypassed;
* `TryReplaceWithRotate` on `Add`, `Xor` and `Or` of a `UShr` and a `Shl` of one value, with
  constant distances, with distances `d` and `-d`, or with `d` and `#bits - d`: the operation
  becomes `Ror`.

Every `VisitShift` rewrite keeps the value (`visitShift_eval`); so does every rotate rewrite of
an `Or`, and of an `Add` or `Xor` whenever the rotation distance is not a multiple of the width
(`tryReplaceWithRotate_eval`). The `Sub` pattern does not check the distance: at `d = 0`,
`(x >>> d) + (x << (32 - d))` is `x + x`, and the `Ror` that replaces it is `x`.

`TryReplaceShiftsByConstantWithTypeConversion`, which `VisitShift` tries after the constant
masking, reads the declared narrow type and the use count of a value, which expression trees
do not carry; it is not modelled, and a constant distance that is already masked is left alone.
-/

namespace Art

namespace HInstruction

/-- `AsConstant`: the value of a constant. -/
def asConstant {t : IntType} : HInstruction t → Option (BitVec t.bits)
  | constant _ v => some v
  | _ => none

theorem asConstant_eq_some {t : IntType} {x : HInstruction t} {c : BitVec t.bits} :
    x.asConstant = some c ↔ x = .constant t c := by
  cases x <;> simp [asConstant]

end HInstruction

/-- `Int64FromConstant`: a constant's value, sign-extended. -/
def int64FromConstant {t : IntType} (value : BitVec t.bits) : BitVec 64 :=
  value.signExtend 64

/-- The low bits of `Int64FromConstant` are those of the constant. -/
theorem int64FromConstant_toNat_mod (t : IntType) (c : BitVec IntType.int32.bits) :
    (int64FromConstant c).toNat % t.bits = maskedDistance t c := by
  rw [int64FromConstant, BitVec.toNat_signExtend_mod_of_dvd t.bits_dvd_two_pow_32 _ (by decide),
    maskedDistance_eq]

theorem int64FromConstant_and_maxShiftDistance (t : IntType) (c : BitVec IntType.int32.bits) :
    (int64FromConstant c &&& BitVec.ofNat 64 t.maxShiftDistance).toNat = maskedDistance t c := by
  rw [t.toNat_and_maxShiftDistance _ (by decide), int64FromConstant_toNat_mod]

theorem IntType.maxShiftDistance_eq_bits_sub_one (t : IntType) :
    t.maxShiftDistance = t.bits - 1 := by
  cases t <;> rfl

namespace InstructionSimplifier

/-! ## `VisitShift` -/

/-- What `VisitShift` does to a shift: replace it by its value, or replace its distance. -/
inductive ShiftChange where
  | removeShift
  | replaceDistance (distance : HInstruction .int32)
  deriving DecidableEq, Repr

/-- `GetConstantRight` of a binary operation: its right input if constant, else its left one if
the operation is commutative and that input is constant. -/
def getConstantRight (isCommutative : Bool) (left right : HInstruction .int32) :
    Option (BitVec 32) :=
  match right.asConstant with
  | some c => some c
  | none => if isCommutative then left.asConstant else none

/-- `GetLeastConstantLeft`: the input that `GetConstantRight` did not return. The source compares
pointers (`most_constant_right == GetLeft()`); when the right input is the constant and equal to
the left one, either input is the same tree. -/
def getLeastConstantLeft (left right : HInstruction .int32) : HInstruction .int32 :=
  if right.isConstant then left else right

/-- The `And`/`Or`/`Xor`/`Add`/`Sub` case of `VisitShift`: the operation is bypassed when its
constant, masked, is `required_result`. -/
def bypassDistanceOperation (isCommutative : Bool) (requiredResult implicitMask : BitVec 64)
    (left right : HInstruction .int32) : Option ShiftChange :=
  match getConstantRight isCommutative left right with
  | some mask =>
    if (int64FromConstant (t := .int32) mask &&& implicitMask) = requiredResult then
      some (.replaceDistance (getLeastConstantLeft left right))
    else none
  | none => none

/-- `VisitShift` on a shift of a `t` value by `shiftAmount`. -/
def visitShiftDistance (t : IntType) (shiftAmount : HInstruction .int32) : Option ShiftChange :=
  let implicitMask := BitVec.ofNat 64 t.maxShiftDistance
  match shiftAmount with
  | .constant _ c =>
    let cst := int64FromConstant c
    let maskedCst := cst &&& implicitMask
    if maskedCst = 0 then some .removeShift
    -- `GetIntConstant(masked_cst)`: the masked value fits in an `int`.
    else if maskedCst ≠ cst then some (.replaceDistance (.constant .int32 (maskedCst.setWidth 32)))
    else none
  | .and left right => bypassDistanceOperation true implicitMask implicitMask left right
  | .or left right => bypassDistanceOperation true 0 implicitMask left right
  | .xor left right => bypassDistanceOperation true 0 implicitMask left right
  | .add left right => bypassDistanceOperation true 0 implicitMask left right
  | .sub left right => bypassDistanceOperation false 0 implicitMask left right
  -- A conversion from an integral type that is not 64-bit.
  | @HInstruction.typeConversion .int32 _ input => some (.replaceDistance input)
  | _ => none

/-- The instruction a `ShiftChange` leaves in place of the shift of `value`. -/
def ShiftChange.apply {t : IntType} (change : ShiftChange) (value : HInstruction t)
    (shift : HInstruction .int32 → HInstruction t) : HInstruction t :=
  match change with
  | .removeShift => value
  | .replaceDistance distance => shift distance

/-- `VisitShift`, as `VisitShl`, `VisitShr` and `VisitUShr` call it. -/
def visitShift {t : IntType} : HInstruction t → Option (HInstruction t)
  | .shl value d => (visitShiftDistance t d).map fun change => change.apply value (.shl value)
  | .shr value d => (visitShiftDistance t d).map fun change => change.apply value (.shr value)
  | .ushr value d => (visitShiftDistance t d).map fun change => change.apply value (.ushr value)
  | _ => none

theorem getConstantRight_eq_some {isCommutative : Bool} {left right : HInstruction .int32}
    {mask : BitVec 32} (h : getConstantRight isCommutative left right = some mask) :
    right = .constant .int32 mask ∨
      (isCommutative = true ∧ left = .constant .int32 mask ∧ right.isConstant = false) := by
  unfold getConstantRight at h
  cases hright : right.asConstant with
  | some c =>
    simp only [hright, Option.some.injEq] at h
    subst h
    exact Or.inl (HInstruction.asConstant_eq_some.1 hright)
  | none =>
    simp only [hright] at h
    have hnot : right.isConstant = false := by
      cases right <;> simp_all [HInstruction.asConstant, HInstruction.isConstant]
    cases isCommutative
    · cases h
    · exact Or.inr ⟨rfl, HInstruction.asConstant_eq_some.1 h, hnot⟩

/-- The input `bypassDistanceOperation` keeps, combined with the constant by `op`, is the
operation's value, whichever side the constant is on. -/
theorem bypassDistanceOperation_eval {isCommutative : Bool} {required implicitMask : BitVec 64}
    {left right d : HInstruction .int32} (op : BitVec 32 → BitVec 32 → BitVec 32)
    (hcomm : isCommutative = true → ∀ a b, op a b = op b a)
    (h : bypassDistanceOperation isCommutative required implicitMask left right =
      some (.replaceDistance d)) (env : HEnv) :
    ∃ mask, (int64FromConstant (t := .int32) mask &&& implicitMask) = required ∧
      op (left.eval env) (right.eval env) = op (d.eval env) mask := by
  unfold bypassDistanceOperation at h
  split at h
  · rename_i mask hmask
    split at h
    · rename_i hreq
      cases h
      refine ⟨mask, hreq, ?_⟩
      rcases getConstantRight_eq_some hmask with hright | ⟨hc, hleft, hnot⟩
      · simp [hright, getLeastConstantLeft, HInstruction.isConstant, HInstruction.eval]
      · simp only [hleft, getLeastConstantLeft, hnot, HInstruction.eval]
        exact hcomm hc _ _
    · cases h
  · cases h

theorem bypassDistanceOperation_ne_removeShift (isCommutative : Bool)
    (required implicitMask : BitVec 64) (left right : HInstruction .int32) :
    bypassDistanceOperation isCommutative required implicitMask left right ≠ some .removeShift := by
  unfold bypassDistanceOperation
  split
  · split <;> simp
  · simp

section Mask

variable {t : IntType} {c : BitVec 32}

/-- A constant that passes the `And` test has every low bit of the distance set. -/
theorem maskedDistance_of_int64FromConstant_eq_mask
    (h : (int64FromConstant (t := .int32) c &&& BitVec.ofNat 64 t.maxShiftDistance) =
      BitVec.ofNat 64 t.maxShiftDistance) :
    maskedDistance t c = t.maxShiftDistance := by
  have hlt : t.maxShiftDistance < 2 ^ 64 := by cases t <;> decide
  rw [← int64FromConstant_and_maxShiftDistance, h, BitVec.toNat_ofNat, Nat.mod_eq_of_lt hlt]

/-- A constant that passes the `Or`/`Xor`/`Add`/`Sub` test is a multiple of the width. -/
theorem maskedDistance_of_int64FromConstant_eq_zero
    (h : (int64FromConstant (t := .int32) c &&& BitVec.ofNat 64 t.maxShiftDistance) = 0) :
    maskedDistance t c = 0 := by
  rw [← int64FromConstant_and_maxShiftDistance, h]
  rfl

end Mask

/-- A shift that `VisitShift` removes shifts by a multiple of the width. -/
theorem visitShiftDistance_removeShift {t : IntType} {d : HInstruction .int32}
    (h : visitShiftDistance t d = some .removeShift) (env : HEnv) :
    maskedDistance t (d.eval env) = 0 := by
  cases d
  case constant c =>
    simp only [visitShiftDistance] at h
    split_ifs at h with hzero
    · exact maskedDistance_of_int64FromConstant_eq_zero hzero
    · cases h
  case typeConversion s r input =>
    cases s <;> simp [visitShiftDistance] at h
  all_goals
    simp only [visitShiftDistance] at h
    first
      | exact absurd h (bypassDistanceOperation_ne_removeShift _ _ _ _ _)
      | cases h

/-- A distance that `VisitShift` puts in place of another has the same low bits. -/
theorem visitShiftDistance_replaceDistance {t : IntType} {d d' : HInstruction .int32}
    (h : visitShiftDistance t d = some (.replaceDistance d')) (env : HEnv) :
    maskedDistance t (d'.eval env) = maskedDistance t (d.eval env) := by
  cases d
  case constant c =>
    simp only [visitShiftDistance] at h
    split_ifs at h with hzero hsame <;>
      simp only [Option.some.injEq, reduceCtorEq, ShiftChange.replaceDistance.injEq] at h
    subst h
    -- The new constant is the masked value, below the width.
    have hlt : c.toNat % t.bits < 2 ^ 32 :=
      Nat.lt_of_lt_of_le (Nat.mod_lt _ t.bits_pos) (by cases t <;> decide)
    simp only [HInstruction.eval, maskedDistance_eq, BitVec.toNat_setWidth,
      int64FromConstant_and_maxShiftDistance]
    rw [Nat.mod_eq_of_lt hlt, Nat.mod_mod]
  case and left right =>
    obtain ⟨mask, hreq, heq⟩ :=
      bypassDistanceOperation_eval (· &&& ·) (fun _ => BitVec.and_comm) h env
    simp only [HInstruction.eval, heq]
    exact (maskedDistance_and_of_full _ _ (maskedDistance_of_int64FromConstant_eq_mask hreq)).symm
  case or left right =>
    obtain ⟨mask, hreq, heq⟩ :=
      bypassDistanceOperation_eval (· ||| ·) (fun _ => BitVec.or_comm) h env
    simp only [HInstruction.eval, heq]
    exact (maskedDistance_or_of_zero _ _ (maskedDistance_of_int64FromConstant_eq_zero hreq)).symm
  case xor left right =>
    obtain ⟨mask, hreq, heq⟩ :=
      bypassDistanceOperation_eval (· ^^^ ·) (fun _ => BitVec.xor_comm) h env
    simp only [HInstruction.eval, heq]
    exact (maskedDistance_xor_of_zero _ _ (maskedDistance_of_int64FromConstant_eq_zero hreq)).symm
  case add left right =>
    obtain ⟨mask, hreq, heq⟩ :=
      bypassDistanceOperation_eval (· + ·) (fun _ => BitVec.add_comm) h env
    simp only [HInstruction.eval, heq]
    exact (maskedDistance_add_of_zero _ _ (maskedDistance_of_int64FromConstant_eq_zero hreq)).symm
  case sub left right =>
    obtain ⟨mask, hreq, heq⟩ :=
      bypassDistanceOperation_eval (· - ·) (fun h => absurd h Bool.false_ne_true) h env
    simp only [HInstruction.eval, heq]
    exact (maskedDistance_sub_of_zero _ _ (maskedDistance_of_int64FromConstant_eq_zero hreq)).symm
  case typeConversion s r input =>
    cases s
    · simp only [visitShiftDistance, Option.some.injEq, ShiftChange.replaceDistance.injEq] at h
      subst h
      rw [HInstruction.eval, maskedDistance_convert, BitVec.setWidth_eq]
    · simp [visitShiftDistance] at h
  all_goals simp [visitShiftDistance] at h

/-- Applying a change that `VisitShift` chose keeps the shift's value, for any shift that reads
its distance masked and shifts by zero as the identity. -/
theorem ShiftChange.apply_eval {t : IntType} {d : HInstruction .int32} {change : ShiftChange}
    (h : visitShiftDistance t d = some change) (value : HInstruction t)
    (shift : HInstruction .int32 → HInstruction t) (f : BitVec t.bits → Nat → BitVec t.bits)
    (hshift : ∀ e env, (shift e).eval env = f (value.eval env) (maskedDistance t (e.eval env)))
    (hzero : ∀ x, f x 0 = x) (env : HEnv) :
    (change.apply value shift).eval env = (shift d).eval env := by
  cases change with
  | removeShift =>
    rw [ShiftChange.apply, hshift, visitShiftDistance_removeShift h env, hzero]
  | replaceDistance d' =>
    rw [ShiftChange.apply, hshift, hshift, visitShiftDistance_replaceDistance h env]

/-- Every `VisitShift` rewrite keeps the value of the shift. -/
theorem visitShift_eval {t : IntType} {i i' : HInstruction t} (h : visitShift i = some i')
    (env : HEnv) : i'.eval env = i.eval env := by
  cases i
  case shl =>
    rename_i d value
    obtain ⟨change, hchange, rfl⟩ := Option.map_eq_some_iff.1 h
    exact change.apply_eval hchange value (.shl value) (· <<< ·) (fun _ _ => rfl)
      BitVec.shiftLeft_zero env
  case shr =>
    rename_i d value
    obtain ⟨change, hchange, rfl⟩ := Option.map_eq_some_iff.1 h
    exact change.apply_eval hchange value (.shr value) BitVec.sshiftRight (fun _ _ => rfl)
      (fun _ => BitVec.sshiftRight_zero) env
  case ushr =>
    rename_i d value
    obtain ⟨change, hchange, rfl⟩ := Option.map_eq_some_iff.1 h
    exact change.apply_eval hchange value (.ushr value) (· >>> ·) (fun _ _ => rfl)
      BitVec.ushiftRight_zero env
  all_goals cases h

/-! ## `TryReplaceWithRotate` -/

/-- `IsSubRegBitsMinusOther`: `sub` is `#c - other` with `c` a multiple of `reg_bits`. -/
def isSubRegBitsMinusOther (sub : HInstruction .int32) (regBits : Nat)
    (other : HInstruction .int32) : Bool :=
  match sub with
  | .sub left right =>
    right == other &&
      match left with
      | .constant _ c => (int64FromConstant c &&& BitVec.ofNat 64 (regBits - 1)) == 0
      | _ => false
  | _ => false

/-- `TryReplaceWithRotateConstantPattern`: both distances constant, adding up to a multiple of
the width. -/
def tryReplaceWithRotateConstantPattern (t : IntType) (ushrRight shlRight : HInstruction .int32) :
    Bool :=
  match ushrRight, shlRight with
  | .constant _ rdist, .constant _ ldist =>
    let regBits := t.bits
    ((int64FromConstant ldist + int64FromConstant rdist) &&& BitVec.ofNat 64 (regBits - 1)) == 0
  | _, _ => false

/-- `TryReplaceWithRotateRegisterNegPattern`: one distance is `Neg` of the other. Under `Add` and
`Xor` the negated value must be a non-zero constant. -/
def tryReplaceWithRotateRegisterNegPattern (opIsOr : Bool) (ushrRight shlRight : HInstruction .int32) :
    Bool :=
  let negIsLeft := shlRight.isNeg
  match (if negIsLeft then shlRight else ushrRight) with
  | .neg value =>
    value == (if negIsLeft then ushrRight else shlRight) &&
      (opIsOr ||
        match value with
        | .constant _ c => c != 0
        | _ => false)
  | _ => false

/-- `TryReplaceWithRotateRegisterSubPattern`: one distance is `#c - ` the other, `c` a multiple
of the width. Unlike the `Neg` pattern, nothing is required of the distance under `Add` and
`Xor`. -/
def tryReplaceWithRotateRegisterSubPattern (t : IntType) (ushrRight shlRight : HInstruction .int32) :
    Bool :=
  let regBits := t.bits
  (shlRight.isSub && isSubRegBitsMinusOther shlRight regBits ushrRight) ||
    (ushrRight.isSub && isSubRegBitsMinusOther ushrRight regBits shlRight)

/-- The `UShr` and the `Shl` among two inputs, in either order, as the shifted values and the
distances `(ushr.left, ushr.right, shl.left, shl.right)`. -/
def ushrAndShl {t : IntType} (left right : HInstruction t) :
    Option (HInstruction t × HInstruction .int32 × HInstruction t × HInstruction .int32) :=
  match left, right with
  | .ushr x d, .shl y e => some (x, d, y, e)
  | .shl y e, .ushr x d => some (x, d, y, e)
  | _, _ => none

/-- Which pattern `TryReplaceWithRotate` tries is decided by the shape of the distances. -/
def rotatePatternMatches (t : IntType) (opIsOr : Bool) (ushrRight shlRight : HInstruction .int32) :
    Bool :=
  if ushrRight.isConstant && shlRight.isConstant then
    tryReplaceWithRotateConstantPattern t ushrRight shlRight
  else if ushrRight.isSub || shlRight.isSub then
    tryReplaceWithRotateRegisterSubPattern t ushrRight shlRight
  else if ushrRight.isNeg || shlRight.isNeg then
    tryReplaceWithRotateRegisterNegPattern opIsOr ushrRight shlRight
  else false

/-- `TryReplaceWithRotate` on an operation with inputs `left` and `right`: the `Ror` of the
`UShr`'s value by the `UShr`'s distance (`ReplaceRotateWithRor`). -/
def tryReplaceWithRotateInputs {t : IntType} (opIsOr : Bool) (left right : HInstruction t) :
    Option (HInstruction t) :=
  match ushrAndShl left right with
  | some (x, ushrRight, y, shlRight) =>
    if x = y ∧ rotatePatternMatches t opIsOr ushrRight shlRight then some (.ror x ushrRight)
    else none
  | none => none

/-- `TryReplaceWithRotate`, as `VisitAdd`, `VisitXor` and `VisitOr` call it. -/
def tryReplaceWithRotate {t : IntType} : HInstruction t → Option (HInstruction t)
  | .add left right => tryReplaceWithRotateInputs false left right
  | .xor left right => tryReplaceWithRotateInputs false left right
  | .or left right => tryReplaceWithRotateInputs true left right
  | _ => none

/-! ### The accepted distances add up to a multiple of the width -/

/-- Masking with `reg_bits - 1` tests divisibility by the width. -/
theorem and_bits_sub_one_eq_zero {t : IntType} {x : BitVec 64}
    (h : (x &&& BitVec.ofNat 64 (t.bits - 1)) = 0) : x.toNat % t.bits = 0 := by
  rw [← t.maxShiftDistance_eq_bits_sub_one] at h
  rw [← t.toNat_and_maxShiftDistance x (by decide), h]
  rfl

section Distances

variable {t : IntType} (env : HEnv)

theorem tryReplaceWithRotateConstantPattern_distances {ushrRight shlRight : HInstruction .int32}
    (h : tryReplaceWithRotateConstantPattern t ushrRight shlRight = true) :
    (maskedDistance t (ushrRight.eval env) + maskedDistance t (shlRight.eval env)) % t.bits = 0 := by
  unfold tryReplaceWithRotateConstantPattern at h
  split at h
  · rename_i rdist ldist
    have hsum := and_bits_sub_one_eq_zero (beq_iff_eq.1 h)
    rw [BitVec.toNat_add_mod_of_dvd t.bits_dvd_two_pow_64, Nat.add_mod,
      int64FromConstant_toNat_mod, int64FromConstant_toNat_mod] at hsum
    rw [HInstruction.eval, HInstruction.eval, Nat.add_comm]
    exact hsum
  · cases h

/-- `#c - other` with `c` a multiple of the width is the distance complementary to `other`. -/
theorem isSubRegBitsMinusOther_distances {sub other : HInstruction .int32}
    (h : isSubRegBitsMinusOther sub t.bits other = true) :
    (maskedDistance t (sub.eval env) + maskedDistance t (other.eval env)) % t.bits = 0 := by
  unfold isSubRegBitsMinusOther at h
  split at h
  · rename_i left right
    obtain ⟨hright, hleft⟩ := Bool.and_eq_true_iff.1 h
    cases beq_iff_eq.1 hright
    split at hleft
    · rename_i c
      have hc : c.toNat % t.bits = 0 := by
        rw [← maskedDistance_eq, ← int64FromConstant_toNat_mod]
        exact and_bits_sub_one_eq_zero (beq_iff_eq.1 hleft)
      simp only [HInstruction.eval, maskedDistance_eq]
      rw [← Nat.add_mod, Nat.add_comm, BitVec.toNat_add_sub_mod_of_dvd t.bits_dvd_two_pow_32]
      exact hc
    · cases hleft
  · cases h

theorem tryReplaceWithRotateRegisterSubPattern_distances {ushrRight shlRight : HInstruction .int32}
    (h : tryReplaceWithRotateRegisterSubPattern t ushrRight shlRight = true) :
    (maskedDistance t (ushrRight.eval env) + maskedDistance t (shlRight.eval env)) % t.bits = 0 := by
  unfold tryReplaceWithRotateRegisterSubPattern at h
  rcases Bool.or_eq_true_iff.1 h with hshl | hushr
  · rw [Nat.add_comm]
    exact isSubRegBitsMinusOther_distances env (Bool.and_eq_true_iff.1 hshl).2
  · exact isSubRegBitsMinusOther_distances env (Bool.and_eq_true_iff.1 hushr).2

theorem tryReplaceWithRotateRegisterNegPattern_distances {opIsOr : Bool}
    {ushrRight shlRight : HInstruction .int32}
    (h : tryReplaceWithRotateRegisterNegPattern opIsOr ushrRight shlRight = true) :
    (maskedDistance t (ushrRight.eval env) + maskedDistance t (shlRight.eval env)) % t.bits = 0 := by
  unfold tryReplaceWithRotateRegisterNegPattern at h
  -- Which distance is negated decides the order of the two residues.
  by_cases hneg : shlRight.isNeg
  · simp only [hneg, if_true] at h
    split at h
    · rename_i value
      cases beq_iff_eq.1 (Bool.and_eq_true_iff.1 h).1
      simp only [HInstruction.eval, maskedDistance_eq]
      rw [← Nat.add_mod]
      exact BitVec.toNat_add_neg_mod_of_dvd t.bits_dvd_two_pow_32 _
    · cases h
  · simp only [hneg, Bool.false_eq_true, if_false] at h
    split at h
    · rename_i value
      cases beq_iff_eq.1 (Bool.and_eq_true_iff.1 h).1
      simp only [HInstruction.eval, maskedDistance_eq]
      rw [← Nat.add_mod, Nat.add_comm]
      exact BitVec.toNat_add_neg_mod_of_dvd t.bits_dvd_two_pow_32 _
    · cases h

/-- Whatever pattern accepts two distances, they add up to a multiple of the width. -/
theorem rotatePatternMatches_distances {opIsOr : Bool} {ushrRight shlRight : HInstruction .int32}
    (h : rotatePatternMatches t opIsOr ushrRight shlRight = true) :
    (maskedDistance t (ushrRight.eval env) + maskedDistance t (shlRight.eval env)) % t.bits = 0 := by
  unfold rotatePatternMatches at h
  split_ifs at h
  · exact tryReplaceWithRotateConstantPattern_distances env h
  · exact tryReplaceWithRotateRegisterSubPattern_distances env h
  · exact tryReplaceWithRotateRegisterNegPattern_distances env h

end Distances

/-! ### Values of the rotate rewrites -/

theorem ushrAndShl_eq_some {t : IntType} {left right x y : HInstruction t}
    {d e : HInstruction .int32} (h : ushrAndShl left right = some (x, d, y, e)) :
    left = .ushr x d ∧ right = .shl y e ∨ left = .shl y e ∧ right = .ushr x d := by
  unfold ushrAndShl at h
  split at h
  · simp only [Option.some.injEq, Prod.mk.injEq] at h
    obtain ⟨rfl, rfl, rfl, rfl⟩ := h
    exact Or.inl ⟨rfl, rfl⟩
  · simp only [Option.some.injEq, Prod.mk.injEq] at h
    obtain ⟨rfl, rfl, rfl, rfl⟩ := h
    exact Or.inr ⟨rfl, rfl⟩
  · cases h

/-- A rotate rewrite replaces `op(UShr(x, d), Shl(x, e))`, in either order, by `Ror(x, d)`, and
only when a pattern accepts `d` and `e`. -/
theorem tryReplaceWithRotateInputs_eq_some {t : IntType} {opIsOr : Bool}
    {left right r : HInstruction t} (h : tryReplaceWithRotateInputs opIsOr left right = some r) :
    ∃ x d e, r = .ror x d ∧ rotatePatternMatches t opIsOr d e = true ∧
      (left = .ushr x d ∧ right = .shl x e ∨ left = .shl x e ∧ right = .ushr x d) := by
  unfold tryReplaceWithRotateInputs at h
  split at h
  · rename_i x d y e hshifts
    split_ifs at h with hmatch
    cases h
    obtain ⟨rfl, hpattern⟩ := hmatch
    exact ⟨x, d, e, rfl, hpattern, ushrAndShl_eq_some hshifts⟩
  · cases h

/-- `Ror(x, d)` has the value of `op` of the two shifts whenever `op` combines the two halves of
the rotation by `d` into the rotation. -/
theorem tryReplaceWithRotateInputs_eval {t : IntType} {opIsOr : Bool} {left right x : HInstruction t}
    {d : HInstruction .int32} (h : tryReplaceWithRotateInputs opIsOr left right = some (.ror x d))
    (env : HEnv) (op : BitVec t.bits → BitVec t.bits → BitVec t.bits)
    (hcomm : ∀ a b, op a b = op b a)
    (hhalves : ∀ l, l < t.bits → (maskedDistance t (d.eval env) + l) % t.bits = 0 →
      op (x.eval env >>> maskedDistance t (d.eval env)) (x.eval env <<< l) =
        (x.eval env).rotateRight (maskedDistance t (d.eval env))) :
    (HInstruction.ror x d).eval env = op (left.eval env) (right.eval env) := by
  obtain ⟨x', d', e, hr, hpattern, hinputs⟩ := tryReplaceWithRotateInputs_eq_some h
  cases hr
  have hsum := rotatePatternMatches_distances env hpattern
  have hl := maskedDistance_lt t (e.eval env)
  rcases hinputs with ⟨rfl, rfl⟩ | ⟨rfl, rfl⟩
  · simp only [HInstruction.eval]
    exact (hhalves _ hl hsum).symm
  · simp only [HInstruction.eval]
    rw [hcomm]
    exact (hhalves _ hl hsum).symm

/-- Every rotate rewrite of an `Or` keeps its value: at a zero distance both halves are `x`,
and `x | x = x`. -/
theorem tryReplaceWithRotate_or_eval {t : IntType} {left right r : HInstruction t}
    (h : tryReplaceWithRotate (.or left right) = some r) (env : HEnv) :
    r.eval env = (HInstruction.or left right).eval env := by
  obtain ⟨x, d, e, rfl, -, -⟩ := tryReplaceWithRotateInputs_eq_some h
  exact tryReplaceWithRotateInputs_eval h env (· ||| ·) BitVec.or_comm
    fun _ hl hsum =>
      BitVec.ushiftRight_or_shiftLeft_eq_rotateRight _ (maskedDistance_lt _ _) hl hsum

/-- A rotate rewrite of an `Add`, `Xor` or `Or` keeps its value whenever the rotation distance,
masked, is not zero. -/
theorem tryReplaceWithRotate_eval {t : IntType} {op x : HInstruction t} {d : HInstruction .int32}
    (h : tryReplaceWithRotate op = some (.ror x d)) (env : HEnv)
    (hd : maskedDistance t (d.eval env) ≠ 0) :
    (HInstruction.ror x d).eval env = op.eval env := by
  have hr := maskedDistance_lt t (d.eval env)
  cases op
  case add =>
    exact tryReplaceWithRotateInputs_eval h env (· + ·) BitVec.add_comm
      fun _ hl hsum => BitVec.ushiftRight_add_shiftLeft_eq_rotateRight _ hr hl hsum hd
  case xor =>
    exact tryReplaceWithRotateInputs_eval h env (· ^^^ ·) BitVec.xor_comm
      fun _ hl hsum => BitVec.ushiftRight_xor_shiftLeft_eq_rotateRight _ hr hl hsum hd
  case or =>
    exact tryReplaceWithRotateInputs_eval h env (· ||| ·) BitVec.or_comm
      fun _ hl hsum => BitVec.ushiftRight_or_shiftLeft_eq_rotateRight _ hr hl hsum
  all_goals cases h

/-- The `Sub` pattern under `Add` at a distance that is a multiple of the width: the rewrite
fires, the original adds `x` to itself, and the `Ror` that replaces it is `x`. -/
theorem tryReplaceWithRotate_add_sub_pattern_zero_distance {t : IntType} (x : HInstruction t)
    (d : HInstruction .int32) (env : HEnv) (hd : maskedDistance t (d.eval env) = 0) :
    tryReplaceWithRotate
        (.add (.ushr x d) (.shl x (.sub (.constant .int32 (BitVec.ofNat 32 t.bits)) d))) =
        some (.ror x d) ∧
      (HInstruction.add (.ushr x d)
        (.shl x (.sub (.constant .int32 (BitVec.ofNat 32 t.bits)) d))).eval env =
        x.eval env + x.eval env ∧
      (HInstruction.ror x d).eval env = x.eval env := by
  have hc : (int64FromConstant (t := .int32) (BitVec.ofNat 32 t.bits) &&&
      BitVec.ofNat 64 (t.bits - 1)) = 0 := by
    cases t <;> decide
  have hmatch : rotatePatternMatches t false d
      (.sub (.constant .int32 (BitVec.ofNat 32 t.bits)) d) = true := by
    simp [rotatePatternMatches, tryReplaceWithRotateRegisterSubPattern, isSubRegBitsMinusOther,
      HInstruction.isConstant, HInstruction.isSub, hc]
  -- The left shift's distance is then a multiple of the width too.
  have hsum := rotatePatternMatches_distances env hmatch
  rw [hd, Nat.zero_add, Nat.mod_eq_of_lt (maskedDistance_lt _ _)] at hsum
  refine ⟨?_, ?_, ?_⟩
  · simp [tryReplaceWithRotate, tryReplaceWithRotateInputs, ushrAndShl, hmatch]
  · simp only [HInstruction.eval] at hsum ⊢
    rw [hd, hsum, BitVec.ushiftRight_zero, BitVec.shiftLeft_zero]
  · rw [HInstruction.eval, hd, BitVec.rotateRight_zero_eq]

/-- An execution with the `int` parameters `x = 1` and `d = 0`. -/
def rotateZeroDistanceEnv : HEnv where
  parameter := fun _ i => if i = 0 then 1 else 0
  arrayLength := fun _ => 0
  arrayLength_lt := fun _ => by decide

/-- `(x >>> d) + (x << (32 - d))` at `x = 1`, `d = 0` is `2`; the rotation put in its place
is `1`. -/
theorem tryReplaceWithRotate_add_sub_pattern_at_one :
    tryReplaceWithRotate (.add (.ushr (.parameterValue .int32 0) (.parameterValue .int32 1))
        (.shl (.parameterValue .int32 0)
          (.sub (.constant .int32 32#32) (.parameterValue .int32 1)))) =
        some (.ror (.parameterValue .int32 0) (.parameterValue .int32 1)) ∧
      (HInstruction.add (.ushr (.parameterValue .int32 0) (.parameterValue .int32 1))
        (.shl (.parameterValue .int32 0)
          (.sub (.constant .int32 32#32) (.parameterValue .int32 1)))).eval
        rotateZeroDistanceEnv = 2#32 ∧
      (HInstruction.ror (.parameterValue .int32 0) (.parameterValue .int32 1)).eval
        rotateZeroDistanceEnv = 1#32 := by
  obtain ⟨hrewrite, horiginal, hror⟩ :=
    tryReplaceWithRotate_add_sub_pattern_zero_distance (.parameterValue .int32 0)
      (.parameterValue .int32 1) rotateZeroDistanceEnv (by decide)
  refine ⟨hrewrite, ?_, ?_⟩
  · rw [horiginal]
    decide
  · rw [hror]
    decide

end InstructionSimplifier

end Art
