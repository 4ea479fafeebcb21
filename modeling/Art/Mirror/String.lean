import Mathlib.Data.Nat.Bitwise
import Art.Lib.Repeat

/-!
# Compressed Java strings

A `mirror::String` (string.h, string.cc) keeps its length and a compression flag in one 32-bit
`count` field, `length << 1 | flag`, the flag `0` for a string stored as bytes (compressed) and
`1` for one stored as UTF-16 units. A string is compressed when all its units are ASCII,
`1 ≤ c ≤ 0x7f` (`String::IsASCII`), and every constructor decides compressibility its own way.

* `MString.Valid`: the count's length and flag describe the storage; `MString.Canonical`: the
  string is compressed exactly when all its units are ASCII.
* Each constructor builds a valid, canonical string with the content Java specifies, from valid,
  canonical strings: `allocFromUtf16_spec`, `doConcat_spec`, `doReplace_spec`, `doRepeat_spec`.
* `equals_iff`: on valid, canonical strings, `Equals` (count, then `memcmp`) is equality of the
  UTF-16 contents; `compareTo_eq`: `CompareTo` is Java's `String.compareTo` on valid strings, in
  all four storage combinations.
* `doConcat_overflow`: `DoConcat` adds the two lengths in `int32_t`; when they add up to `2^31`
  or more the sum overflows, and the count it would store has length `a + b - 2^31`.

Signed `int32_t` arithmetic that would overflow is undefined in C++; the constructors that compute
a length return `none` there.
-/

namespace Art.Mirror

/-- `String::IsASCII`: `(c - 1u) < 0x7fu` in `unsigned int`, so `0` is not ASCII. -/
def isASCII (c : BitVec 16) : Bool :=
  BitVec.ult (c.setWidth 32 - 1) 0x7f

/-- `String::AllASCII`. -/
def allASCII (chars : List (BitVec 16)) : Bool :=
  chars.all isASCII

/-- `String::AllASCIIExcept`: every unit is ASCII or is `nonAscii`. -/
def allASCIIExcept (chars : List (BitVec 16)) (nonAscii : BitVec 16) : Bool :=
  chars.all fun c => isASCII c || c == nonAscii

/-- `String::GetFlaggedCount`: `(uint32_t(length) << 1) | flag`, with `kCompressed = 0`. -/
def getFlaggedCount (length : Nat) (compressible : Bool) : BitVec 32 :=
  (BitVec.ofNat 32 length <<< 1) ||| (if compressible then 0 else 1)

/-- `String::GetLengthFromCount`: `uint32_t(count) >> 1`. -/
def getLengthFromCount (count : BitVec 32) : Nat :=
  (count >>> 1).toNat

/-- `String::IsCompressed(count)`: the flag bit is `kCompressed`. -/
def isCompressed (count : BitVec 32) : Bool :=
  count &&& 1 == 0

/-- The character data: `value_compressed_` bytes or `value_` UTF-16 units. -/
inductive StringValue where
  | compressed (bytes : List (BitVec 8))
  | uncompressed (chars : List (BitVec 16))
  deriving DecidableEq, Repr

/-- A `mirror::String`: its `count_` field and its character data. -/
structure MString where
  count : BitVec 32
  value : StringValue
  deriving DecidableEq, Repr

namespace StringValue

def isCompressed : StringValue → Bool
  | .compressed _ => true
  | .uncompressed _ => false

def length : StringValue → Nat
  | .compressed bytes => bytes.length
  | .uncompressed chars => chars.length

/-- The UTF-16 content: bytes are zero-extended. -/
def chars : StringValue → List (BitVec 16)
  | .compressed bytes => bytes.map (BitVec.setWidth 16)
  | .uncompressed chars => chars

end StringValue

namespace MString

/-- `GetLength()`. -/
def length (s : MString) : Nat := getLengthFromCount s.count

/-- `IsCompressed()`. -/
def isCompressed (s : MString) : Bool := Mirror.isCompressed s.count

/-- `GetValueCompressed()`: the bytes of a compressed string (none for an uncompressed one,
which a valid string never reads). -/
def valueCompressed (s : MString) : List (BitVec 8) :=
  match s.value with
  | .compressed bytes => bytes
  | .uncompressed _ => []

/-- `GetValue()`: the UTF-16 units of an uncompressed string. -/
def valueUncompressed (s : MString) : List (BitVec 16) :=
  match s.value with
  | .compressed _ => []
  | .uncompressed chars => chars

/-- The UTF-16 content of the string, the `java.lang.String` it stands for. -/
def chars (s : MString) : List (BitVec 16) := s.value.chars

/-- The count describes the storage: its length is the number of stored units and its flag the
storage kind. -/
structure Valid (s : MString) : Prop where
  length_eq : s.length = s.value.length
  compressed_eq : s.isCompressed = s.value.isCompressed

/-- A string is compressed exactly when all its units are ASCII. -/
def Canonical (s : MString) : Prop := s.value.isCompressed = allASCII s.chars

end MString

/-! ## Constructors -/

namespace MString

/-- `String::AllocFromUtf16`. -/
def allocFromUtf16 (utf16DataIn : List (BitVec 16)) : MString :=
  let compressible := allASCII utf16DataIn
  { count := getFlaggedCount utf16DataIn.length compressible
    value :=
      if compressible then .compressed (utf16DataIn.map (BitVec.setWidth 8))
      else .uncompressed utf16DataIn }

/-- The units `DoConcat` copies from one operand into an uncompressed result: its bytes widened
when it is compressed, its units otherwise. -/
def unitsPrefix (s : MString) (n : Nat) : List (BitVec 16) :=
  if s.isCompressed then (s.valueCompressed.take n).map (BitVec.setWidth 16)
  else s.valueUncompressed.take n

/-- `String::DoConcat`; `none` where `length_this + length_arg` overflows `int32_t`. -/
def doConcat (hThis hArg : MString) : Option MString :=
  let lengthThis := hThis.length
  let lengthArg := hArg.length
  if 2 ^ 31 ≤ lengthThis + lengthArg then none
  else
    let compressible := hThis.isCompressed && hArg.isCompressed
    some
      { count := getFlaggedCount (lengthThis + lengthArg) compressible
        value :=
          if compressible then
            .compressed (hThis.valueCompressed.take lengthThis ++ hArg.valueCompressed.take lengthArg)
          else .uncompressed (hThis.unitsPrefix lengthThis ++ hArg.unitsPrefix lengthArg) }

/-- The replacement of `DoReplace`: `(old_c != c) ? c : new_c`. -/
def replaceChar (oldC newC c : BitVec 16) : BitVec 16 :=
  if oldC != c then c else newC

/-- `String::DoReplace`. -/
def doReplace (src : MString) (oldC newC : BitVec 16) : MString :=
  let length := src.length
  let compressible := isASCII newC &&
    (src.isCompressed || (!isASCII oldC && allASCIIExcept (src.valueUncompressed.take length) oldC))
  let replace := replaceChar oldC newC
  { count := getFlaggedCount length compressible
    value :=
      if compressible then
        .compressed <|
          if src.isCompressed then
            (src.valueCompressed.take length).map fun b => (replace (b.setWidth 16)).setWidth 8
          else (src.valueUncompressed.take length).map fun c => (replace c).setWidth 8
      else
        .uncompressed <|
          if src.isCompressed then
            (src.valueCompressed.take length).map fun b => replace (b.setWidth 16)
          else (src.valueUncompressed.take length).map replace }

/-- The doubling loop of `RepeatCharacters`:
`for (; copied < limit - copied; copied <<= 1) memcpy(new_value + copied, new_value, copied)`.
`newValue` is the filled prefix of the buffer; `fuel` bounds the iterations. -/
def repeatLoop {α : Type} (fuel : Nat) (newValue : List α) (copied limit : Nat) :
    List α × Nat :=
  match fuel with
  | 0 => (newValue, copied)
  | fuel + 1 =>
    if copied < limit - copied then
      repeatLoop fuel (newValue ++ newValue.take copied) (copied <<< 1) limit
    else (newValue, copied)

/-- `RepeatCharacters<T>`: fill for a single character, otherwise copy the string once, double
the copied prefix while it is at most half the result, and copy the rest. The loop is run with
`limit` iterations of fuel, more than it takes. -/
def repeatCharacters {α : Type} [Inhabited α] (hThisValue : List α) (lengthThis count : Nat) :
    List α :=
  if lengthThis = 1 then List.replicate count (hThisValue.headD default)
  else
    let limit := lengthThis * count
    let (newValue, copied) := repeatLoop limit (hThisValue.take lengthThis) lengthThis limit
    newValue ++ newValue.take (limit - copied)

/-- `String::DoRepeat`; `none` where `length_this * count` overflows `int32_t`, which the
caller's `DCHECK_LE(length_this, INT32_MAX / count)` rules out. -/
def doRepeat (hThis : MString) (count : Nat) : Option MString :=
  let lengthThis := hThis.length
  if 2 ^ 31 ≤ lengthThis * count then none
  else
    let compressible := hThis.isCompressed
    some
      { count := getFlaggedCount (lengthThis * count) compressible
        value :=
          if compressible then .compressed (repeatCharacters hThis.valueCompressed lengthThis count)
          else .uncompressed (repeatCharacters hThis.valueUncompressed lengthThis count) }

end MString

/-! ## Comparisons -/

/-- The loops of `CompareTo` and `MemCmp16`: `lhs[i] - rhs[i]` at the first index below both
lengths where it is not zero. -/
def firstCharDiff : List Int → List Int → Option Int
  | x :: xs, y :: ys => if x - y ≠ 0 then some (x - y) else firstCharDiff xs ys
  | _, _ => none

/-- A unit or byte as the `int32_t` the comparisons subtract. -/
def unitValue {w : Nat} (c : BitVec w) : Int := c.toNat

/-- `MemCmp16(s0, s1, count)`: the difference of the first differing units, or `0`. -/
def memCmp16 (s0 s1 : List (BitVec 16)) (count : Nat) : Int :=
  (firstCharDiff ((s0.take count).map unitValue) ((s1.take count).map unitValue)).getD 0

namespace MString

/-- `String::Equals(String*)` on two strings: the counts, then `memcmp` of the data. The
reference and null tests are left out: a string is equal to itself either way. -/
def equals (this that : MString) : Bool :=
  if this.count != that.count then false
  else if this.isCompressed then
    this.valueCompressed.take this.length == that.valueCompressed.take this.length
  else this.valueUncompressed.take this.length == that.valueUncompressed.take this.length

/-- `String::CompareTo`. -/
def compareTo (lhs rhs : MString) : Int :=
  let lhsCount := lhs.length
  let rhsCount := rhs.length
  let countDiff : Int := (lhsCount : Int) - rhsCount
  let minCount := if countDiff < 0 then lhsCount else rhsCount
  if lhs.isCompressed && rhs.isCompressed then
    match firstCharDiff ((lhs.valueCompressed.take minCount).map unitValue)
        ((rhs.valueCompressed.take minCount).map unitValue) with
    | some charDiff => charDiff
    | none => countDiff
  else if lhs.isCompressed || rhs.isCompressed then
    let compressedChars := if lhs.isCompressed then lhs.valueCompressed else rhs.valueCompressed
    let uncompressedChars := if lhs.isCompressed then rhs.valueUncompressed else lhs.valueUncompressed
    match firstCharDiff ((compressedChars.take minCount).map unitValue)
        ((uncompressedChars.take minCount).map unitValue) with
    | some charDiff => if lhs.isCompressed then charDiff else -charDiff
    | none => countDiff
  else
    let charDiff := memCmp16 lhs.valueUncompressed rhs.valueUncompressed minCount
    if charDiff != 0 then charDiff else countDiff

end MString

/-- Java's `String.compareTo`: the difference of the units at the first index where they
differ, otherwise the difference of the lengths. -/
def javaCompareTo : List (BitVec 16) → List (BitVec 16) → Int
  | c :: s, d :: t => if c = d then javaCompareTo s t else (c.toNat : Int) - d.toNat
  | s, t => (s.length : Int) - t.length

/-! ## The count field and ASCII units -/


theorem isASCII_iff (c : BitVec 16) : isASCII c = true ↔ 1 ≤ c.toNat ∧ c.toNat ≤ 0x7f := by
  have hc := c.isLt
  rw [isASCII, BitVec.ult_iff_lt, BitVec.lt_def, BitVec.toNat_sub, BitVec.toNat_setWidth]
  simp
  omega

theorem toNat_lt_of_isASCII {c : BitVec 16} (h : isASCII c = true) : c.toNat < 0x80 := by
  have := (isASCII_iff c).1 h
  omega

theorem getFlaggedCount_toNat (length : Nat) (compressible : Bool) :
    (getFlaggedCount length compressible).toNat =
      length % 2 ^ 31 * 2 + (if compressible then 0 else 1) := by
  -- the flag sits in the bit the shift clears, so `|||` is `+`
  have hdisj : (BitVec.ofNat 32 length <<< 1) &&& (if compressible then 0 else 1) = 0 := by
    cases compressible
    · ext i hi
      rcases i with _ | i <;> simp [BitVec.getElem_one]
    · simp
  rw [getFlaggedCount, ← BitVec.add_eq_or_of_and_eq_zero _ _ hdisj, BitVec.toNat_add,
    BitVec.toNat_shiftLeft, BitVec.toNat_ofNat]
  cases compressible <;> simp <;> omega

theorem getLengthFromCount_eq (count : BitVec 32) : getLengthFromCount count = count.toNat / 2 := by
  simp [getLengthFromCount, BitVec.toNat_ushiftRight, Nat.shiftRight_eq_div_pow]

theorem isCompressed_eq (count : BitVec 32) :
    isCompressed count = decide (count.toNat % 2 = 0) := by
  have h : (count &&& 1).toNat = count.toNat % 2 := by
    simp [BitVec.toNat_and, Nat.and_one_is_mod]
  rw [isCompressed, Bool.eq_iff_iff, beq_iff_eq, decide_eq_true_eq, ← BitVec.toNat_inj, h]
  simp

/-- The length read back from a flagged count is the length modulo `2^31`: the shift drops the
top bit. -/
theorem getLengthFromCount_getFlaggedCount (length : Nat) (compressible : Bool) :
    getLengthFromCount (getFlaggedCount length compressible) = length % 2 ^ 31 := by
  rw [getLengthFromCount_eq, getFlaggedCount_toNat]
  cases compressible <;> simp
  omega

theorem isCompressed_getFlaggedCount (length : Nat) (compressible : Bool) :
    isCompressed (getFlaggedCount length compressible) = compressible := by
  rw [isCompressed_eq, getFlaggedCount_toNat]
  cases compressible <;> simp

/-- Every count is the flagged count of its own length and flag. -/
theorem getFlaggedCount_getLengthFromCount (count : BitVec 32) :
    getFlaggedCount (getLengthFromCount count) (isCompressed count) = count := by
  have hc := count.isLt
  apply BitVec.eq_of_toNat_eq
  rw [getFlaggedCount_toNat, getLengthFromCount_eq, isCompressed_eq]
  by_cases heven : count.toNat % 2 = 0 <;> simp [heven] <;> omega

/-! ## Valid strings -/


namespace StringValue

@[simp] theorem chars_compressed (bytes : List (BitVec 8)) :
    (compressed bytes).chars = bytes.map (BitVec.setWidth 16) := rfl

@[simp] theorem chars_uncompressed (chars : List (BitVec 16)) :
    (uncompressed chars).chars = chars := rfl

@[simp] theorem isCompressed_compressed (bytes : List (BitVec 8)) :
    (compressed bytes).isCompressed = true := rfl

@[simp] theorem isCompressed_uncompressed (chars : List (BitVec 16)) :
    (uncompressed chars).isCompressed = false := rfl

@[simp] theorem length_compressed (bytes : List (BitVec 8)) :
    (compressed bytes).length = bytes.length := rfl

@[simp] theorem length_uncompressed (chars : List (BitVec 16)) :
    (uncompressed chars).length = chars.length := rfl

@[simp] theorem length_chars (v : StringValue) : v.chars.length = v.length := by
  cases v <;> simp

end StringValue

@[simp] theorem MString.chars_mk (count : BitVec 32) (value : StringValue) :
    (MString.mk count value).chars = value.chars := rfl

theorem MString.canonical_iff (s : MString) : s.Canonical ↔ s.value.isCompressed = allASCII s.chars :=
  Iff.rfl

namespace MString

theorem length_lt (s : MString) : s.length < 2 ^ 31 := by
  have := s.count.isLt
  rw [length, getLengthFromCount_eq]
  omega

/-- A count flagged from the data's own length and kind describes the data. -/
theorem valid_of_getFlaggedCount {n : Nat} {c : Bool} {value : StringValue} (hn : n < 2 ^ 31)
    (hlength : value.length = n) (hcompressed : value.isCompressed = c) :
    Valid ⟨getFlaggedCount n c, value⟩ where
  length_eq := by
    rw [length, getLengthFromCount_getFlaggedCount, Nat.mod_eq_of_lt hn, hlength]
  compressed_eq := by
    rw [isCompressed, isCompressed_getFlaggedCount, hcompressed]

/-- A string flagged with the length of its content and with the content's ASCII test as its
kind is valid, canonical, and holds that content. -/
theorem spec_of_getFlaggedCount {n : Nat} {c : Bool} {value : StringValue}
    {content : List (BitVec 16)} (hn : n < 2 ^ 31) (hchars : value.chars = content)
    (hlength : content.length = n) (hkind : value.isCompressed = c)
    (hc : c = allASCII content) :
    (MString.mk (getFlaggedCount n c) value).Valid ∧
      (MString.mk (getFlaggedCount n c) value).Canonical ∧
      (MString.mk (getFlaggedCount n c) value).chars = content := by
  refine ⟨valid_of_getFlaggedCount hn ?_ hkind, ?_, ?_⟩
  · rw [← StringValue.length_chars, hchars, hlength]
  · rw [canonical_iff, chars_mk, hchars, hkind, hc]
  · rw [chars_mk, hchars]

section Read

variable {s : MString} (hv : s.Valid)
include hv

theorem Valid.length_chars : s.chars.length = s.length := by
  rw [chars, StringValue.length_chars, hv.length_eq]

/-- The bytes `memcpy` and the loops read from a compressed string are its content. -/
theorem Valid.valueCompressed_take (hc : s.isCompressed = true) :
    ∃ bytes, s.value = .compressed bytes ∧ s.valueCompressed.take s.length = bytes := by
  have hlen := hv.length_eq
  have hkind := hv.compressed_eq
  rcases hs : s.value with bytes | chars
  · rw [hs] at hlen
    refine ⟨bytes, rfl, ?_⟩
    rw [valueCompressed, hs, hlen, StringValue.length, List.take_length]
  · rw [hs, hc] at hkind
    cases hkind

theorem Valid.valueUncompressed_take (hc : s.isCompressed = false) :
    ∃ chars, s.value = .uncompressed chars ∧ s.valueUncompressed.take s.length = chars := by
  have hlen := hv.length_eq
  have hkind := hv.compressed_eq
  rcases hs : s.value with bytes | chars
  · rw [hs, hc] at hkind
    cases hkind
  · rw [hs] at hlen
    refine ⟨chars, rfl, ?_⟩
    rw [valueUncompressed, hs, hlen, StringValue.length, List.take_length]

theorem Valid.unitsPrefix_length : s.unitsPrefix s.length = s.chars := by
  cases hc : s.isCompressed
  · obtain ⟨chars, hs, htake⟩ := hv.valueUncompressed_take hc
    rw [unitsPrefix, hc, if_neg Bool.false_ne_true, htake, MString.chars, hs]
    rfl
  · obtain ⟨bytes, hs, htake⟩ := hv.valueCompressed_take hc
    rw [unitsPrefix, hc, if_pos rfl, htake, MString.chars, hs]
    rfl

/-- A valid string's count is determined by its length and its storage kind. -/
theorem Valid.count_eq : s.count = getFlaggedCount s.chars.length s.value.isCompressed := by
  rw [hv.length_chars, ← hv.compressed_eq]
  exact (getFlaggedCount_getLengthFromCount s.count).symm

end Read

end MString

/-! ## Constructors keep strings valid and canonical -/


theorem allASCII_append (s t : List (BitVec 16)) :
    allASCII (s ++ t) = (allASCII s && allASCII t) := List.all_append

/-- ASCII units survive the round trip through a byte. -/
theorem setWidth_setWidth_of_isASCII {c : BitVec 16} (h : isASCII c = true) :
    (c.setWidth 8).setWidth 16 = c := by
  have hlt := toNat_lt_of_isASCII h
  apply BitVec.eq_of_toNat_eq
  simp only [BitVec.toNat_setWidth]
  omega

theorem map_setWidth_of_allASCII {chars : List (BitVec 16)} (h : allASCII chars = true) :
    (chars.map (BitVec.setWidth 8)).map (BitVec.setWidth 16) = chars := by
  rw [List.map_map]
  conv_rhs => rw [← List.map_id chars]
  apply List.map_congr_left
  intro c hc
  exact setWidth_setWidth_of_isASCII (List.all_eq_true.1 h c hc)

namespace MString

theorem allocFromUtf16_spec (utf16DataIn : List (BitVec 16)) (h : utf16DataIn.length < 2 ^ 31) :
    (allocFromUtf16 utf16DataIn).Valid ∧ (allocFromUtf16 utf16DataIn).Canonical ∧
      (allocFromUtf16 utf16DataIn).chars = utf16DataIn := by
  dsimp only [allocFromUtf16]
  split_ifs with hall
  · exact spec_of_getFlaggedCount h (map_setWidth_of_allASCII hall) rfl (by rw [hall]; rfl) rfl
  · exact spec_of_getFlaggedCount h rfl rfl (by rw [Bool.eq_false_iff.2 hall]; rfl) rfl

theorem doConcat_spec {s t : MString} (hs : s.Valid) (ht : t.Valid) (hcs : s.Canonical)
    (hct : t.Canonical) (h : s.length + t.length < 2 ^ 31) :
    ∃ r, doConcat s t = some r ∧ r.Valid ∧ r.Canonical ∧ r.chars = s.chars ++ t.chars := by
  -- the result is compressed exactly when both operands are, that is when all units are ASCII
  have hcomp : (s.isCompressed && t.isCompressed) = allASCII (s.chars ++ t.chars) := by
    rw [hs.compressed_eq, ht.compressed_eq, hcs, hct, allASCII_append]
  have hlength : (s.chars ++ t.chars).length = s.length + t.length := by
    rw [List.length_append, hs.length_chars, ht.length_chars]
  refine ⟨_, if_neg (not_le.2 h), ?_⟩
  split_ifs with hc
  · obtain ⟨hsc, htc⟩ := Bool.and_eq_true_iff.1 hc
    obtain ⟨bs, hsv, hbs⟩ := hs.valueCompressed_take hsc
    obtain ⟨bt, htv, hbt⟩ := ht.valueCompressed_take htc
    refine spec_of_getFlaggedCount h ?_ hlength (by rw [hc]; rfl) hcomp
    rw [hbs, hbt, StringValue.chars_compressed, List.map_append, chars, hsv, chars, htv]
    rfl
  · refine spec_of_getFlaggedCount h ?_ hlength (by rw [Bool.eq_false_iff.2 hc]; rfl) hcomp
    rw [hs.unitsPrefix_length, ht.unitsPrefix_length, StringValue.chars_uncompressed]


/-! ## `DoConcat` past `INT32_MAX` -/

/-- Two strings whose lengths add up to `2^31` or more make `DoConcat` overflow its `int32_t`
sum; the count it would then flag has lost the top bit of the length, so a two's-complement
wrap would allocate `a + b - 2^31` units for the `a + b` it copies. -/
theorem doConcat_overflow (hThis hArg : MString) (hsum : 2 ^ 31 ≤ hThis.length + hArg.length) :
    doConcat hThis hArg = none ∧
      getLengthFromCount (getFlaggedCount (hThis.length + hArg.length)
          (hThis.isCompressed && hArg.isCompressed)) =
        hThis.length + hArg.length - 2 ^ 31 := by
  have hthis := hThis.length_lt
  have harg := hArg.length_lt
  refine ⟨if_pos hsum, ?_⟩
  rw [getLengthFromCount_getFlaggedCount]
  omega

/-- `2^30` units `'a'`, as `"a".repeat(1 << 30)` holds them: `s.concat(s)` overflows. -/
theorem doConcat_overflow_at_two_pow_thirty :
    2 ^ 31 ≤ (allocFromUtf16 (List.replicate (2 ^ 30) 0x61)).length +
        (allocFromUtf16 (List.replicate (2 ^ 30) 0x61)).length ∧
      doConcat (allocFromUtf16 (List.replicate (2 ^ 30) 0x61))
          (allocFromUtf16 (List.replicate (2 ^ 30) 0x61)) = none ∧
      getLengthFromCount (getFlaggedCount
          ((allocFromUtf16 (List.replicate (2 ^ 30) 0x61)).length +
            (allocFromUtf16 (List.replicate (2 ^ 30) 0x61)).length)
          ((allocFromUtf16 (List.replicate (2 ^ 30) 0x61)).isCompressed &&
            (allocFromUtf16 (List.replicate (2 ^ 30) 0x61)).isCompressed)) =
        (allocFromUtf16 (List.replicate (2 ^ 30) 0x61)).length +
          (allocFromUtf16 (List.replicate (2 ^ 30) 0x61)).length - 2 ^ 31 := by
  have hrep : (List.replicate (2 ^ 30) (0x61 : BitVec 16)).length < 2 ^ 31 := by
    rw [List.length_replicate]
    omega
  have hspec := allocFromUtf16_spec (List.replicate (2 ^ 30) 0x61) hrep
  have hlen : (allocFromUtf16 (List.replicate (2 ^ 30) 0x61)).length = 2 ^ 30 := by
    rw [← hspec.1.length_chars, hspec.2.2, List.length_replicate]
  have hsum : 2 ^ 31 ≤ (allocFromUtf16 (List.replicate (2 ^ 30) 0x61)).length +
      (allocFromUtf16 (List.replicate (2 ^ 30) 0x61)).length := by
    rw [hlen]
    omega
  -- the strings are named in full: unifying through `_` would unfold their `2^30` units
  refine ⟨hsum, ?_⟩
  exact doConcat_overflow (allocFromUtf16 (List.replicate (2 ^ 30) 0x61))
    (allocFromUtf16 (List.replicate (2 ^ 30) 0x61)) hsum

end MString


theorem allASCII_eq_true {chars : List (BitVec 16)} :
    allASCII chars = true ↔ ∀ c ∈ chars, isASCII c = true := List.all_eq_true

/-- Units read through `f` from a string's storage, byte or unit, are its content through `f`. -/
theorem MString.Valid.map_read {s : MString} (hv : s.Valid) {α : Type} (f : BitVec 16 → α) :
    (if s.isCompressed then (s.valueCompressed.take s.length).map (fun b => f (b.setWidth 16))
      else (s.valueUncompressed.take s.length).map f) = s.chars.map f := by
  cases hc : s.isCompressed
  · obtain ⟨chars, hs, htake⟩ := hv.valueUncompressed_take hc
    rw [if_neg Bool.false_ne_true, htake, MString.chars, hs]
    rfl
  · obtain ⟨bytes, hs, htake⟩ := hv.valueCompressed_take hc
    rw [if_pos rfl, htake, MString.chars, hs, StringValue.chars, List.map_map]
    rfl

theorem replaceChar_eq (oldC newC c : BitVec 16) :
    MString.replaceChar oldC newC c = if c = oldC then newC else c := by
  by_cases h : c = oldC
  · simp [MString.replaceChar, h]
  · simp [MString.replaceChar, h, Ne.symm h]

/-- With `oldC` present, the replaced units are all ASCII exactly when `newC` is and every other
unit is. -/
theorem allASCII_map_replaceChar {chars : List (BitVec 16)} {oldC : BitVec 16} (newC : BitVec 16)
    (hmem : oldC ∈ chars) :
    allASCII (chars.map (MString.replaceChar oldC newC)) =
      (isASCII newC && allASCIIExcept chars oldC) := by
  rw [Bool.eq_iff_iff, Bool.and_eq_true, allASCII_eq_true, allASCIIExcept, List.all_eq_true]
  simp only [List.mem_map, forall_exists_index, and_imp, forall_apply_eq_imp_iff₂, replaceChar_eq,
    Bool.or_eq_true, beq_iff_eq]
  constructor
  · intro h
    refine ⟨by simpa using h oldC hmem, fun c hc => ?_⟩
    by_cases hco : c = oldC
    · exact .inr hco
    · exact .inl (by simpa [hco] using h c hc)
  · rintro ⟨hnew, hrest⟩ c hc
    by_cases hco : c = oldC
    · simpa [hco] using hnew
    · simpa [hco] using (hrest c hc).resolve_right hco

/-- A string with a non-ASCII unit passes `AllASCIIExcept` only if `oldC` is that unit. -/
theorem not_isASCII_of_allASCIIExcept {chars : List (BitVec 16)} {oldC : BitVec 16}
    (hnot : allASCII chars = false) (hexcept : allASCIIExcept chars oldC = true) :
    isASCII oldC = false := by
  obtain ⟨c, hc, hcnot⟩ : ∃ c ∈ chars, ¬ isASCII c = true := by
    simpa [allASCII, List.all_eq_false] using hnot
  have hor := List.all_eq_true.1 hexcept c hc
  simp only [Bool.or_eq_true, beq_iff_eq] at hor
  rcases hor with hascii | rfl
  · exact absurd hascii hcnot
  · simpa using hcnot

namespace MString

theorem doReplace_spec {src : MString} (hv : src.Valid) (hcan : src.Canonical)
    {oldC : BitVec 16} (newC : BitVec 16) (hmem : oldC ∈ src.chars) :
    (doReplace src oldC newC).Valid ∧ (doReplace src oldC newC).Canonical ∧
      (doReplace src oldC newC).chars = src.chars.map fun c => if c = oldC then newC else c := by
  have hmap : (fun c => if c = oldC then newC else c) = replaceChar oldC newC :=
    funext fun c => (replaceChar_eq oldC newC c).symm
  rw [hmap]
  -- the code's test, in either storage kind, is whether the replaced content is all ASCII
  have hcomp : (isASCII newC && (src.isCompressed ||
      (!isASCII oldC && allASCIIExcept (src.valueUncompressed.take src.length) oldC))) =
      allASCII (src.chars.map (replaceChar oldC newC)) := by
    rw [allASCII_map_replaceChar newC hmem]
    cases hc : src.isCompressed
    · obtain ⟨chars, hs, htake⟩ := hv.valueUncompressed_take hc
      have hchars : src.chars = chars := by rw [MString.chars, hs]; rfl
      have hnot : allASCII src.chars = false := by
        rw [← hcan, hs]
        rfl
      rw [htake, ← hchars]
      cases hexcept : allASCIIExcept src.chars oldC
      · simp
      · simp [not_isASCII_of_allASCIIExcept hnot hexcept]
    · have hall : allASCII src.chars = true := by
        rw [← hcan, ← hv.compressed_eq, hc]
      have hexcept : allASCIIExcept src.chars oldC = true :=
        List.all_eq_true.2 fun c hc' => by simp [List.all_eq_true.1 hall c hc']
      simp [hexcept]
  have hlength : (src.chars.map (replaceChar oldC newC)).length = src.length := by
    rw [List.length_map, hv.length_chars]
  dsimp only [doReplace]
  rw [hv.map_read fun c => (replaceChar oldC newC c).setWidth 8, hv.map_read (replaceChar oldC newC)]
  split_ifs with hc
  · -- every replaced unit is ASCII, so its byte widens back to it
    have hchars : ((src.chars.map fun c => (replaceChar oldC newC c).setWidth 8).map
        (BitVec.setWidth 16)) = src.chars.map (replaceChar oldC newC) := by
      have h := map_setWidth_of_allASCII (hcomp ▸ hc)
      simpa only [List.map_map, Function.comp_def] using h
    exact spec_of_getFlaggedCount src.length_lt hchars hlength (by rw [hc]; rfl) hcomp
  · exact spec_of_getFlaggedCount src.length_lt rfl hlength (by rw [Bool.eq_false_iff.2 hc]; rfl)
      hcomp

end MString

/-! ## `DoRepeat` -/


namespace MString

section Repeat

variable {α : Type} {l : List α} {n count : Nat}

/-- One pass of the doubling loop: a buffer of `k` copies, `copied = n * k`, either becomes
`2 * k` copies or stops with `count ≤ 2 * k`. With `count - k` passes of fuel the loop stops by
itself, at `k' ≤ count ≤ 2 * k'` copies. -/
theorem repeatLoop_spec (hl : l.length = n) (hn : 0 < n) :
    ∀ (fuel k : Nat), 1 ≤ k → k ≤ count → count - k ≤ fuel →
      ∃ k', repeatLoop fuel (List.replicate k l).flatten (n * k) (n * count) =
        ((List.replicate k' l).flatten, n * k') ∧ k' ≤ count ∧ count ≤ 2 * k' := by
  intro fuel
  induction fuel with
  | zero =>
    intro k _ hk hfuel
    exact ⟨k, rfl, hk, by omega⟩
  | succ fuel ih =>
    intro k hk1 hk hfuel
    -- `copied < limit - copied` is `2 * k < count`, the lengths being `n` times the copies
    have htest : n * k < n * count - n * k ↔ k < count - k := by
      rw [← Nat.mul_sub, Nat.mul_lt_mul_left hn]
    rw [repeatLoop]
    split_ifs with hlt
    · have hdouble : (List.replicate k l).flatten ++ ((List.replicate k l).flatten).take (n * k) =
          (List.replicate (2 * k) l).flatten := by
        rw [List.take_of_length_le (by rw [List.length_flatten_replicate, hl]),
          ← List.flatten_replicate_add, Nat.two_mul]
      have hcopied : (n * k) <<< 1 = n * (2 * k) := by
        rw [Nat.shiftLeft_eq, Nat.pow_one, Nat.mul_comm 2 k, Nat.mul_assoc]
      rw [hdouble, hcopied]
      exact ih (2 * k) (by omega) (by omega) (by omega)
    · exact ⟨k, rfl, hk, by omega⟩

/-- `RepeatCharacters` writes `count ≥ 1` copies of the string. -/
theorem repeatCharacters_eq [Inhabited α] (hl : l.length = n) (hcount : 1 ≤ count) :
    repeatCharacters l n count = (List.replicate count l).flatten := by
  rw [repeatCharacters]
  split_ifs with hone
  · -- a single character is filled
    obtain ⟨c, rfl⟩ : ∃ c, l = [c] := List.length_eq_one_iff.1 (hl.trans hone)
    induction count with
    | zero => rfl
    | succ count ih =>
      rcases Nat.eq_zero_or_pos count with rfl | hpos
      · rfl
      · rw [List.replicate_succ, List.replicate_succ, List.flatten_cons, ih hpos]
        rfl
  · rcases Nat.eq_zero_or_pos n with rfl | hn
    · rw [List.length_eq_zero_iff.1 hl]
      simp [repeatLoop]
    · have hstart : l.take n = (List.replicate 1 l).flatten := by
        rw [← hl, List.take_length]
        simp
      obtain ⟨k, hloop, hk, hk2⟩ := repeatLoop_spec hl hn (n * count) 1 le_rfl hcount (by
        have : count ≤ n * count := Nat.le_mul_of_pos_left count hn
        omega)
      rw [Nat.mul_one] at hloop
      dsimp only
      rw [hstart, hloop]
      -- the last copy is `count - k ≤ k` copies taken from the front of the buffer
      rw [← Nat.mul_sub, ← hl, List.take_flatten_replicate l (by omega),
        ← List.flatten_replicate_add, Nat.add_sub_cancel' hk]

end Repeat

theorem allASCII_flatten_replicate (chars : List (BitVec 16)) {count : Nat} (hcount : 1 ≤ count) :
    allASCII (List.replicate count chars).flatten = allASCII chars := by
  rw [allASCII, List.all_flatten, List.all_replicate, if_neg (by omega)]
  rfl

theorem doRepeat_spec {s : MString} (hv : s.Valid) (hcan : s.Canonical) {count : Nat}
    (hcount : 1 ≤ count) (h : s.length * count < 2 ^ 31) :
    ∃ r, doRepeat s count = some r ∧ r.Valid ∧ r.Canonical ∧
      r.chars = (List.replicate count s.chars).flatten := by
  have hlen := hv.length_eq
  have hkind := hv.compressed_eq
  have hlength : ((List.replicate count s.chars).flatten).length = s.length * count := by
    rw [List.length_flatten_replicate, hv.length_chars]
  -- repeating keeps the ASCII test of the string, which is its kind
  have hcomp : s.isCompressed = allASCII (List.replicate count s.chars).flatten := by
    rw [allASCII_flatten_replicate _ hcount, ← hcan, hkind]
  refine ⟨_, if_neg (not_le.2 h), ?_⟩
  rcases hs : s.value with bytes | chars
  · rw [hs, StringValue.length_compressed] at hlen
    rw [hs, StringValue.isCompressed_compressed] at hkind
    have hread : s.valueCompressed = bytes := by rw [valueCompressed, hs]
    have hchars : s.chars = bytes.map (BitVec.setWidth 16) := by rw [MString.chars, hs]; rfl
    rw [if_pos hkind, hread, repeatCharacters_eq (l := bytes) hlen.symm hcount]
    refine spec_of_getFlaggedCount h ?_ hlength (by rw [hkind]; rfl) hcomp
    rw [StringValue.chars_compressed, List.map_flatten, List.map_replicate, ← hchars]
  · rw [hs, StringValue.length_uncompressed] at hlen
    rw [hs, StringValue.isCompressed_uncompressed] at hkind
    have hread : s.valueUncompressed = chars := by rw [valueUncompressed, hs]
    have hchars : s.chars = chars := by rw [MString.chars, hs]; rfl
    rw [if_neg (by rw [hkind]; exact Bool.false_ne_true), hread,
      repeatCharacters_eq (l := chars) hlen.symm hcount]
    refine spec_of_getFlaggedCount h ?_ hlength (by rw [hkind]; rfl) hcomp
    rw [StringValue.chars_uncompressed, ← hchars]

end MString

/-! ## `Equals` and `CompareTo` -/


theorem setWidth_injective : Function.Injective (BitVec.setWidth 16 : BitVec 8 → BitVec 16) := by
  intro a b h
  have ha := a.isLt
  have hb := b.isLt
  have hnat := congrArg BitVec.toNat h
  simp only [BitVec.toNat_setWidth] at hnat
  apply BitVec.eq_of_toNat_eq
  omega

theorem unitValue_setWidth (b : BitVec 8) : unitValue (b.setWidth 16) = unitValue b := by
  have hb := b.isLt
  simp only [unitValue, BitVec.toNat_setWidth]
  omega

theorem map_unitValue_setWidth (bytes : List (BitVec 8)) :
    (bytes.map (BitVec.setWidth 16)).map unitValue = bytes.map unitValue := by
  rw [List.map_map]
  exact List.map_congr_left fun b _ => unitValue_setWidth b

/-! ### The first-difference loop -/

theorem firstCharDiff_ne_zero {xs ys : List Int} {d : Int} (h : firstCharDiff xs ys = some d) :
    d ≠ 0 := by
  induction xs generalizing ys with
  | nil => cases h
  | cons x xs ih =>
    cases ys with
    | nil => cases h
    | cons y ys =>
      rw [firstCharDiff] at h
      split_ifs at h with hxy
      · cases h
        exact hxy
      · exact ih h

/-- The loop stops at the shorter list, so cutting both at any bound past it changes nothing. -/
theorem firstCharDiff_take (xs ys : List Int) {m : Nat} (hm : min xs.length ys.length ≤ m) :
    firstCharDiff (xs.take m) (ys.take m) = firstCharDiff xs ys := by
  induction xs generalizing ys m with
  | nil => simp [firstCharDiff]
  | cons x xs ih =>
    cases ys with
    | nil => simp [firstCharDiff]
    | cons y ys =>
      obtain ⟨m, rfl⟩ : ∃ m', m = m' + 1 := ⟨m - 1, by simp at hm; omega⟩
      simp only [List.take_succ_cons, firstCharDiff]
      rw [ih ys (by simp at hm ⊢; omega)]

theorem firstCharDiff_swap (xs ys : List Int) :
    firstCharDiff ys xs = (firstCharDiff xs ys).map Neg.neg := by
  induction xs generalizing ys with
  | nil => cases ys <;> rfl
  | cons x xs ih =>
    cases ys with
    | nil => rfl
    | cons y ys =>
      simp only [firstCharDiff]
      by_cases hxy : x - y = 0
      · rw [if_neg (by omega), if_neg (by omega), ih]
      · rw [if_pos (by omega), if_pos hxy, Option.map_some, neg_sub]

/-- Java's `compareTo` is the first difference, or the length difference when there is none. -/
theorem javaCompareTo_eq (s t : List (BitVec 16)) :
    javaCompareTo s t =
      (firstCharDiff (s.map unitValue) (t.map unitValue)).getD ((s.length : Int) - t.length) := by
  induction s generalizing t with
  | nil => cases t <;> rfl
  | cons c s ih =>
    cases t with
    | nil => rfl
    | cons d t =>
      simp only [javaCompareTo, List.map_cons, firstCharDiff, unitValue, List.length_cons]
      by_cases hcd : c = d
      · subst hcd
        rw [if_pos rfl, if_neg (by omega), ih]
        congr 1
        push_cast
        omega
      · have hne : (c.toNat : Int) - d.toNat ≠ 0 := by
          intro h0
          exact hcd (BitVec.eq_of_toNat_eq (by omega))
        rw [if_neg hcd, if_pos hne, Option.getD_some]

namespace MString

theorem getD_of_match (o : Option Int) (x : Int) :
    (match o with
      | some d => d
      | none => x) = o.getD x := by
  cases o <;> rfl

/-- On valid, canonical strings `Equals` is equality of the UTF-16 contents: equal contents give
equal counts, since the count is the length and the flag, and the flag is canonical. -/
theorem equals_iff {s t : MString} (hs : s.Valid) (ht : t.Valid) (hcs : s.Canonical)
    (hct : t.Canonical) : equals s t = true ↔ s.chars = t.chars := by
  constructor
  · intro h
    unfold equals at h
    have hcount : s.count = t.count := by
      by_contra hne
      rw [if_pos (by simpa using hne)] at h
      cases h
    have hlen : s.length = t.length := by rw [length, length, hcount]
    have hkind : s.isCompressed = t.isCompressed := by rw [isCompressed, isCompressed, hcount]
    rw [hcount, bne_self_eq_false, if_neg Bool.false_ne_true] at h
    split_ifs at h with hc <;> rw [beq_iff_eq] at h
    · obtain ⟨bs, hsv, hbs⟩ := hs.valueCompressed_take hc
      obtain ⟨bt, htv, hbt⟩ := ht.valueCompressed_take (hkind ▸ hc)
      rw [hbs, hlen, hbt] at h
      rw [chars, hsv, chars, htv, h]
    · have hc' := Bool.eq_false_iff.2 hc
      obtain ⟨cs, hsv, hcs'⟩ := hs.valueUncompressed_take hc'
      obtain ⟨ct, htv, hct'⟩ := ht.valueUncompressed_take (hkind ▸ hc')
      rw [hcs', hlen, hct'] at h
      rw [chars, hsv, chars, htv, h]
  · intro h
    have hcount : s.count = t.count := by
      rw [hs.count_eq, ht.count_eq, hcs, hct, h]
    have hlen : s.length = t.length := by rw [length, length, hcount]
    have hkind : s.isCompressed = t.isCompressed := by rw [isCompressed, isCompressed, hcount]
    unfold equals
    rw [hcount, bne_self_eq_false, if_neg Bool.false_ne_true]
    split_ifs with hc <;> rw [beq_iff_eq]
    · obtain ⟨bs, hsv, hbs⟩ := hs.valueCompressed_take hc
      obtain ⟨bt, htv, hbt⟩ := ht.valueCompressed_take (hkind ▸ hc)
      rw [hbs, hlen, hbt]
      rw [chars, hsv, chars, htv] at h
      exact List.map_injective_iff.2 setWidth_injective h
    · have hc' := Bool.eq_false_iff.2 hc
      obtain ⟨cs, hsv, hcs'⟩ := hs.valueUncompressed_take hc'
      obtain ⟨ct, htv, hct'⟩ := ht.valueUncompressed_take (hkind ▸ hc')
      rw [hcs', hlen, hct']
      rw [chars, hsv, chars, htv] at h
      exact h

end MString


namespace MString

/-- The units a valid string's comparison loops read, cut at `m`, as `int32_t` values. -/
theorem Valid.read_values {s : MString} (hv : s.Valid) (m : Nat) :
    (s.isCompressed = true ∧ (s.valueCompressed.take m).map unitValue =
        (s.chars.map unitValue).take m) ∨
      (s.isCompressed = false ∧ (s.valueUncompressed.take m).map unitValue =
        (s.chars.map unitValue).take m) := by
  have hkind := hv.compressed_eq
  rcases hs : s.value with bytes | chars
  · rw [hs, StringValue.isCompressed_compressed] at hkind
    refine .inl ⟨hkind, ?_⟩
    rw [valueCompressed, hs, MString.chars, hs, StringValue.chars_compressed,
      map_unitValue_setWidth, List.map_take]
  · rw [hs, StringValue.isCompressed_uncompressed] at hkind
    refine .inr ⟨hkind, ?_⟩
    rw [valueUncompressed, hs, MString.chars, hs, StringValue.chars_uncompressed, List.map_take]

/-- `CompareTo` on valid strings is Java's `String.compareTo` of their contents, whichever of
the two is compressed. -/
theorem compareTo_eq {s t : MString} (hs : s.Valid) (ht : t.Valid) :
    compareTo s t = javaCompareTo s.chars t.chars := by
  have hsl := hs.length_chars
  have htl := ht.length_chars
  -- `min_count` is the shorter length, so every loop reads the whole common prefix
  have hmin : (if (s.length : Int) - t.length < 0 then s.length else t.length) =
      min (s.chars.map unitValue).length (t.chars.map unitValue).length := by
    rw [List.length_map, List.length_map, hsl, htl]
    split_ifs <;> omega
  have hdiff : firstCharDiff (((s.chars.map unitValue).take
        (if (s.length : Int) - t.length < 0 then s.length else t.length)))
        ((t.chars.map unitValue).take
          (if (s.length : Int) - t.length < 0 then s.length else t.length)) =
      firstCharDiff (s.chars.map unitValue) (t.chars.map unitValue) :=
    firstCharDiff_take _ _ hmin.ge
  rw [javaCompareTo_eq, hsl, htl]
  unfold compareTo
  dsimp only
  rcases hs.read_values (if (s.length : Int) - t.length < 0 then s.length else t.length) with
      ⟨hsc, hsr⟩ | ⟨hsc, hsr⟩ <;>
    rcases ht.read_values (if (s.length : Int) - t.length < 0 then s.length else t.length) with
      ⟨htc, htr⟩ | ⟨htc, htr⟩ <;>
    simp only [hsc, htc, Bool.and_true, Bool.and_false, Bool.or_false, Bool.false_or, if_true,
      if_false, Bool.false_eq_true]
  · -- both compressed
    rw [hsr, htr, hdiff, getD_of_match]
  · -- only `lhs` compressed: the difference is `lhs - rhs`
    rw [hsr, htr, hdiff, getD_of_match]
  · -- only `rhs` compressed: the loop computes `rhs - lhs` and the sign is flipped back
    rw [htr, hsr, firstCharDiff_swap, hdiff]
    cases firstCharDiff (s.chars.map unitValue) (t.chars.map unitValue) <;> simp
  · -- both uncompressed: `MemCmp16` returns the difference, or `0` when there is none
    rw [memCmp16, hsr, htr, hdiff]
    cases hfd : firstCharDiff (s.chars.map unitValue) (t.chars.map unitValue) with
    | none => simp
    | some d => simp [firstCharDiff_ne_zero hfd]

end MString

end Art.Mirror
