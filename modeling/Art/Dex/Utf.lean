import Mathlib.Data.List.Lex
import Art.Lib.BitFields
import Art.Lib.LexSign

/-!
# Modified UTF-8 (`libdexfile/dex/utf.cc`, `utf-inl.h`)

Strings in dex files and in the runtime are modified UTF-8: a UTF-16 code unit is written as one
byte (`U+0001` to `U+007F`), two bytes (up to `U+07FF`, and `U+0000` as `C0 80`) or three bytes;
`ConvertUtf16ToModifiedUtf8` also writes a valid surrogate pair as one four-byte sequence.
`GetUtf16FromUtf8` reads one sequence back as a `maybe_pair`: a unit, or for four bytes the two
units of the pair, the leading one in the low half.

A string is the list of its bytes (or code units). `*p` past the end of a list reads `'\0'`, as
past the end of a `'\0'`-terminated string; the loops over a byte count read the `byte_count`
bytes from the pointer. `char` is read as a byte: the bits the code tests are the same whether it
is signed or not.
-/

namespace Art

namespace Utf

/-! ### Reading -/

/-- `GetTrailingUtf16Char`: the high half of a `maybe_pair`. -/
def getTrailingUtf16Char (maybePair : BitVec 32) : BitVec 16 := (maybePair >>> 16).setWidth 16

/-- `GetLeadingUtf16Char`: the low half of a `maybe_pair`. -/
def getLeadingUtf16Char (maybePair : BitVec 32) : BitVec 16 :=
  (maybePair &&& 0x0000FFFF).setWidth 16

theorem toNat_getTrailingUtf16Char (maybePair : BitVec 32) :
    (getTrailingUtf16Char maybePair).toNat = maybePair.toNat / 65536 := by
  have := maybePair.isLt
  rw [getTrailingUtf16Char, BitVec.toNat_setWidth, BitVec.toNat_ushiftRight,
    Nat.shiftRight_eq_div_pow]
  omega

theorem toNat_getLeadingUtf16Char (maybePair : BitVec 32) :
    (getLeadingUtf16Char maybePair).toNat = maybePair.toNat % 65536 := by
  rw [getLeadingUtf16Char, BitVec.toNat_setWidth, BitVec.toNat_and_of_toNat_eq (k := 16) rfl]
  omega

/-- `GetUtf16FromUtf8`: the next UTF-16 character or surrogate pair, and the bytes after it. The
lead byte alone says how many bytes follow; the others are not checked. -/
def getUtf16FromUtf8 (utf8DataIn : List (BitVec 8)) : BitVec 32 × List (BitVec 8) :=
  let one := utf8DataIn.headD 0
  let utf8DataIn := utf8DataIn.tail
  if one &&& 0x80 = 0 then
    -- one-byte encoding
    (one.setWidth 32, utf8DataIn)
  else
    let two := utf8DataIn.headD 0
    let utf8DataIn := utf8DataIn.tail
    if one &&& 0x20 = 0 then
      -- two-byte encoding
      (((one &&& 0x1f).setWidth 32 <<< 6) ||| (two &&& 0x3f).setWidth 32, utf8DataIn)
    else
      let three := utf8DataIn.headD 0
      let utf8DataIn := utf8DataIn.tail
      if one &&& 0x10 = 0 then
        (((one &&& 0x0f).setWidth 32 <<< 12) ||| ((two &&& 0x3f).setWidth 32 <<< 6) |||
          (three &&& 0x3f).setWidth 32, utf8DataIn)
      else
        -- a four-byte encoding becomes a surrogate pair
        let four := utf8DataIn.headD 0
        let utf8DataIn := utf8DataIn.tail
        let codePoint : BitVec 32 := ((one &&& 0x0f).setWidth 32 <<< 18) |||
          ((two &&& 0x3f).setWidth 32 <<< 12) ||| ((three &&& 0x3f).setWidth 32 <<< 6) |||
          (four &&& 0x3f).setWidth 32
        let surrogatePair : BitVec 32 := (0 : BitVec 32) ||| (((codePoint >>> 10) + 0xd7c0) &&& 0xffff)
        let surrogatePair := surrogatePair ||| (((codePoint &&& 0x03ff) + 0xdc00) <<< 16)
        (surrogatePair, utf8DataIn)

/-- Reading a sequence consumes at least one byte of a string that is not empty. -/
theorem length_getUtf16FromUtf8_lt {utf8 : List (BitVec 8)} (h : utf8 ≠ []) :
    (getUtf16FromUtf8 utf8).2.length < utf8.length := by
  obtain ⟨one, utf8, rfl⟩ := List.exists_cons_of_ne_nil h
  simp only [getUtf16FromUtf8, List.tail_cons]
  split_ifs <;> simp only [List.length_tail, List.length_cons] <;> omega

/-- The units `ConvertModifiedUtf8ToUtf16` writes for a `maybe_pair`: the leading one, and the
trailing one unless it is `0`. -/
def utf16Units (ch : BitVec 32) : List (BitVec 16) :=
  getLeadingUtf16Char ch :: if getTrailingUtf16Char ch ≠ 0 then [getTrailingUtf16Char ch] else []

/-- `ConvertModifiedUtf8ToUtf16(utf16_data_out, utf8_data_in)`: the units of a string, up to its
terminating `'\0'`. -/
def convertModifiedUtf8ToUtf16Terminated : List (BitVec 8) → List (BitVec 16)
  | [] => []
  | one :: utf8 =>
    if one = 0 then []
    else
      let ch := getUtf16FromUtf8 (one :: utf8)
      utf16Units ch.1 ++ convertModifiedUtf8ToUtf16Terminated ch.2
termination_by utf8 => utf8.length
decreasing_by exact length_getUtf16FromUtf8_lt (List.cons_ne_nil _ _)

/-- The loop of `ConvertModifiedUtf8ToUtf16(utf16_data_out, out_chars, utf8_data_in, in_bytes)`
over its `in_bytes` bytes, for a string that is not all ASCII. -/
def convertModifiedUtf8ToUtf16Loop : List (BitVec 8) → List (BitVec 16)
  | [] => []
  | one :: utf8 =>
    let ch := getUtf16FromUtf8 (one :: utf8)
    utf16Units ch.1 ++ convertModifiedUtf8ToUtf16Loop ch.2
termination_by utf8 => utf8.length
decreasing_by exact length_getUtf16FromUtf8_lt (List.cons_ne_nil _ _)

/-- `ConvertModifiedUtf8ToUtf16(utf16_data_out, out_chars, utf8_data_in, in_bytes)`: as many
units as bytes means that every character is ASCII, and each byte is copied. -/
def convertModifiedUtf8ToUtf16 (outChars : Nat) (utf8DataIn : List (BitVec 8)) :
    List (BitVec 16) :=
  if outChars = utf8DataIn.length then utf8DataIn.map (·.setWidth 16)
  else convertModifiedUtf8ToUtf16Loop utf8DataIn

/-- `CountModifiedUtf8Chars(utf8, byte_count)` over the `byte_count` bytes: one unit for each
sequence, by its lead byte, and two for a four-byte one. -/
def countModifiedUtf8Chars : List (BitVec 8) → Nat
  | [] => 0
  | ic :: utf8 =>
    if ic &&& 0x80 = 0 then countModifiedUtf8Chars utf8 + 1
    else if ic &&& 0x20 = 0 then countModifiedUtf8Chars (utf8.drop 1) + 1
    else if ic &&& 0x10 = 0 then countModifiedUtf8Chars (utf8.drop 2) + 1
    else countModifiedUtf8Chars (utf8.drop 3) + 2
termination_by utf8 => utf8.length
decreasing_by all_goals simp only [List.length_drop, List.length_cons]; omega

/-- The loop of `ComputeUtf16HashFromModifiedUtf8` from `hash`, for `utf16Length` more units. -/
def computeUtf16HashFromModifiedUtf8Loop (hash : BitVec 32) (utf8 : List (BitVec 8)) :
    Nat → BitVec 32
  | 0 => hash
  | utf16Length + 1 =>
    let pair := getUtf16FromUtf8 utf8
    let hash := hash * 31 + (getLeadingUtf16Char pair.1).setWidth 32
    let second := getTrailingUtf16Char pair.1
    if second ≠ 0 then
      -- `DCHECK_NE(utf16_length, 0u)`: a pair is not cut by the length
      computeUtf16HashFromModifiedUtf8Loop (hash * 31 + second.setWidth 32) pair.2 (utf16Length - 1)
    else computeUtf16HashFromModifiedUtf8Loop hash pair.2 utf16Length

/-- `ComputeUtf16HashFromModifiedUtf8(utf8, utf16_length)`: the `int32_t` result has these bits. -/
def computeUtf16HashFromModifiedUtf8 (utf8 : List (BitVec 8)) (utf16Length : Nat) : BitVec 32 :=
  computeUtf16HashFromModifiedUtf8Loop 0 utf8 utf16Length

/-- `ComputeUtf16Hash`, the `java.lang.String.hashCode` algorithm, in `uint32_t`. -/
def computeUtf16Hash (chars : List (BitVec 16)) : BitVec 32 :=
  chars.foldl (fun hash ch => hash * 31 + ch.setWidth 32) 0

/-! ### Comparing -/

/-- `CompareModifiedUtf8ToModifiedUtf8AsUtf16CodePointValues(utf8_1, utf8_2)`: compare the
`maybe_pair`s of the two strings; at the first that differ, the difference of their leading
units, or of their trailing ones if the leading ones are equal. -/
def compareModifiedUtf8ToModifiedUtf8AsUtf16CodePointValues (utf81 utf82 : List (BitVec 8)) :
    Int :=
  if h1 : utf81.headD 0 = 0 then (if utf82.headD 0 = 0 then 0 else -1)
  else if utf82.headD 0 = 0 then 1
  else
    let c1 := getUtf16FromUtf8 utf81
    let c2 := getUtf16FromUtf8 utf82
    if c1.1 = c2.1 then compareModifiedUtf8ToModifiedUtf8AsUtf16CodePointValues c1.2 c2.2
    else
      let leadingSurrogateDiff : BitVec 32 :=
        (getLeadingUtf16Char c1.1).setWidth 32 - (getLeadingUtf16Char c2.1).setWidth 32
      if leadingSurrogateDiff ≠ 0 then leadingSurrogateDiff.toInt
      else ((getTrailingUtf16Char c1.1).toNat : Int) - (getTrailingUtf16Char c2.1).toNat
termination_by utf81.length
decreasing_by exact length_getUtf16FromUtf8_lt (fun h => h1 (by rw [h]; rfl))

/-- `CompareModifiedUtf8ToUtf16AsCodePointValues(utf8, utf16, utf16_length)`: compare each unit a
`maybe_pair` holds with the next unit of `utf16`. -/
def compareModifiedUtf8ToUtf16AsCodePointValues (utf8 : List (BitVec 8)) (utf16 : List (BitVec 16)) :
    Int :=
  if utf8.headD 0 = 0 then (if utf16 = [] then 0 else -1)
  else
    match utf16 with
    | [] => 1
    | rhs :: utf16 =>
      let pair := getUtf16FromUtf8 utf8
      -- first the leading unit
      let lhs := getLeadingUtf16Char pair.1
      if lhs ≠ rhs then (if lhs > rhs then 1 else -1)
      else
        -- then the trailing one, if there is one
        let lhs2 := getTrailingUtf16Char pair.1
        if lhs2 ≠ 0 then
          match utf16 with
          | [] => 1
          | rhs2 :: utf16 =>
            if lhs2 ≠ rhs2 then (if lhs2 > rhs2 then 1 else -1)
            else compareModifiedUtf8ToUtf16AsCodePointValues pair.2 utf16
        else compareModifiedUtf8ToUtf16AsCodePointValues pair.2 utf16

/-! ### Writing -/

/-- `is_lead`: `D800` to `DBFF`. -/
def isLead (ch : BitVec 16) : Bool := ch &&& 0xfc00 == 0xd800

/-- `is_trail`: `DC00` to `DFFF`. -/
def isTrail (ch : BitVec 16) : Bool := ch &&& 0xfc00 == 0xdc00

/-- `is_surrogate`: `D800` to `DFFF`. -/
def isSurrogate (ch : BitVec 16) : Bool := ch &&& 0xf800 == 0xd800

/-- `is_surrogate_lead`, for a surrogate. -/
def isSurrogateLead (ch : BitVec 16) : Bool := ch &&& 0x0400 == 0

/-- `get_supplementary`: the code point of a surrogate pair. -/
def getSupplementary (lead trail : BitVec 16) : BitVec 32 :=
  (lead.setWidth 32 <<< 10) + trail.setWidth 32 - ((0xd800 <<< 10) + 0xdc00 - 0x10000)

/-- `has_trail()`: the next unit is a trailing surrogate. -/
def hasTrail : List (BitVec 16) → Bool
  | [] => false
  | next :: _ => isTrail next

/-- `ConvertUtf16ToUtf8<kUseShortZero, kUse4ByteSequence, kReplaceBadSurrogates>`: the bytes
`append` is called with. -/
def convertUtf16ToUtf8 (kUseShortZero kUse4ByteSequence kReplaceBadSurrogates : Bool) :
    List (BitVec 16) → List (BitVec 8)
  | [] => []
  | ch :: utf16 =>
    if ch < 0x80 ∧ (kUseShortZero ∨ ch ≠ 0) then
      ch.setWidth 8 :: convertUtf16ToUtf8 kUseShortZero kUse4ByteSequence kReplaceBadSurrogates utf16
    else if ch < 0x800 then
      ((ch >>> 6) ||| 0xc0).setWidth 8 :: ((ch &&& 0x3f) ||| 0x80).setWidth 8 ::
        convertUtf16ToUtf8 kUseShortZero kUse4ByteSequence kReplaceBadSurrogates utf16
    else if (if kReplaceBadSurrogates then isSurrogate ch
        else kUse4ByteSequence && isLead ch && hasTrail utf16) then
      if kReplaceBadSurrogates && (!isSurrogateLead ch || !hasTrail utf16) then
        0x3f :: convertUtf16ToUtf8 kUseShortZero kUse4ByteSequence kReplaceBadSurrogates utf16
      else
        -- a valid surrogate pair, with the trail `utf16[i + 1u]` that `has_trail()` saw
        let codePoint := getSupplementary ch (utf16.headD 0)
        ((codePoint >>> 18) ||| 0xf0).setWidth 8 ::
          (((codePoint >>> 12) &&& 0x3f) ||| 0x80).setWidth 8 ::
          (((codePoint >>> 6) &&& 0x3f) ||| 0x80).setWidth 8 ::
          ((codePoint &&& 0x3f) ||| 0x80).setWidth 8 ::
          convertUtf16ToUtf8 kUseShortZero kUse4ByteSequence kReplaceBadSurrogates utf16.tail
    else
      ((ch >>> 12) ||| 0xe0).setWidth 8 :: (((ch >>> 6) &&& 0x3f) ||| 0x80).setWidth 8 ::
        ((ch &&& 0x3f) ||| 0x80).setWidth 8 ::
        convertUtf16ToUtf8 kUseShortZero kUse4ByteSequence kReplaceBadSurrogates utf16
termination_by utf16 => utf16.length
decreasing_by all_goals simp only [List.length_tail, List.length_cons]; omega

/-- `CountModifiedUtf8BytesInUtf16`: the number of `append` calls of the JNI conversion. -/
def countModifiedUtf8BytesInUtf16 (chars : List (BitVec 16)) : Nat :=
  (convertUtf16ToUtf8 false true false chars).length

/-- `ConvertUtf16ToModifiedUtf8(utf8_out, byte_count, utf16_in, char_count)`: as many bytes as
units means that every unit is ASCII, and each one is copied. -/
def convertUtf16ToModifiedUtf8 (byteCount : Nat) (utf16In : List (BitVec 16)) : List (BitVec 8) :=
  if byteCount = utf16In.length then utf16In.map (·.setWidth 8)
  else convertUtf16ToUtf8 false true false utf16In

/-! ### Reading a sequence, in numbers

What `GetUtf16FromUtf8` returns for each length of sequence, with the bytes as numbers. -/

section Decode

variable {a b c d : Nat} (tail : List (BitVec 8))

/-- The bits of a lead byte that `GetUtf16FromUtf8` and `CountModifiedUtf8Chars` test. -/
theorem ofNat_and_0x80_eq_zero : BitVec.ofNat 8 a &&& 0x80 = 0 ↔ a % 256 < 0x80 := by
  rw [BitVec.and_eq_zero_iff (k := 7) rfl, BitVec.toNat_ofNat]; omega

theorem ofNat_and_0x20_eq_zero : BitVec.ofNat 8 a &&& 0x20 = 0 ↔ a % 256 / 32 % 2 = 0 := by
  rw [BitVec.and_eq_zero_iff (k := 5) rfl, BitVec.toNat_ofNat]; rfl

theorem ofNat_and_0x10_eq_zero : BitVec.ofNat 8 a &&& 0x10 = 0 ↔ a % 256 / 16 % 2 = 0 := by
  rw [BitVec.and_eq_zero_iff (k := 4) rfl, BitVec.toNat_ofNat]; rfl

theorem getUtf16FromUtf8_one (ha : a < 0x80) :
    getUtf16FromUtf8 (BitVec.ofNat 8 a :: tail) = (BitVec.ofNat 32 a, tail) := by
  have h1 : BitVec.ofNat 8 a &&& 0x80 = 0 := ofNat_and_0x80_eq_zero.2 (by omega)
  simp only [getUtf16FromUtf8, List.headD_cons, List.tail_cons, h1, if_true]
  congr 1
  apply BitVec.eq_of_toNat_eq
  simp only [BitVec.toNat_setWidth, BitVec.toNat_ofNat]
  omega

theorem getUtf16FromUtf8_two (ha : a / 32 = 6) :
    getUtf16FromUtf8 (BitVec.ofNat 8 a :: BitVec.ofNat 8 b :: tail) =
      (BitVec.ofNat 32 (a % 32 * 64 + b % 64), tail) := by
  have h1 : ¬ BitVec.ofNat 8 a &&& 0x80 = 0 := by
    rw [ofNat_and_0x80_eq_zero]; omega
  have h2 : BitVec.ofNat 8 a &&& 0x20 = 0 := by
    rw [ofNat_and_0x20_eq_zero]; omega
  simp only [getUtf16FromUtf8, List.headD_cons, List.tail_cons, h1, h2, if_true, if_false]
  congr 1
  apply BitVec.eq_of_toNat_eq
  have f1 := BitVec.toNat_shiftLeft_setWidth_and (b := BitVec.ofNat 8 a) (m := 0x1f) (k := 5)
    (s := 6) (w := 32) rfl (by decide)
  have f2 := BitVec.toNat_setWidth_and (b := BitVec.ofNat 8 b) (m := 0x3f) (k := 6) (w := 32) rfl
    (by decide)
  rw [BitVec.toNat_or_of_mod_eq_zero (k := 6) (by omega) (by omega), f1, f2]
  simp only [BitVec.toNat_ofNat]
  omega

theorem getUtf16FromUtf8_three (ha : a / 16 = 0xe) :
    getUtf16FromUtf8 (BitVec.ofNat 8 a :: BitVec.ofNat 8 b :: BitVec.ofNat 8 c :: tail) =
      (BitVec.ofNat 32 (a % 16 * 4096 + b % 64 * 64 + c % 64), tail) := by
  have h1 : ¬ BitVec.ofNat 8 a &&& 0x80 = 0 := by
    rw [ofNat_and_0x80_eq_zero]; omega
  have h2 : ¬ BitVec.ofNat 8 a &&& 0x20 = 0 := by
    rw [ofNat_and_0x20_eq_zero]; omega
  have h3 : BitVec.ofNat 8 a &&& 0x10 = 0 := by
    rw [ofNat_and_0x10_eq_zero]; omega
  simp only [getUtf16FromUtf8, List.headD_cons, List.tail_cons, h1, h2, h3, if_true, if_false]
  congr 1
  apply BitVec.eq_of_toNat_eq
  have f1 := BitVec.toNat_shiftLeft_setWidth_and (b := BitVec.ofNat 8 a) (m := 0x0f) (k := 4)
    (s := 12) (w := 32) rfl (by decide)
  have f2 := BitVec.toNat_shiftLeft_setWidth_and (b := BitVec.ofNat 8 b) (m := 0x3f) (k := 6)
    (s := 6) (w := 32) rfl (by decide)
  have f3 := BitVec.toNat_setWidth_and (b := BitVec.ofNat 8 c) (m := 0x3f) (k := 6) (w := 32) rfl
    (by decide)
  have f12 := BitVec.toNat_or_of_mod_eq_zero (k := 12) (by rw [f1]; omega) (by rw [f2]; omega)
  rw [BitVec.toNat_or_of_mod_eq_zero (k := 6) (by omega) (by omega), f12, f1, f2, f3]
  simp only [BitVec.toNat_ofNat]
  omega

/-- The surrogate pair `GetUtf16FromUtf8` makes of a code point: the leading unit
`D800 + (codePoint - 0x10000) / 1024`, the trailing one `DC00 + codePoint % 1024`. -/
theorem toNat_surrogatePair (codePoint : BitVec 32) :
    (((0 : BitVec 32) ||| (((codePoint >>> 10) + (0xd7c0 : BitVec 32)) &&& (0xffff : BitVec 32))) |||
        (((codePoint &&& (0x03ff : BitVec 32)) + (0xdc00 : BitVec 32)) <<< 16)).toNat =
      (codePoint.toNat / 1024 + 0xd7c0) % 65536 + (codePoint.toNat % 1024 + 0xdc00) * 65536 := by
  have hlead : (((codePoint >>> 10) + 0xd7c0) &&& 0xffff).toNat =
      (codePoint.toNat / 1024 + 0xd7c0) % 65536 := by
    rw [BitVec.toNat_and_of_toNat_eq (k := 16) rfl, BitVec.toNat_add, BitVec.toNat_ushiftRight,
      Nat.shiftRight_eq_div_pow]
    simp only [BitVec.ofNat_eq_ofNat, BitVec.toNat_ofNat]
    omega
  have htrail : (((codePoint &&& 0x03ff) + 0xdc00) <<< 16).toNat =
      (codePoint.toNat % 1024 + 0xdc00) * 65536 := by
    rw [BitVec.toNat_shiftLeft, BitVec.toNat_add, BitVec.toNat_and_of_toNat_eq (k := 10) rfl,
      Nat.shiftLeft_eq]
    simp only [BitVec.ofNat_eq_ofNat, BitVec.toNat_ofNat]
    omega
  rw [show ∀ x : BitVec 32, (0 : BitVec 32) ||| x = x from fun x => BitVec.zero_or,
    BitVec.or_comm, BitVec.toNat_or_of_mod_eq_zero (k := 16) (by omega) (by omega), hlead, htrail,
    Nat.add_comm]

theorem getUtf16FromUtf8_four (ha : a / 16 = 0xf) :
    getUtf16FromUtf8 (BitVec.ofNat 8 a :: BitVec.ofNat 8 b :: BitVec.ofNat 8 c ::
        BitVec.ofNat 8 d :: tail) =
      (let codePoint := a % 16 * 2 ^ 18 + b % 64 * 4096 + c % 64 * 64 + d % 64;
        BitVec.ofNat 32 ((codePoint / 1024 + 0xd7c0) % 65536 +
          (codePoint % 1024 + 0xdc00) * 65536), tail) := by
  have h1 : ¬ BitVec.ofNat 8 a &&& 0x80 = 0 := by
    rw [ofNat_and_0x80_eq_zero]; omega
  have h2 : ¬ BitVec.ofNat 8 a &&& 0x20 = 0 := by
    rw [ofNat_and_0x20_eq_zero]; omega
  have h3 : ¬ BitVec.ofNat 8 a &&& 0x10 = 0 := by
    rw [ofNat_and_0x10_eq_zero]; omega
  simp only [getUtf16FromUtf8, List.headD_cons, List.tail_cons, h1, h2, h3, if_false,
    Prod.mk.injEq, and_true]
  apply BitVec.eq_of_toNat_eq
  -- the code point, field by field
  have f1 := BitVec.toNat_shiftLeft_setWidth_and (b := BitVec.ofNat 8 a) (m := 0x0f) (k := 4)
    (s := 18) (w := 32) rfl (by decide)
  have f2 := BitVec.toNat_shiftLeft_setWidth_and (b := BitVec.ofNat 8 b) (m := 0x3f) (k := 6)
    (s := 12) (w := 32) rfl (by decide)
  have f3 := BitVec.toNat_shiftLeft_setWidth_and (b := BitVec.ofNat 8 c) (m := 0x3f) (k := 6)
    (s := 6) (w := 32) rfl (by decide)
  have f4 := BitVec.toNat_setWidth_and (b := BitVec.ofNat 8 d) (m := 0x3f) (k := 6) (w := 32) rfl
    (by decide)
  have f12 := BitVec.toNat_or_of_mod_eq_zero (k := 18) (by rw [f1]; omega) (by rw [f2]; omega)
  have f123 := BitVec.toNat_or_of_mod_eq_zero (k := 12) (by rw [f12, f1, f2]; omega)
    (by rw [f3]; omega)
  have hcp := BitVec.toNat_or_of_mod_eq_zero (k := 6) (by rw [f123, f12, f1, f2, f3]; omega)
    (by rw [f4]; omega)
  rw [f123, f12, f1, f2, f3, f4] at hcp
  simp only [BitVec.toNat_ofNat] at hcp
  replace hcp := hcp.trans
    (show _ = a % 16 * 2 ^ 18 + b % 64 * 4096 + c % 64 * 64 + d % 64 by omega)
  rw [toNat_surrogatePair, hcp, BitVec.toNat_ofNat]
  omega

section Count

variable (b c d : BitVec 8)

theorem countModifiedUtf8Chars_one (ha : a < 0x80) :
    countModifiedUtf8Chars (BitVec.ofNat 8 a :: tail) = countModifiedUtf8Chars tail + 1 := by
  rw [countModifiedUtf8Chars, if_pos (ofNat_and_0x80_eq_zero.2 (by omega))]

theorem countModifiedUtf8Chars_two (ha : a / 32 = 6) :
    countModifiedUtf8Chars (BitVec.ofNat 8 a :: b :: tail) = countModifiedUtf8Chars tail + 1 := by
  rw [countModifiedUtf8Chars, if_neg (by rw [ofNat_and_0x80_eq_zero]; omega),
    if_pos (ofNat_and_0x20_eq_zero.2 (by omega))]
  rfl

theorem countModifiedUtf8Chars_three (ha : a / 16 = 0xe) :
    countModifiedUtf8Chars (BitVec.ofNat 8 a :: b :: c :: tail) =
      countModifiedUtf8Chars tail + 1 := by
  rw [countModifiedUtf8Chars, if_neg (by rw [ofNat_and_0x80_eq_zero]; omega),
    if_neg (by rw [ofNat_and_0x20_eq_zero]; omega), if_pos (ofNat_and_0x10_eq_zero.2 (by omega))]
  rfl

theorem countModifiedUtf8Chars_four (ha : a / 16 = 0xf) :
    countModifiedUtf8Chars (BitVec.ofNat 8 a :: b :: c :: d :: tail) =
      countModifiedUtf8Chars tail + 2 := by
  rw [countModifiedUtf8Chars, if_neg (by rw [ofNat_and_0x80_eq_zero]; omega),
    if_neg (by rw [ofNat_and_0x20_eq_zero]; omega), if_neg (by rw [ofNat_and_0x10_eq_zero]; omega)]
  rfl

end Count

end Decode

/-! ### Writing a sequence, in numbers -/

section Encode

variable {w : Nat}

/-- A lead byte: the tag `t * 2 ^ k` and the bits of `x` from `s` up. -/
theorem setWidth_ushiftRight_or {s k t : Nat} {x c : BitVec w} (hx : x.toNat / 2 ^ s < 2 ^ k)
    (hc : c.toNat = t * 2 ^ k) (ht : (t + 1) * 2 ^ k ≤ 2 ^ 8) :
    ((x >>> s) ||| c).setWidth 8 = BitVec.ofNat 8 (t * 2 ^ k + x.toNat / 2 ^ s) := by
  have hshift : (x >>> s).toNat = x.toNat / 2 ^ s := by
    rw [BitVec.toNat_ushiftRight, Nat.shiftRight_eq_div_pow]
  have hlt : t * 2 ^ k + x.toNat / 2 ^ s < 2 ^ 8 := by
    rw [Nat.add_mul, Nat.one_mul] at ht; omega
  apply BitVec.eq_of_toNat_eq
  rw [BitVec.toNat_setWidth_or (hshift ▸ hx) hc ht, hshift, BitVec.toNat_ofNat,
    Nat.mod_eq_of_lt hlt]

/-- A continuation byte: `10` and six bits of `x`. -/
theorem setWidth_and_or (hw : 8 ≤ w) (x : BitVec w) :
    ((x &&& 0x3f) ||| 0x80).setWidth 8 = BitVec.ofNat 8 (0x80 + x.toNat % 64) := by
  have h8 : 2 ^ 8 ≤ 2 ^ w := Nat.pow_le_pow_right (by decide) hw
  have h3f : (0x3f : BitVec w).toNat = 2 ^ 6 - 1 := by
    rw [BitVec.ofNat_eq_ofNat, BitVec.toNat_ofNat, Nat.mod_eq_of_lt (lt_of_lt_of_le (by decide) h8)]
    rfl
  have h80 : (0x80 : BitVec w).toNat = 2 * 2 ^ 6 := by
    rw [BitVec.ofNat_eq_ofNat, BitVec.toNat_ofNat, Nat.mod_eq_of_lt (lt_of_lt_of_le (by decide) h8)]
    rfl
  have hfield := BitVec.toNat_and_of_toNat_eq (x := x) h3f
  apply BitVec.eq_of_toNat_eq
  rw [BitVec.toNat_setWidth_or (by rw [hfield]; omega) h80 (by decide), hfield, BitVec.toNat_ofNat]
  omega

/-- A continuation byte of the bits of `x` from `s` up. -/
theorem setWidth_ushiftRight_and_or (hw : 8 ≤ w) (x : BitVec w) (s : Nat) :
    (((x >>> s) &&& 0x3f) ||| 0x80).setWidth 8 = BitVec.ofNat 8 (0x80 + x.toNat / 2 ^ s % 64) := by
  rw [setWidth_and_or hw, BitVec.toNat_ushiftRight, Nat.shiftRight_eq_div_pow]

end Encode

/-! ### Characters and surrogate pairs -/

theorem isLead_iff {ch : BitVec 16} : isLead ch = true ↔ ch.toNat / 1024 = 0x36 := by
  rw [isLead, beq_iff_eq, ← BitVec.toNat_inj,
    BitVec.toNat_and_of_eq_allOnes_shiftLeft (k := 10) (by decide)]
  simp only [BitVec.ofNat_eq_ofNat, BitVec.toNat_ofNat]
  omega

theorem isTrail_iff {ch : BitVec 16} : isTrail ch = true ↔ ch.toNat / 1024 = 0x37 := by
  rw [isTrail, beq_iff_eq, ← BitVec.toNat_inj,
    BitVec.toNat_and_of_eq_allOnes_shiftLeft (k := 10) (by decide)]
  simp only [BitVec.ofNat_eq_ofNat, BitVec.toNat_ofNat]
  omega

/-- The code point of a surrogate pair, `0x10000` and ten bits from each unit. -/
theorem toNat_getSupplementary {lead trail : BitVec 16} (hlead : isLead lead)
    (htrail : isTrail trail) :
    (getSupplementary lead trail).toNat =
      (lead.toNat - 0xd800) * 1024 + (trail.toNat - 0xdc00) + 0x10000 := by
  have hl := isLead_iff.1 hlead
  have ht := isTrail_iff.1 htrail
  have hoffset : ((0xd800 <<< 10) + 0xdc00 - 0x10000 : BitVec 32).toNat = 0x35fdc00 := by decide
  rw [getSupplementary, BitVec.toNat_sub, BitVec.toNat_add, BitVec.toNat_shiftLeft, hoffset,
    BitVec.toNat_setWidth, BitVec.toNat_setWidth, Nat.shiftLeft_eq]
  omega

/-- A UTF-16 character, or a surrogate pair: what `ConvertUtf16ToUtf8` writes one sequence for
when it writes pairs as four bytes, and what `GetUtf16FromUtf8` reads back. -/
inductive CharOrPair where
  | char (ch : BitVec 16)
  | pair (lead trail : BitVec 16) (hlead : isLead lead) (htrail : isTrail trail)

namespace CharOrPair

/-- Its code units. -/
def units : CharOrPair → List (BitVec 16)
  | char ch => [ch]
  | pair lead trail _ _ => [lead, trail]

/-- Its `maybe_pair`: the leading unit in the low half, the trailing one in the high half. -/
def maybePair : CharOrPair → BitVec 32
  | char ch => ch.setWidth 32
  | pair lead trail _ _ => lead.setWidth 32 ||| trail.setWidth 32 <<< 16

/-- The bytes `ConvertUtf16ToModifiedUtf8` writes for it. -/
def bytes (c : CharOrPair) : List (BitVec 8) := convertUtf16ToUtf8 false true false c.units

variable {ch lead trail : BitVec 16}

theorem bytes_char_one (h : ch.toNat < 0x80) (h0 : ch.toNat ≠ 0) :
    (char ch).bytes = [BitVec.ofNat 8 ch.toNat] := by
  have hc : ch < 0x80 ∧ (false = true ∨ ch ≠ 0) :=
    ⟨BitVec.lt_def.2 h, .inr (fun e => h0 (by rw [e]; rfl))⟩
  rw [bytes, units, convertUtf16ToUtf8, if_pos hc, convertUtf16ToUtf8, BitVec.ofNat_toNat]

theorem bytes_char_two (h : ch.toNat < 0x800) (h1 : ¬ (ch.toNat < 0x80 ∧ ch.toNat ≠ 0)) :
    (char ch).bytes = [BitVec.ofNat 8 (0xc0 + ch.toNat / 64), BitVec.ofNat 8 (0x80 + ch.toNat % 64)] := by
  have hc : ¬ (ch < 0x80 ∧ (false = true ∨ ch ≠ 0)) := by
    rintro ⟨hlt, _ | hne⟩
    · contradiction
    · exact h1 ⟨BitVec.lt_def.1 hlt, fun e => hne (BitVec.eq_of_toNat_eq e)⟩
  rw [bytes, units, convertUtf16ToUtf8, if_neg hc, if_pos (BitVec.lt_def.2 h), convertUtf16ToUtf8,
    setWidth_ushiftRight_or (k := 5) (t := 6) (by omega) rfl (by decide), setWidth_and_or (by decide)]
  rfl

theorem bytes_char_three (h : 0x800 ≤ ch.toNat) :
    (char ch).bytes = [BitVec.ofNat 8 (0xe0 + ch.toNat / 4096),
      BitVec.ofNat 8 (0x80 + ch.toNat / 64 % 64), BitVec.ofNat 8 (0x80 + ch.toNat % 64)] := by
  have hc : ¬ (ch < 0x80 ∧ (false = true ∨ ch ≠ 0)) := fun ⟨hlt, _⟩ => by
    rw [BitVec.lt_def] at hlt; simp only [BitVec.ofNat_eq_ofNat, BitVec.toNat_ofNat] at hlt; omega
  have hc' : ¬ ch < 0x800 := by
    rw [BitVec.lt_def]; simp only [BitVec.ofNat_eq_ofNat, BitVec.toNat_ofNat]; omega
  have hlt := ch.isLt
  rw [bytes, units, convertUtf16ToUtf8, if_neg hc, if_neg hc', if_neg (by simp [hasTrail]),
    convertUtf16ToUtf8, setWidth_ushiftRight_or (k := 4) (t := 14) (by omega) rfl (by decide),
    setWidth_ushiftRight_and_or (by decide), setWidth_and_or (by decide)]
  rfl

theorem bytes_pair (hlead : isLead lead) (htrail : isTrail trail) :
    (pair lead trail hlead htrail).bytes =
      [BitVec.ofNat 8 (0xf0 + (getSupplementary lead trail).toNat / 2 ^ 18),
        BitVec.ofNat 8 (0x80 + (getSupplementary lead trail).toNat / 4096 % 64),
        BitVec.ofNat 8 (0x80 + (getSupplementary lead trail).toNat / 64 % 64),
        BitVec.ofNat 8 (0x80 + (getSupplementary lead trail).toNat % 64)] := by
  have hl := isLead_iff.1 hlead
  have ht := isTrail_iff.1 htrail
  have hcp := toNat_getSupplementary hlead htrail
  have hc : ¬ (lead < 0x80 ∧ (false = true ∨ lead ≠ 0)) := fun ⟨hlt, _⟩ => by
    rw [BitVec.lt_def] at hlt; simp only [BitVec.ofNat_eq_ofNat, BitVec.toNat_ofNat] at hlt; omega
  have hc' : ¬ lead < 0x800 := by
    rw [BitVec.lt_def]; simp only [BitVec.ofNat_eq_ofNat, BitVec.toNat_ofNat]; omega
  have hpair : (if false = true then isSurrogate lead
      else true && isLead lead && hasTrail [trail]) = true := by
    simp [hasTrail, hlead, htrail]
  rw [bytes, units, convertUtf16ToUtf8, if_neg hc, if_neg hc', if_pos hpair, if_neg (by simp)]
  simp only [List.headD_cons, List.tail_cons, convertUtf16ToUtf8]
  rw [setWidth_ushiftRight_or (k := 4) (t := 15) (by omega) rfl (by decide),
    setWidth_ushiftRight_and_or (by decide), setWidth_ushiftRight_and_or (by decide),
    setWidth_and_or (by decide)]
  rfl

theorem toNat_maybePair_char : (char ch).maybePair.toNat = ch.toNat := by
  rw [maybePair, BitVec.toNat_setWidth, Nat.mod_eq_of_lt (lt_trans ch.isLt (by decide))]

theorem toNat_maybePair_pair (hlead : isLead lead) (htrail : isTrail trail) :
    (pair lead trail hlead htrail).maybePair.toNat = lead.toNat + trail.toNat * 65536 := by
  have hl := lead.isLt
  have ht := trail.isLt
  have hhigh : (trail.setWidth 32 <<< 16).toNat = trail.toNat * 65536 := by
    rw [BitVec.toNat_shiftLeft, BitVec.toNat_setWidth, Nat.shiftLeft_eq]; omega
  have hlow : (lead.setWidth 32).toNat = lead.toNat := by
    rw [BitVec.toNat_setWidth]; omega
  rw [maybePair, BitVec.or_comm, BitVec.toNat_or_of_mod_eq_zero (k := 16) (by omega) (by omega),
    hhigh, hlow, Nat.add_comm]

theorem getLeadingUtf16Char_maybePair_char : getLeadingUtf16Char (char ch).maybePair = ch :=
  BitVec.eq_of_toNat_eq (by
    rw [toNat_getLeadingUtf16Char, toNat_maybePair_char, Nat.mod_eq_of_lt ch.isLt])

theorem getTrailingUtf16Char_maybePair_char : getTrailingUtf16Char (char ch).maybePair = 0 :=
  BitVec.eq_of_toNat_eq (by
    rw [toNat_getTrailingUtf16Char, toNat_maybePair_char, Nat.div_eq_of_lt ch.isLt]; rfl)

theorem getLeadingUtf16Char_maybePair_pair (hlead : isLead lead) (htrail : isTrail trail) :
    getLeadingUtf16Char (pair lead trail hlead htrail).maybePair = lead := by
  have := lead.isLt
  exact BitVec.eq_of_toNat_eq (by rw [toNat_getLeadingUtf16Char, toNat_maybePair_pair]; omega)

theorem getTrailingUtf16Char_maybePair_pair (hlead : isLead lead) (htrail : isTrail trail) :
    getTrailingUtf16Char (pair lead trail hlead htrail).maybePair = trail := by
  have := lead.isLt
  exact BitVec.eq_of_toNat_eq (by rw [toNat_getTrailingUtf16Char, toNat_maybePair_pair]; omega)

/-- A trailing surrogate is not `0`. -/
theorem ne_zero_of_isTrail (htrail : isTrail trail) : trail ≠ 0 := fun h => by
  have hbound := isTrail_iff.1 htrail
  rw [show trail.toNat = 0 from congrArg BitVec.toNat h] at hbound
  omega

/-- The units `ConvertModifiedUtf8ToUtf16` writes for the `maybe_pair` of a character or pair
are its units. -/
theorem utf16Units_maybePair (c : CharOrPair) : utf16Units c.maybePair = c.units := by
  cases c with
  | char ch =>
    rw [utf16Units, getLeadingUtf16Char_maybePair_char, getTrailingUtf16Char_maybePair_char,
      if_neg (not_not.2 rfl), units]
  | pair lead trail hl ht =>
    rw [utf16Units, getLeadingUtf16Char_maybePair_pair, getTrailingUtf16Char_maybePair_pair,
      if_pos (ne_zero_of_isTrail ht), units]

/-- `GetUtf16FromUtf8` reads back exactly the sequence written for a character or a pair. -/
theorem getUtf16FromUtf8_bytes (c : CharOrPair) (tail : List (BitVec 8)) :
    getUtf16FromUtf8 (c.bytes ++ tail) = (c.maybePair, tail) := by
  cases c with
  | char ch =>
    have hlt := ch.isLt
    rw [maybePair, ← BitVec.ofNat_toNat]
    by_cases h1 : ch.toNat < 0x80 ∧ ch.toNat ≠ 0
    · rw [bytes_char_one h1.1 h1.2, List.singleton_append, getUtf16FromUtf8_one _ h1.1]
    · by_cases h2 : ch.toNat < 0x800
      · rw [bytes_char_two h2 h1, List.cons_append, List.singleton_append,
          getUtf16FromUtf8_two _ (by omega)]
        congr 2
        omega
      · rw [bytes_char_three (by omega), List.cons_append, List.cons_append,
          List.singleton_append, getUtf16FromUtf8_three _ (by omega)]
        congr 2
        omega
  | pair lead trail hl ht =>
    have hlead := isLead_iff.1 hl
    have htrail := isTrail_iff.1 ht
    have hcp := toNat_getSupplementary hl ht
    rw [bytes_pair]
    simp only [List.cons_append, List.nil_append]
    generalize (getSupplementary lead trail).toNat = codePoint at hcp ⊢
    rw [getUtf16FromUtf8_four _ (by omega)]
    -- the four bytes hold the code point again
    have hdecode : (0xf0 + codePoint / 2 ^ 18) % 16 * 2 ^ 18 + (0x80 + codePoint / 4096 % 64) % 64 *
        4096 + (0x80 + codePoint / 64 % 64) % 64 * 64 + (0x80 + codePoint % 64) % 64 = codePoint := by
      omega
    -- and the code point the pair again
    have hhigh : codePoint / 1024 = lead.toNat - 0xd800 + 0x40 := by omega
    have hlow : codePoint % 1024 = trail.toNat - 0xdc00 := by omega
    simp only [hdecode, hhigh, hlow, Prod.mk.injEq, and_true]
    apply BitVec.eq_of_toNat_eq
    rw [toNat_maybePair_pair, BitVec.toNat_ofNat]
    clear hdecode hhigh hlow hcp
    omega

/-- No byte written for a character or a pair is `0`: `U+0000` is written `C0 80`. -/
theorem ne_zero_of_mem_bytes (c : CharOrPair) : ∀ b ∈ c.bytes, b ≠ 0 := by
  have hne : ∀ n, 0 < n → n < 256 → BitVec.ofNat 8 n ≠ 0 := fun n h0 h1 h => by
    have := congrArg BitVec.toNat h
    simp only [BitVec.toNat_ofNat] at this
    exact absurd this (by show ¬ n % 256 = 0; omega)
  cases c with
  | char ch =>
    have hlt := ch.isLt
    by_cases h1 : ch.toNat < 0x80 ∧ ch.toNat ≠ 0
    · rw [bytes_char_one h1.1 h1.2]
      simp only [List.mem_singleton, forall_eq]
      exact hne _ (by omega) (by omega)
    · by_cases h2 : ch.toNat < 0x800
      · rw [bytes_char_two h2 h1]
        simp only [List.mem_cons, List.not_mem_nil, or_false, forall_eq_or_imp, forall_eq]
        exact ⟨hne _ (by omega) (by omega), hne _ (by omega) (by omega)⟩
      · rw [bytes_char_three (by omega)]
        simp only [List.mem_cons, List.not_mem_nil, or_false, forall_eq_or_imp, forall_eq]
        exact ⟨hne _ (by omega) (by omega), hne _ (by omega) (by omega),
          hne _ (by omega) (by omega)⟩
  | pair lead trail hl ht =>
    have hcp := toNat_getSupplementary hl ht
    have := isLead_iff.1 hl
    have := isTrail_iff.1 ht
    rw [bytes_pair]
    simp only [List.mem_cons, List.not_mem_nil, or_false, forall_eq_or_imp, forall_eq]
    exact ⟨hne _ (by omega) (by omega), hne _ (by omega) (by omega), hne _ (by omega) (by omega),
      hne _ (by omega) (by omega)⟩

theorem bytes_ne_nil (c : CharOrPair) : c.bytes ≠ [] := by
  cases c with
  | char ch =>
    by_cases h1 : ch.toNat < 0x80 ∧ ch.toNat ≠ 0
    · rw [bytes_char_one h1.1 h1.2]; exact List.cons_ne_nil _ _
    · by_cases h2 : ch.toNat < 0x800
      · rw [bytes_char_two h2 h1]; exact List.cons_ne_nil _ _
      · rw [bytes_char_three (by omega)]; exact List.cons_ne_nil _ _
  | pair lead trail hl ht => rw [bytes_pair]; exact List.cons_ne_nil _ _

/-- The bytes written for a character or a pair, and then anything, start with a byte that is
not `0`. -/
theorem exists_bytes_append (c : CharOrPair) (tail : List (BitVec 8)) :
    ∃ b bs, c.bytes ++ tail = b :: bs ∧ b ≠ 0 := by
  obtain ⟨b, bs, hb⟩ := List.exists_cons_of_ne_nil (bytes_ne_nil c)
  exact ⟨b, bs ++ tail, by rw [hb, List.cons_append],
    ne_zero_of_mem_bytes c b (by rw [hb]; exact List.mem_cons_self)⟩

/-- At least one byte per unit; exactly one only for `U+0001` to `U+007F`. -/
theorem length_units_le (c : CharOrPair) : c.units.length ≤ c.bytes.length := by
  cases c with
  | char ch =>
    by_cases h1 : ch.toNat < 0x80 ∧ ch.toNat ≠ 0
    · rw [bytes_char_one h1.1 h1.2]; rfl
    · by_cases h2 : ch.toNat < 0x800
      · rw [bytes_char_two h2 h1, units]; simp
      · rw [bytes_char_three (by omega), units]; simp
  | pair lead trail hl ht => rw [bytes_pair, units]; simp

theorem ascii_of_length_bytes (c : CharOrPair) (h : c.bytes.length = c.units.length) :
    ∃ ch, c = char ch ∧ ch.toNat < 0x80 ∧ ch.toNat ≠ 0 := by
  cases c with
  | char ch =>
    refine ⟨ch, rfl, ?_⟩
    by_contra h1
    by_cases h2 : ch.toNat < 0x800
    · rw [bytes_char_two h2 h1, units] at h; simp at h
    · rw [bytes_char_three (by omega), units] at h; simp at h
  | pair lead trail hl ht => rw [bytes_pair, units] at h; simp at h

end CharOrPair

/-! ### The encoder, one character or pair at a time -/

/-- The characters and pairs of a UTF-16 string as `ConvertUtf16ToUtf8` takes them when it writes
pairs as four bytes: a lead surrogate with a trail after it is a pair. -/
def toCharOrPairs : List (BitVec 16) → List CharOrPair
  | [] => []
  | [ch] => [.char ch]
  | ch :: trail :: utf16 =>
    if h : isLead ch ∧ isTrail trail then .pair ch trail h.1 h.2 :: toCharOrPairs utf16
    else .char ch :: toCharOrPairs (trail :: utf16)

theorem flatMap_units_toCharOrPairs : ∀ utf16 : List (BitVec 16),
    (toCharOrPairs utf16).flatMap CharOrPair.units = utf16
  | [] => rfl
  | [_] => rfl
  | ch :: trail :: utf16 => by
    rw [toCharOrPairs]
    split
    · rw [List.flatMap_cons, flatMap_units_toCharOrPairs utf16]; rfl
    · rw [List.flatMap_cons, flatMap_units_toCharOrPairs (trail :: utf16)]; rfl

/-- A string that does not start with a trail is taken apart on its own after any prefix. -/
theorem toCharOrPairs_append : ∀ (u : List (BitVec 16)) {v : List (BitVec 16)},
    hasTrail v = false → toCharOrPairs (u ++ v) = toCharOrPairs u ++ toCharOrPairs v
  | [], _, _ => rfl
  | [_], [], _ => rfl
  | [ch], t :: v, h => by
    have ht : ¬ (isLead ch ∧ isTrail t) := fun h' => by
      rw [hasTrail, h'.2] at h; exact Bool.noConfusion h
    rw [List.singleton_append, toCharOrPairs.eq_3, dif_neg ht, toCharOrPairs.eq_2,
      List.singleton_append]
  | ch :: trail :: u, v, h => by
    rw [List.cons_append, List.cons_append]
    by_cases hp : isLead ch ∧ isTrail trail
    · rw [toCharOrPairs.eq_3, toCharOrPairs.eq_3, dif_pos hp, dif_pos hp,
        toCharOrPairs_append u h, List.cons_append]
    · rw [toCharOrPairs.eq_3, toCharOrPairs.eq_3, dif_neg hp, dif_neg hp, ← List.cons_append,
        toCharOrPairs_append (trail :: u) h, List.cons_append]

section Encoder

variable {ch trail : BitVec 16} {utf16 : List (BitVec 16)}

/-- A unit that does not start a pair is written alone. -/
theorem convertUtf16ToUtf8_cons_char (h : (isLead ch && hasTrail utf16) = false) :
    convertUtf16ToUtf8 false true false (ch :: utf16) =
      (CharOrPair.char ch).bytes ++ convertUtf16ToUtf8 false true false utf16 := by
  have h' : (isLead ch && hasTrail []) = false := by simp [hasTrail]
  simp only [CharOrPair.bytes, CharOrPair.units, convertUtf16ToUtf8, Bool.true_and, h, h',
    Bool.false_eq_true, if_false, false_or]
  split_ifs <;> rfl

/-- A lead surrogate and the trail after it are written as one four-byte sequence. -/
theorem convertUtf16ToUtf8_cons_pair (hlead : isLead ch) (htrail : isTrail trail) :
    convertUtf16ToUtf8 false true false (ch :: trail :: utf16) =
      (CharOrPair.pair ch trail hlead htrail).bytes ++ convertUtf16ToUtf8 false true false utf16 := by
  have hl := isLead_iff.1 hlead
  have h1 : ¬ ch < 0x80 := by
    rw [BitVec.lt_def]; simp only [BitVec.ofNat_eq_ofNat, BitVec.toNat_ofNat]; omega
  have h2 : ¬ ch < 0x800 := by
    rw [BitVec.lt_def]; simp only [BitVec.ofNat_eq_ofNat, BitVec.toNat_ofNat]; omega
  simp only [CharOrPair.bytes, CharOrPair.units, convertUtf16ToUtf8, h1, h2, hasTrail, hlead,
    htrail, false_and, Bool.true_and, Bool.and_true, Bool.false_and, Bool.false_eq_true, if_false,
    if_true, List.headD_cons, List.tail_cons, List.cons_append, List.nil_append]

/-- `ConvertUtf16ToUtf8` with four-byte pairs writes the characters and pairs one after the
other. -/
theorem convertUtf16ToUtf8_eq_flatMap : ∀ utf16 : List (BitVec 16),
    convertUtf16ToUtf8 false true false utf16 = (toCharOrPairs utf16).flatMap CharOrPair.bytes
  | [] => by rw [convertUtf16ToUtf8, toCharOrPairs, List.flatMap_nil]
  | [ch] => by
    rw [convertUtf16ToUtf8_cons_char (by simp [hasTrail]), toCharOrPairs, List.flatMap_cons,
      List.flatMap_nil, convertUtf16ToUtf8]
  | ch :: trail :: utf16 => by
    rw [toCharOrPairs]
    split
    · next h =>
      rw [convertUtf16ToUtf8_cons_pair h.1 h.2, List.flatMap_cons,
        convertUtf16ToUtf8_eq_flatMap utf16]
    · next h =>
      rw [convertUtf16ToUtf8_cons_char (by simpa [hasTrail] using h), List.flatMap_cons,
        convertUtf16ToUtf8_eq_flatMap (trail :: utf16)]

end Encoder

/-! ### The decoders, one character or pair at a time -/

section Decoder

variable (c : CharOrPair) (tail : List (BitVec 8))

theorem convertModifiedUtf8ToUtf16Loop_bytes_append :
    convertModifiedUtf8ToUtf16Loop (c.bytes ++ tail) =
      c.units ++ convertModifiedUtf8ToUtf16Loop tail := by
  obtain ⟨b, bs, hb, -⟩ := c.exists_bytes_append tail
  rw [hb, convertModifiedUtf8ToUtf16Loop, ← hb, c.getUtf16FromUtf8_bytes, c.utf16Units_maybePair]

theorem convertModifiedUtf8ToUtf16Terminated_bytes_append :
    convertModifiedUtf8ToUtf16Terminated (c.bytes ++ tail) =
      c.units ++ convertModifiedUtf8ToUtf16Terminated tail := by
  obtain ⟨b, bs, hb, hb0⟩ := c.exists_bytes_append tail
  rw [hb, convertModifiedUtf8ToUtf16Terminated, if_neg hb0, ← hb, c.getUtf16FromUtf8_bytes]
  dsimp only
  rw [c.utf16Units_maybePair]

theorem countModifiedUtf8Chars_bytes_append :
    countModifiedUtf8Chars (c.bytes ++ tail) = countModifiedUtf8Chars tail + c.units.length := by
  cases c with
  | char ch =>
    have hlt := ch.isLt
    by_cases h1 : ch.toNat < 0x80 ∧ ch.toNat ≠ 0
    · rw [CharOrPair.bytes_char_one h1.1 h1.2, List.singleton_append,
        countModifiedUtf8Chars_one _ h1.1]
      rfl
    · by_cases h2 : ch.toNat < 0x800
      · rw [CharOrPair.bytes_char_two h2 h1, List.cons_append, List.singleton_append,
          countModifiedUtf8Chars_two _ _ (by omega)]
        rfl
      · rw [CharOrPair.bytes_char_three (by omega), List.cons_append, List.cons_append,
          List.singleton_append, countModifiedUtf8Chars_three _ _ _ (by omega)]
        rfl
  | pair lead trail hl ht =>
    have hcp := toNat_getSupplementary hl ht
    have := isLead_iff.1 hl
    have := isTrail_iff.1 ht
    rw [CharOrPair.bytes_pair]
    simp only [List.cons_append, List.nil_append]
    rw [countModifiedUtf8Chars_four _ _ _ _ (by omega)]
    rfl

theorem computeUtf16HashFromModifiedUtf8Loop_bytes_append (hash : BitVec 32) (n : Nat) :
    computeUtf16HashFromModifiedUtf8Loop hash (c.bytes ++ tail) (n + c.units.length) =
      computeUtf16HashFromModifiedUtf8Loop
        (c.units.foldl (fun hash ch => hash * 31 + ch.setWidth 32) hash) tail n := by
  cases c with
  | char ch =>
    rw [CharOrPair.units, List.length_singleton, computeUtf16HashFromModifiedUtf8Loop,
      CharOrPair.getUtf16FromUtf8_bytes]
    simp only [CharOrPair.getLeadingUtf16Char_maybePair_char,
      CharOrPair.getTrailingUtf16Char_maybePair_char, ne_eq, not_true_eq_false, if_false,
      List.foldl_cons, List.foldl_nil]
  | pair lead trail hl ht =>
    rw [CharOrPair.units, List.length_cons, List.length_singleton, ← Nat.add_assoc,
      computeUtf16HashFromModifiedUtf8Loop, CharOrPair.getUtf16FromUtf8_bytes]
    simp only [CharOrPair.getLeadingUtf16Char_maybePair_pair,
      CharOrPair.getTrailingUtf16Char_maybePair_pair, ne_eq, CharOrPair.ne_zero_of_isTrail ht,
      not_false_eq_true, if_true, Nat.add_sub_cancel, List.foldl_cons, List.foldl_nil]

end Decoder

section Stream

variable (cs : List CharOrPair)

theorem convertModifiedUtf8ToUtf16Loop_flatMap :
    convertModifiedUtf8ToUtf16Loop (cs.flatMap CharOrPair.bytes) = cs.flatMap CharOrPair.units := by
  induction cs with
  | nil => rw [List.flatMap_nil, List.flatMap_nil, convertModifiedUtf8ToUtf16Loop]
  | cons c cs ih =>
    rw [List.flatMap_cons, List.flatMap_cons, convertModifiedUtf8ToUtf16Loop_bytes_append, ih]

theorem convertModifiedUtf8ToUtf16Terminated_flatMap :
    convertModifiedUtf8ToUtf16Terminated (cs.flatMap CharOrPair.bytes) =
      cs.flatMap CharOrPair.units := by
  induction cs with
  | nil => rw [List.flatMap_nil, List.flatMap_nil, convertModifiedUtf8ToUtf16Terminated]
  | cons c cs ih =>
    rw [List.flatMap_cons, List.flatMap_cons, convertModifiedUtf8ToUtf16Terminated_bytes_append,
      ih]

theorem countModifiedUtf8Chars_flatMap :
    countModifiedUtf8Chars (cs.flatMap CharOrPair.bytes) = (cs.flatMap CharOrPair.units).length := by
  induction cs with
  | nil => rw [List.flatMap_nil, List.flatMap_nil, countModifiedUtf8Chars, List.length_nil]
  | cons c cs ih =>
    rw [List.flatMap_cons, List.flatMap_cons, countModifiedUtf8Chars_bytes_append, ih,
      List.length_append, Nat.add_comm]

/-- The hash loop over the bytes of characters and pairs, for as many units as they have, is
`String.hashCode` of the units, from any start. -/
theorem computeUtf16HashFromModifiedUtf8Loop_flatMap (hash : BitVec 32) :
    computeUtf16HashFromModifiedUtf8Loop hash (cs.flatMap CharOrPair.bytes)
        (cs.flatMap CharOrPair.units).length =
      (cs.flatMap CharOrPair.units).foldl (fun hash ch => hash * 31 + ch.setWidth 32) hash := by
  induction cs generalizing hash with
  | nil => rw [List.flatMap_nil, List.flatMap_nil, List.length_nil,
      computeUtf16HashFromModifiedUtf8Loop, List.foldl_nil]
  | cons c cs ih =>
    rw [List.flatMap_cons, List.flatMap_cons, List.length_append, Nat.add_comm,
      computeUtf16HashFromModifiedUtf8Loop_bytes_append, ih, List.foldl_append]

/-- Every character or pair has at least as many bytes as units, so a stream with as many bytes
as units has exactly as many for each. -/
theorem length_bytes_eq_of_flatMap :
    (cs.flatMap CharOrPair.units).length ≤ (cs.flatMap CharOrPair.bytes).length ∧
      ((cs.flatMap CharOrPair.bytes).length = (cs.flatMap CharOrPair.units).length →
        ∀ c ∈ cs, c.bytes.length = c.units.length) := by
  induction cs with
  | nil => simp
  | cons c cs ih =>
    have hc := c.length_units_le
    simp only [List.flatMap_cons, List.length_append, List.mem_cons, forall_eq_or_imp]
    refine ⟨by omega, fun h => ⟨by omega, ih.2 (by omega)⟩⟩

end Stream

/-! ### The ASCII paths -/

section Ascii

variable {utf16 : List (BitVec 16)}

/-- As many bytes as units: every unit is `U+0001` to `U+007F`. -/
theorem ascii_of_countModifiedUtf8BytesInUtf16_eq
    (h : countModifiedUtf8BytesInUtf16 utf16 = utf16.length) :
    ∀ ch ∈ utf16, ch.toNat < 0x80 ∧ ch.toNat ≠ 0 := by
  rw [countModifiedUtf8BytesInUtf16, convertUtf16ToUtf8_eq_flatMap] at h
  conv at h => rhs; rw [← flatMap_units_toCharOrPairs utf16]
  have heach := (length_bytes_eq_of_flatMap (toCharOrPairs utf16)).2 h
  intro ch hch
  rw [← flatMap_units_toCharOrPairs utf16, List.mem_flatMap] at hch
  obtain ⟨c, hc, hch⟩ := hch
  obtain ⟨ch', rfl, hascii⟩ := c.ascii_of_length_bytes (heach c hc)
  rw [CharOrPair.units, List.mem_singleton] at hch
  rw [hch]
  exact hascii

/-- On ASCII units the copy of `ConvertUtf16ToModifiedUtf8` writes what the loop writes. -/
theorem map_setWidth_eq_convertUtf16ToUtf8 (h : ∀ ch ∈ utf16, ch.toNat < 0x80 ∧ ch.toNat ≠ 0) :
    utf16.map (·.setWidth 8) = convertUtf16ToUtf8 false true false utf16 := by
  induction utf16 with
  | nil => rw [List.map_nil, convertUtf16ToUtf8]
  | cons ch utf16 ih =>
    have hch := h ch List.mem_cons_self
    have hlead : isLead ch = false := by
      rw [Bool.eq_false_iff, ne_eq, isLead_iff]; omega
    rw [List.map_cons, convertUtf16ToUtf8_cons_char (by rw [hlead, Bool.false_and]),
      CharOrPair.bytes_char_one hch.1 hch.2, List.singleton_append, BitVec.ofNat_toNat,
      ih (fun ch' h' => h ch' (List.mem_cons_of_mem ch h'))]

/-- On ASCII units the copy of `ConvertModifiedUtf8ToUtf16` undoes the copy of
`ConvertUtf16ToModifiedUtf8`. -/
theorem map_setWidth_map_setWidth (h : ∀ ch ∈ utf16, ch.toNat < 0x80 ∧ ch.toNat ≠ 0) :
    (utf16.map (·.setWidth 8)).map (·.setWidth 16) = utf16 := by
  rw [List.map_map]
  conv => rhs; rw [← List.map_id utf16]
  refine List.map_congr_left (fun ch hch => BitVec.eq_of_toNat_eq ?_)
  have := (h ch hch).1
  simp only [Function.comp_apply, BitVec.toNat_setWidth, id_eq]
  omega

/-- Both paths of `ConvertUtf16ToModifiedUtf8`, given the count of its bytes, write what
`ConvertUtf16ToUtf8` writes. -/
theorem convertUtf16ToModifiedUtf8_eq (utf16 : List (BitVec 16)) :
    convertUtf16ToModifiedUtf8 (countModifiedUtf8BytesInUtf16 utf16) utf16 =
      convertUtf16ToUtf8 false true false utf16 := by
  rw [convertUtf16ToModifiedUtf8]
  split
  · next h =>
    exact map_setWidth_eq_convertUtf16ToUtf8 (ascii_of_countModifiedUtf8BytesInUtf16_eq h)
  · rfl

end Ascii

/-! ### Comparing with a UTF-16 string -/

section Compare

variable {utf8 : List (BitVec 8)}

theorem convertModifiedUtf8ToUtf16Terminated_of_headD_eq_zero (h : utf8.headD 0 = 0) :
    convertModifiedUtf8ToUtf16Terminated utf8 = [] := by
  cases utf8 with
  | nil => rw [convertModifiedUtf8ToUtf16Terminated]
  | cons one utf8 => rw [convertModifiedUtf8ToUtf16Terminated, if_pos (show one = 0 from h)]

theorem convertModifiedUtf8ToUtf16Terminated_of_headD_ne_zero (h : utf8.headD 0 ≠ 0) :
    convertModifiedUtf8ToUtf16Terminated utf8 = utf16Units (getUtf16FromUtf8 utf8).1 ++
      convertModifiedUtf8ToUtf16Terminated (getUtf16FromUtf8 utf8).2 := by
  cases utf8 with
  | nil => exact absurd rfl h
  | cons one utf8 => rw [convertModifiedUtf8ToUtf16Terminated, if_neg (show one ≠ 0 from h)]

/-- The units of a string read as numbers: the leading unit of its first sequence first. -/
theorem map_toNat_convertModifiedUtf8ToUtf16Terminated (h : utf8.headD 0 ≠ 0) :
    (convertModifiedUtf8ToUtf16Terminated utf8).map BitVec.toNat =
      (getLeadingUtf16Char (getUtf16FromUtf8 utf8).1).toNat ::
        ((if getTrailingUtf16Char (getUtf16FromUtf8 utf8).1 ≠ 0 then
          [(getTrailingUtf16Char (getUtf16FromUtf8 utf8).1).toNat] else []) ++
        (convertModifiedUtf8ToUtf16Terminated (getUtf16FromUtf8 utf8).2).map BitVec.toNat) := by
  rw [convertModifiedUtf8ToUtf16Terminated_of_headD_ne_zero h, utf16Units, List.cons_append,
    List.map_cons, List.map_append]
  split <;> rfl

/-- `CompareModifiedUtf8ToUtf16AsCodePointValues` has the sign of the comparison of the units of
the modified UTF-8 string with the UTF-16 string, for any strings. By induction along the
comparison: each step compares the units of one sequence, one or two. -/
theorem compareModifiedUtf8ToUtf16AsCodePointValues_lexSign (utf8 : List (BitVec 8))
    (utf16 : List (BitVec 16)) :
    List.LexSign (compareModifiedUtf8ToUtf16AsCodePointValues utf8 utf16)
      ((convertModifiedUtf8ToUtf16Terminated utf8).map BitVec.toNat) (utf16.map BitVec.toNat) := by
  fun_induction compareModifiedUtf8ToUtf16AsCodePointValues utf8 utf16 with
  | case1 utf8 h0 =>
    rw [convertModifiedUtf8ToUtf16Terminated_of_headD_eq_zero h0]
    exact List.lexSign_nil_nil rfl
  | case2 utf16 utf8 h0 hne =>
    obtain ⟨rhs, utf16, rfl⟩ := List.exists_cons_of_ne_nil hne
    rw [convertModifiedUtf8ToUtf16Terminated_of_headD_eq_zero h0, List.map_cons]
    exact List.lexSign_nil_cons (by decide)
  | case3 utf8 h0 =>
    rw [map_toNat_convertModifiedUtf8ToUtf16Terminated h0]
    exact List.lexSign_cons_nil (by decide)
  | case4 utf8 h0 rhs utf16 pair lhs hne hgt =>
    -- the leading units differ
    rw [map_toNat_convertModifiedUtf8ToUtf16Terminated h0, List.map_cons]
    exact List.lexSign_cons_of_gt (BitVec.lt_def.1 hgt) (by decide)
  | case5 utf8 h0 rhs utf16 pair lhs hne hgt =>
    have hlt : lhs.toNat < rhs.toNat := by
      have hne' : lhs.toNat ≠ rhs.toNat := fun h => hne (BitVec.eq_of_toNat_eq h)
      rw [gt_iff_lt, BitVec.lt_def] at hgt
      omega
    rw [map_toNat_convertModifiedUtf8ToUtf16Terminated h0, List.map_cons]
    exact List.lexSign_cons_of_lt hlt (by decide)
  | case6 utf8 h0 rhs pair lhs heq lhs2 h2 =>
    -- a pair against a single unit
    obtain rfl : rhs = lhs := (not_not.1 heq).symm
    rw [map_toNat_convertModifiedUtf8ToUtf16Terminated h0, if_pos h2, List.singleton_append,
      List.map_cons, List.map_nil]
    exact (List.lexSign_cons_nil (by decide)).cons _
  | case7 utf8 h0 rhs pair lhs heq lhs2 h2 rhs2 utf16 hne hgt =>
    obtain rfl : rhs = lhs := (not_not.1 heq).symm
    rw [map_toNat_convertModifiedUtf8ToUtf16Terminated h0, if_pos h2, List.singleton_append,
      List.map_cons, List.map_cons]
    exact (List.lexSign_cons_of_gt (BitVec.lt_def.1 hgt) (by decide)).cons _
  | case8 utf8 h0 rhs pair lhs heq lhs2 h2 rhs2 utf16 hne hgt =>
    obtain rfl : rhs = lhs := (not_not.1 heq).symm
    have hlt : lhs2.toNat < rhs2.toNat := by
      have hne' : lhs2.toNat ≠ rhs2.toNat := fun h => hne (BitVec.eq_of_toNat_eq h)
      rw [gt_iff_lt, BitVec.lt_def] at hgt
      omega
    rw [map_toNat_convertModifiedUtf8ToUtf16Terminated h0, if_pos h2, List.singleton_append,
      List.map_cons, List.map_cons]
    exact (List.lexSign_cons_of_lt hlt (by decide)).cons _
  | case9 utf8 h0 rhs pair lhs heq lhs2 h2 rhs2 utf16 heq2 ih =>
    -- both units of a pair are equal: the rest decides
    obtain rfl : rhs = lhs := (not_not.1 heq).symm
    obtain rfl : rhs2 = lhs2 := (not_not.1 heq2).symm
    rw [map_toNat_convertModifiedUtf8ToUtf16Terminated h0, if_pos h2, List.singleton_append,
      List.map_cons, List.map_cons]
    exact (ih.cons _).cons _
  | case10 utf8 h0 rhs utf16 pair lhs heq lhs2 h2 ih =>
    obtain rfl : rhs = lhs := (not_not.1 heq).symm
    rw [map_toNat_convertModifiedUtf8ToUtf16Terminated h0, if_neg h2, List.nil_append,
      List.map_cons]
    exact ih.cons _

end Compare

/-! ### Comparing two modified UTF-8 strings -/

section CompareUtf8

variable (A B : List (BitVec 8))

/-- The difference of two units, computed in `uint32_t` and read as an `int`. -/
theorem toInt_setWidth_sub_setWidth (x y : BitVec 16) :
    (x.setWidth 32 - y.setWidth 32).toInt = (x.toNat : Int) - y.toNat := by
  have hx := x.isLt
  have hy := y.isLt
  rw [BitVec.toInt_eq_toNat_bmod, BitVec.toNat_sub, BitVec.toNat_setWidth, BitVec.toNat_setWidth,
    Int.bmod_def]
  split <;> omega

theorem compareModifiedUtf8ToModifiedUtf8AsUtf16CodePointValues_nil_nil :
    compareModifiedUtf8ToModifiedUtf8AsUtf16CodePointValues [] [] = 0 := by
  rw [compareModifiedUtf8ToModifiedUtf8AsUtf16CodePointValues]
  simp only [List.headD_nil, dite_true, if_true]

theorem compareModifiedUtf8ToModifiedUtf8AsUtf16CodePointValues_nil_bytes (c : CharOrPair) :
    compareModifiedUtf8ToModifiedUtf8AsUtf16CodePointValues [] (c.bytes ++ B) = -1 := by
  obtain ⟨b, bs, hb, hb0⟩ := c.exists_bytes_append B
  rw [compareModifiedUtf8ToModifiedUtf8AsUtf16CodePointValues, hb]
  simp only [List.headD_nil, List.headD_cons, dite_true, hb0, if_false]

theorem compareModifiedUtf8ToModifiedUtf8AsUtf16CodePointValues_bytes_nil (c : CharOrPair) :
    compareModifiedUtf8ToModifiedUtf8AsUtf16CodePointValues (c.bytes ++ A) [] = 1 := by
  obtain ⟨a, as, ha, ha0⟩ := c.exists_bytes_append A
  rw [compareModifiedUtf8ToModifiedUtf8AsUtf16CodePointValues, ha]
  simp only [List.headD_nil, List.headD_cons, ha0, dite_false, if_true]

/-- One step of the comparison: the `maybe_pair`s of a character or pair on each side. -/
theorem compareModifiedUtf8ToModifiedUtf8AsUtf16CodePointValues_bytes_bytes
    (c1 c2 : CharOrPair) :
    compareModifiedUtf8ToModifiedUtf8AsUtf16CodePointValues (c1.bytes ++ A) (c2.bytes ++ B) =
      if c1.maybePair = c2.maybePair then
        compareModifiedUtf8ToModifiedUtf8AsUtf16CodePointValues A B
      else if (getLeadingUtf16Char c1.maybePair).setWidth 32 -
          (getLeadingUtf16Char c2.maybePair).setWidth 32 ≠ 0 then
        ((getLeadingUtf16Char c1.maybePair).setWidth 32 -
          (getLeadingUtf16Char c2.maybePair).setWidth 32).toInt
      else ((getTrailingUtf16Char c1.maybePair).toNat : Int) -
        (getTrailingUtf16Char c2.maybePair).toNat := by
  obtain ⟨a, as, ha, ha0⟩ := c1.exists_bytes_append A
  obtain ⟨b, bs, hb, hb0⟩ := c2.exists_bytes_append B
  rw [compareModifiedUtf8ToModifiedUtf8AsUtf16CodePointValues, ha, hb]
  simp only [List.headD_cons, ha0, hb0, dite_false, if_false]
  rw [← ha, ← hb, c1.getUtf16FromUtf8_bytes, c2.getUtf16FromUtf8_bytes]

/-- A common prefix of characters and pairs leaves the comparison to what follows. -/
theorem compareModifiedUtf8ToModifiedUtf8AsUtf16CodePointValues_flatMap_append
    (cs : List CharOrPair) :
    compareModifiedUtf8ToModifiedUtf8AsUtf16CodePointValues (cs.flatMap CharOrPair.bytes ++ A)
        (cs.flatMap CharOrPair.bytes ++ B) =
      compareModifiedUtf8ToModifiedUtf8AsUtf16CodePointValues A B := by
  induction cs with
  | nil => rfl
  | cons c cs ih =>
    rw [List.flatMap_cons, List.append_assoc, List.append_assoc,
      compareModifiedUtf8ToModifiedUtf8AsUtf16CodePointValues_bytes_bytes, if_pos rfl, ih]

/-- Between strings of characters written alone (no four-byte sequence: what the dex verifier
accepts), `CompareModifiedUtf8ToModifiedUtf8AsUtf16CodePointValues` has the sign of the
comparison of their units. By induction on the first string, the second taken apart alongside. -/
theorem compareModifiedUtf8ToModifiedUtf8AsUtf16CodePointValues_lexSign_of_chars
    (utf161 utf162 : List (BitVec 16)) :
    List.LexSign (compareModifiedUtf8ToModifiedUtf8AsUtf16CodePointValues
        ((utf161.map CharOrPair.char).flatMap CharOrPair.bytes)
        ((utf162.map CharOrPair.char).flatMap CharOrPair.bytes))
      (utf161.map BitVec.toNat) (utf162.map BitVec.toNat) := by
  induction utf161 generalizing utf162 with
  | nil =>
    cases utf162 with
    | nil =>
      rw [List.map_nil, List.flatMap_nil,
        compareModifiedUtf8ToModifiedUtf8AsUtf16CodePointValues_nil_nil]
      exact List.lexSign_nil_nil rfl
    | cons ch2 utf162 =>
      rw [List.map_nil, List.flatMap_nil, List.map_cons, List.flatMap_cons,
        compareModifiedUtf8ToModifiedUtf8AsUtf16CodePointValues_nil_bytes, List.map_cons]
      exact List.lexSign_nil_cons (by decide)
  | cons ch1 utf161 ih =>
    cases utf162 with
    | nil =>
      rw [List.map_nil, List.flatMap_nil, List.map_cons, List.flatMap_cons,
        compareModifiedUtf8ToModifiedUtf8AsUtf16CodePointValues_bytes_nil, List.map_cons]
      exact List.lexSign_cons_nil (by decide)
    | cons ch2 utf162 =>
      rw [List.map_cons, List.flatMap_cons, List.map_cons, List.flatMap_cons,
        compareModifiedUtf8ToModifiedUtf8AsUtf16CodePointValues_bytes_bytes, List.map_cons,
        List.map_cons, CharOrPair.getLeadingUtf16Char_maybePair_char,
        CharOrPair.getLeadingUtf16Char_maybePair_char]
      by_cases h : ch1 = ch2
      · -- the same character: the rest decides
        rw [h, if_pos rfl]
        exact (ih utf162).cons _
      · -- different characters: their difference decides
        have hne : ch1.toNat ≠ ch2.toNat := fun h' => h (BitVec.eq_of_toNat_eq h')
        have hword : (CharOrPair.char ch1).maybePair ≠ (CharOrPair.char ch2).maybePair :=
          fun h' => hne (by
            rw [← CharOrPair.toNat_maybePair_char, ← @CharOrPair.toNat_maybePair_char ch2,
              h'])
        have hdiff := toInt_setWidth_sub_setWidth ch1 ch2
        have hdiff0 : ch1.setWidth 32 - ch2.setWidth 32 ≠ 0 := fun h' => by
          rw [h', show (0 : BitVec 32).toInt = 0 by decide] at hdiff; omega
        rw [if_neg hword, if_pos hdiff0, hdiff]
        rcases Nat.lt_or_gt_of_ne hne with hlt | hgt
        · exact List.lexSign_cons_of_lt hlt (by omega)
        · exact List.lexSign_cons_of_gt hgt (by omega)

/-- Where one string has a lead surrogate and its trail and the other the same lead and a unit of
`E000` or above, the first is written with one four-byte sequence and the second with two
three-byte ones. `CompareModifiedUtf8ToModifiedUtf8AsUtf16CodePointValues` then compares the
`maybe_pair` of the pair with that of the lead alone, whose trailing half is `0`, and orders the
strings the other way from their units. -/
theorem compareModifiedUtf8ToModifiedUtf8AsUtf16CodePointValues_surrogatePair
    (p s s' : List (BitVec 16)) {lead trail x : BitVec 16} (hlead : isLead lead)
    (htrail : isTrail trail) (hx : 0xe000 ≤ x.toNat) :
    let utf161 := p ++ lead :: x :: s
    let utf162 := p ++ lead :: trail :: s'
    let utf81 := convertUtf16ToModifiedUtf8 (countModifiedUtf8BytesInUtf16 utf161) utf161
    let utf82 := convertUtf16ToModifiedUtf8 (countModifiedUtf8BytesInUtf16 utf162) utf162
    convertModifiedUtf8ToUtf16Loop utf81 = utf161 ∧ convertModifiedUtf8ToUtf16Loop utf82 = utf162 ∧
      List.Lex (· < ·) (utf162.map BitVec.toNat) (utf161.map BitVec.toNat) ∧
      compareModifiedUtf8ToModifiedUtf8AsUtf16CodePointValues utf81 utf82 < 0 := by
  intro utf161 utf162 utf81 utf82
  have hl := isLead_iff.1 hlead
  have ht := isTrail_iff.1 htrail
  have hnl : hasTrail (lead :: x :: s) = false := by
    rw [hasTrail, Bool.eq_false_iff, ne_eq, isTrail_iff]; omega
  have hnl' : hasTrail (lead :: trail :: s') = false := by
    rw [hasTrail, Bool.eq_false_iff, ne_eq, isTrail_iff]; omega
  have hx' : ¬ (isLead lead ∧ isTrail x) := fun h => by
    have := isTrail_iff.1 h.2; omega
  -- the lead is a character of its own in the first string and starts a pair in the second
  have hcs1 : toCharOrPairs utf161 = toCharOrPairs p ++ .char lead :: toCharOrPairs (x :: s) := by
    rw [toCharOrPairs_append p hnl, toCharOrPairs.eq_3, dif_neg hx']
  have hcs2 : toCharOrPairs utf162 =
      toCharOrPairs p ++ .pair lead trail hlead htrail :: toCharOrPairs s' := by
    rw [toCharOrPairs_append p hnl', toCharOrPairs.eq_3, dif_pos ⟨hlead, htrail⟩]
  have hutf81 : utf81 = (toCharOrPairs utf161).flatMap CharOrPair.bytes := by
    rw [← convertUtf16ToUtf8_eq_flatMap]; exact convertUtf16ToModifiedUtf8_eq utf161
  have hutf82 : utf82 = (toCharOrPairs utf162).flatMap CharOrPair.bytes := by
    rw [← convertUtf16ToUtf8_eq_flatMap]; exact convertUtf16ToModifiedUtf8_eq utf162
  refine ⟨?_, ?_, ?_, ?_⟩
  · rw [hutf81, convertModifiedUtf8ToUtf16Loop_flatMap, flatMap_units_toCharOrPairs]
  · rw [hutf82, convertModifiedUtf8ToUtf16Loop_flatMap, flatMap_units_toCharOrPairs]
  · -- the units agree up to the trail, which is below the unit in its place
    have htx : trail.toNat < x.toNat := by omega
    simp only [utf161, utf162, List.map_append, List.map_cons]
    exact List.Lex.append_left _ (List.Lex.cons (List.Lex.rel htx)) _
  · -- the `maybe_pair`s differ in their trailing halves only
    have hne :
        (CharOrPair.char lead).maybePair ≠ (CharOrPair.pair lead trail hlead htrail).maybePair :=
      fun h => CharOrPair.ne_zero_of_isTrail htrail (by
        rw [← CharOrPair.getTrailingUtf16Char_maybePair_pair hlead htrail, ← h,
          CharOrPair.getTrailingUtf16Char_maybePair_char])
    have hlead0 : (getLeadingUtf16Char (CharOrPair.char lead).maybePair).setWidth 32 -
        (getLeadingUtf16Char (CharOrPair.pair lead trail hlead htrail).maybePair).setWidth 32 =
          0 := by
      rw [CharOrPair.getLeadingUtf16Char_maybePair_char,
        CharOrPair.getLeadingUtf16Char_maybePair_pair, BitVec.sub_self]
      rfl
    have htrail0 : trail.toNat ≠ 0 := fun h =>
      CharOrPair.ne_zero_of_isTrail htrail (BitVec.eq_of_toNat_eq h)
    rw [hutf81, hutf82, hcs1, hcs2, List.flatMap_append, List.flatMap_append, List.flatMap_cons,
      List.flatMap_cons, compareModifiedUtf8ToModifiedUtf8AsUtf16CodePointValues_flatMap_append,
      compareModifiedUtf8ToModifiedUtf8AsUtf16CodePointValues_bytes_bytes, if_neg hne,
      if_neg (not_not_intro hlead0), CharOrPair.getTrailingUtf16Char_maybePair_char,
      CharOrPair.getTrailingUtf16Char_maybePair_pair, show (0 : BitVec 16).toNat = 0 from rfl]
    omega

/-- The smallest such strings: `D800 E000` against `D800 DC00`. -/
theorem compareModifiedUtf8ToModifiedUtf8AsUtf16CodePointValues_surrogatePair_min :
    let utf161 : List (BitVec 16) := [0xd800, 0xe000]
    let utf162 : List (BitVec 16) := [0xd800, 0xdc00]
    let utf81 := convertUtf16ToModifiedUtf8 (countModifiedUtf8BytesInUtf16 utf161) utf161
    let utf82 := convertUtf16ToModifiedUtf8 (countModifiedUtf8BytesInUtf16 utf162) utf162
    convertModifiedUtf8ToUtf16Loop utf81 = utf161 ∧ convertModifiedUtf8ToUtf16Loop utf82 = utf162 ∧
      List.Lex (· < ·) (utf162.map BitVec.toNat) (utf161.map BitVec.toNat) ∧
      compareModifiedUtf8ToModifiedUtf8AsUtf16CodePointValues utf81 utf82 < 0 :=
  compareModifiedUtf8ToModifiedUtf8AsUtf16CodePointValues_surrogatePair [] [] []
    (show isLead 0xd800 by decide) (show isTrail 0xdc00 by decide)
    (show 0xe000 ≤ (0xe000 : BitVec 16).toNat by decide)

end CompareUtf8

/-! ### The round trip -/

/-- Modified UTF-8 round trip: for any UTF-16 string, with unpaired surrogates and `U+0000` too,
`ConvertUtf16ToModifiedUtf8` writes `CountModifiedUtf8BytesInUtf16` bytes, none of them `0`, the
same whether it takes its ASCII path or not; `CountModifiedUtf8Chars` counts the units back,
`ConvertModifiedUtf8ToUtf16` reads them back on either of its paths, and
`ComputeUtf16HashFromModifiedUtf8` is `ComputeUtf16Hash` of the units. -/
theorem convertUtf16ToModifiedUtf8_roundTrip (utf16 : List (BitVec 16)) :
    (let m := countModifiedUtf8BytesInUtf16 utf16
    let utf8 := convertUtf16ToModifiedUtf8 m utf16
    utf8.length = m ∧ utf8 = convertUtf16ToUtf8 false true false utf16 ∧ (∀ b ∈ utf8, b ≠ 0) ∧
      countModifiedUtf8Chars utf8 = utf16.length ∧
      convertModifiedUtf8ToUtf16 utf16.length utf8 = utf16 ∧
      convertModifiedUtf8ToUtf16Loop utf8 = utf16 ∧
      computeUtf16HashFromModifiedUtf8 utf8 utf16.length = computeUtf16Hash utf16) := by
  intro m utf8
  -- both paths of the encoder write the same bytes
  have hutf8 : utf8 = convertUtf16ToUtf8 false true false utf16 :=
    convertUtf16ToModifiedUtf8_eq utf16
  have hlength : utf8.length = m := by rw [hutf8]; rfl
  -- the general decoder reads the characters and pairs back
  have hloop : convertModifiedUtf8ToUtf16Loop utf8 = utf16 := by
    rw [hutf8, convertUtf16ToUtf8_eq_flatMap, convertModifiedUtf8ToUtf16Loop_flatMap,
      flatMap_units_toCharOrPairs]
  refine ⟨hlength, hutf8, ?_, ?_, ?_, hloop, ?_⟩
  · rw [hutf8, convertUtf16ToUtf8_eq_flatMap]
    intro b hb
    obtain ⟨c, -, hc⟩ := List.mem_flatMap.1 hb
    exact c.ne_zero_of_mem_bytes b hc
  · rw [hutf8, convertUtf16ToUtf8_eq_flatMap, countModifiedUtf8Chars_flatMap,
      flatMap_units_toCharOrPairs]
  · rw [convertModifiedUtf8ToUtf16]
    split
    · -- as many units as bytes: the encoder took its ASCII path too
      next h =>
      have hascii := ascii_of_countModifiedUtf8BytesInUtf16_eq (h.trans hlength).symm
      have hcopy : utf8 = utf16.map (·.setWidth 8) := by
        show convertUtf16ToModifiedUtf8 m utf16 = _
        rw [convertUtf16ToModifiedUtf8, if_pos (h.trans hlength).symm]
      rw [hcopy, map_setWidth_map_setWidth hascii]
    · exact hloop
  · have hhash := computeUtf16HashFromModifiedUtf8Loop_flatMap (toCharOrPairs utf16) 0
    rw [flatMap_units_toCharOrPairs, ← convertUtf16ToUtf8_eq_flatMap, ← hutf8] at hhash
    rw [computeUtf16HashFromModifiedUtf8, hhash, computeUtf16Hash]

end Utf


end Art
