import Art.Dex.Utf
import Art.Mirror.String

/-!
# Strings through JNI in (modified) UTF-8 (`runtime/jni/jni_internal.cc`)

`GetStringUTFLength`, `GetStringUTFChars` and `GetStringUTFRegion` write a string's units with
`ConvertUtf16ToUtf8<false, true, false>`: `U+0000` as `C0 80`, a surrogate pair as one four-byte
sequence, an unpaired surrogate as three bytes. A compressed string is copied byte for byte.
`NewStringUTF` reads bytes back with JNI's own `VisitUtf8Chars` and
`DecodeModifiedUtf8Character`, which take four-byte sequences apart into surrogate pairs.

* `getStringUTFChars_eq`: for a valid, canonical string whose encoding has fewer than `2^31`
  bytes, the buffer is the encoding and a `'\0'`, the encoding holds no `0` byte, and its length
  is `GetStringUTFLength`.
* `newStringUTF_convertUtf16ToUtf8`: `NewStringUTF` of those bytes builds a valid, canonical
  string with the same units, for any units, paired or not; so it gives back the string
  `GetStringUTFChars` read (`newStringUTF_getStringUTFChars`).
* `getStringUTFRegion_eq`: `GetStringUTFRegion` writes the encoding of the units of its range and
  a `'\0'`, or throws and writes nothing.
* `getStringUTFChars_overflow`: `GetUncompressedStringUTFLength` counts the bytes in a `jsize`, and
  for an encoding of `2^31` bytes or more the count overflows (undefined in C++; `none` here).
-/

namespace Art

namespace Jni

open Utf Mirror

/-- `kUtfUseShortZero`: `U+0000` is written as `C0 80`. -/
def kUtfUseShortZero : Bool := false

/-- `kUtfUse4ByteSequence`: a surrogate pair is written as one four-byte sequence. -/
def kUtfUse4ByteSequence : Bool := true

/-- `kUtfReplaceBadSurrogates`: an unpaired surrogate is written as it is. -/
def kUtfReplaceBadSurrogates : Bool := false

/-- `kBadUtf8ReplacementChar`, `'?'`. -/
def kBadUtf8ReplacementChar : BitVec 8 := 0x3f

/-- `mirror::kUseStringCompression`. -/
def kUseStringCompression : Bool := true

/-- What the JNI string functions throw. -/
inductive JniException where
  | stringIndexOutOfBounds
  | outOfMemory
  deriving DecidableEq, Repr

/-- `GetUncompressedStringUTFLength`: the bytes `ConvertUtf16ToUtf8` writes, counted in a
`jsize`; counting past `2^31 - 1` overflows, which is undefined. -/
def getUncompressedStringUTFLength (chars : List (BitVec 16)) : Option Nat :=
  let byteCount :=
    (convertUtf16ToUtf8 kUtfUseShortZero kUtfUse4ByteSequence kUtfReplaceBadSurrogates chars).length
  if byteCount < 2 ^ 31 then some byteCount else none

/-- `GetUncompressedStringUTFChars`: the bytes it writes from `dest` on. -/
def getUncompressedStringUTFChars (chars : List (BitVec 16)) : List (BitVec 8) :=
  convertUtf16ToUtf8 kUtfUseShortZero kUtfUse4ByteSequence kUtfReplaceBadSurrogates chars

/-- `JNI::GetStringUTFLength`. -/
def getStringUTFLength (str : MString) : Option Nat :=
  if str.isCompressed then some str.length
  else getUncompressedStringUTFLength (str.valueUncompressed.take str.length)

/-- `JNI::GetStringUTFChars`: the buffer it returns, `byte_count` bytes and the `'\0'`. -/
def getStringUTFChars (s : MString) : Option (List (BitVec 8)) :=
  let length := s.length
  let byteCount :=
    if s.isCompressed then some length
    else getUncompressedStringUTFLength (s.valueUncompressed.take length)
  byteCount.map fun byteCount =>
    (if s.isCompressed then s.valueCompressed.take byteCount
      else getUncompressedStringUTFChars (s.valueUncompressed.take length)) ++ [0]

/-- `JNI::GetStringUTFRegion`: the bytes it writes to `buf`, or what it throws. -/
def getStringUTFRegion (s : MString) (start length : Int) (bufIsNull : Bool) :
    Except JniException (List (BitVec 8)) :=
  if start < 0 ∨ length < 0 ∨ length > s.length - start then .error .stringIndexOutOfBounds
  -- nothing is touched for a length of `0` and a null buffer
  else if length = 0 ∧ bufIsNull = true then .ok []
  else if s.isCompressed then
    .ok ((s.valueCompressed.drop start.toNat).take length.toNat ++ [0])
  else .ok (getUncompressedStringUTFChars ((s.valueUncompressed.drop start.toNat).take length.toNat) ++ [0])

/-! ### Reading modified UTF-8 -/

/-- What `VisitUtf8Chars` calls its functors with: `good` with the bytes of a sequence, `bad` for
a sequence cut short by the end of the input. -/
inductive Utf8Visit where
  | good (bytes : List (BitVec 8))
  | bad
  deriving DecidableEq, Repr

/-- The bytes of a sequence by its leading byte: one with `0x80` clear, else two with `0x20`
clear, else three with `0x10` clear, else four. The top bits of the bytes are not checked. -/
def sequenceLength (ic : BitVec 8) : Nat :=
  if ic &&& 0x80 = 0 then 1 else if ic &&& 0x20 = 0 then 2 else if ic &&& 0x10 = 0 then 3 else 4

theorem one_le_sequenceLength (ic : BitVec 8) : 1 ≤ sequenceLength ic := by
  unfold sequenceLength
  split_ifs <;> decide

/-- `VisitUtf8Chars`: the calls of its functors, in order, and the number of UTF-16 units it
returns, two for a four-byte sequence. It returns after the first `bad`. -/
def visitUtf8Chars (utf8 : List (BitVec 8)) : List Utf8Visit × Nat :=
  match utf8 with
  | [] => ([], 0)
  | ic :: rest =>
    let n := sequenceLength ic
    if (ic :: rest).length < n then ([.bad], 1)
    else
      let r := visitUtf8Chars ((ic :: rest).drop n)
      (.good ((ic :: rest).take n) :: r.1, (if n = 4 then 2 else 1) + r.2)
termination_by utf8.length
decreasing_by
  have := one_le_sequenceLength ic
  simp only [List.length_drop, List.length_cons]
  omega

/-- `DecodeModifiedUtf8Character` of one to three bytes (the source aborts on other lengths). A
one-byte sequence is below `0x80`, so reading the `char` signed or not gives the same unit. -/
def decodeModifiedUtf8Character (ptr : List (BitVec 8)) : BitVec 16 :=
  match ptr with
  | [b0] => b0.setWidth 16
  | [b0, b1] => (b0 &&& 0x1f).setWidth 16 <<< 6 ||| (b1 &&& 0x3f).setWidth 16
  | [b0, b1, b2] =>
    (b0 &&& 0x0f).setWidth 16 <<< 12 ||| (b1 &&& 0x3f).setWidth 16 <<< 6 |||
      (b2 &&& 0x3f).setWidth 16
  | _ => 0

/-- The surrogate pair `NewStringUTFVisitor` writes for a four-byte sequence: the code point of
its bytes less `0x10000`, ten bits in each unit. Values outside `U+10000` to `U+10FFFF` are not
checked. -/
def surrogatePair (ptr : List (BitVec 8)) : List (BitVec 16) :=
  let codePoint : BitVec 32 :=
    (ptr.getD 0 0 &&& 0x0f).setWidth 32 <<< 18 ||| (ptr.getD 1 0 &&& 0x3f).setWidth 32 <<< 12 |||
      (ptr.getD 2 0 &&& 0x3f).setWidth 32 <<< 6 ||| (ptr.getD 3 0 &&& 0x3f).setWidth 32
  let codePointBits := codePoint - 0x10000
  [((0xd800 : BitVec 32) ||| (codePointBits >>> 10 &&& 0x3ff)).setWidth 16,
    ((0xdc00 : BitVec 32) ||| (codePointBits &&& 0x3ff)).setWidth 16]

/-- The units `NewStringUTFVisitor` writes for one call into an uncompressed string. -/
def uncompressedUnits : Utf8Visit → List (BitVec 16)
  | .good ptr => if ptr.length ≠ 4 then [decodeModifiedUtf8Character ptr] else surrogatePair ptr
  | .bad => [kBadUtf8ReplacementChar.setWidth 16]

/-- The byte `NewStringUTFVisitor` writes for one call into a compressed string. -/
def compressedByte : Utf8Visit → BitVec 8
  | .good ptr => (decodeModifiedUtf8Character ptr).setWidth 8
  | .bad => kBadUtf8ReplacementChar

/-- Whether the `good` functor of `NewStringUTF`'s first pass leaves the string compressible: a
two- or three-byte sequence must decode to ASCII, and a four-byte one never does. -/
def keepsCompressible : Utf8Visit → Bool
  | .good ptr =>
    if ptr.length = 1 then true
    else if ptr.length = 2 ∨ ptr.length = 3 then isASCII (decodeModifiedUtf8Character ptr)
    else false
  | .bad => true

/-- `JNI::NewStringUTF` of the bytes at `utf` up to the first `'\0'` (`strlen`): the new string,
or the `OutOfMemoryError` for `2^31` units or more. -/
def newStringUTF (utf : List (BitVec 8)) : Except JniException MString :=
  let utf8 := utf.takeWhile (· ≠ 0)
  let visits := (visitUtf8Chars utf8).1
  let utf16Length := (visitUtf8Chars utf8).2
  let compressible := kUseStringCompression && visits.all keepsCompressible
  if utf16Length > 2 ^ 31 - 1 then .error .outOfMemory
  else
    let lengthWithFlag := getFlaggedCount utf16Length compressible
    .ok ⟨lengthWithFlag,
      if isCompressed lengthWithFlag then .compressed (visits.map compressedByte)
      else .uncompressed (visits.flatMap uncompressedUnits)⟩

/-! ### The bytes of one character or pair -/

section Decode

variable {a b c d : Nat}

theorem sequenceLength_ofNat : sequenceLength (BitVec.ofNat 8 a) =
    if a % 256 < 0x80 then 1 else if a % 256 / 32 % 2 = 0 then 2
    else if a % 256 / 16 % 2 = 0 then 3 else 4 := by
  simp only [sequenceLength, ofNat_and_0x80_eq_zero, ofNat_and_0x20_eq_zero,
    ofNat_and_0x10_eq_zero]

theorem toNat_decodeModifiedUtf8Character_two :
    (decodeModifiedUtf8Character [BitVec.ofNat 8 a, BitVec.ofNat 8 b]).toNat =
      a % 32 * 64 + b % 64 := by
  have f1 := BitVec.toNat_shiftLeft_setWidth_and (b := BitVec.ofNat 8 a) (m := 0x1f) (k := 5)
    (s := 6) (w := 16) rfl (by decide)
  have f2 := BitVec.toNat_setWidth_and (b := BitVec.ofNat 8 b) (m := 0x3f) (k := 6) (w := 16) rfl
    (by decide)
  rw [decodeModifiedUtf8Character, BitVec.toNat_or_of_mod_eq_zero (k := 6) (by omega) (by omega),
    f1, f2]
  simp only [BitVec.toNat_ofNat]
  omega

theorem toNat_decodeModifiedUtf8Character_three :
    (decodeModifiedUtf8Character [BitVec.ofNat 8 a, BitVec.ofNat 8 b, BitVec.ofNat 8 c]).toNat =
      a % 16 * 4096 + b % 64 * 64 + c % 64 := by
  have f1 := BitVec.toNat_shiftLeft_setWidth_and (b := BitVec.ofNat 8 a) (m := 0x0f) (k := 4)
    (s := 12) (w := 16) rfl (by decide)
  have f2 := BitVec.toNat_shiftLeft_setWidth_and (b := BitVec.ofNat 8 b) (m := 0x3f) (k := 6)
    (s := 6) (w := 16) rfl (by decide)
  have f3 := BitVec.toNat_setWidth_and (b := BitVec.ofNat 8 c) (m := 0x3f) (k := 6) (w := 16) rfl
    (by decide)
  have f12 := BitVec.toNat_or_of_mod_eq_zero (k := 12) (by rw [f1]; omega) (by rw [f2]; omega)
  rw [decodeModifiedUtf8Character, BitVec.toNat_or_of_mod_eq_zero (k := 6) (by omega) (by omega),
    f12, f1, f2, f3]
  simp only [BitVec.toNat_ofNat]
  omega

/-- The pair `NewStringUTFVisitor` makes of four bytes: their code point less `0x10000`, in
32-bit arithmetic, ten bits in each unit. -/
theorem surrogatePair_ofNat {bits : Nat}
    (hbits : bits =
      (a % 16 * 2 ^ 18 + b % 64 * 4096 + c % 64 * 64 + d % 64 + (2 ^ 32 - 0x10000)) % 2 ^ 32) :
    surrogatePair [BitVec.ofNat 8 a, BitVec.ofNat 8 b, BitVec.ofNat 8 c, BitVec.ofNat 8 d] =
      [BitVec.ofNat 16 (0xd800 + bits / 1024 % 1024), BitVec.ofNat 16 (0xdc00 + bits % 1024)] := by
  simp only [surrogatePair, List.getD_cons_zero, List.getD_cons_succ]
  set codePoint : BitVec 32 := (BitVec.ofNat 8 a &&& 0x0f).setWidth 32 <<< 18 |||
    (BitVec.ofNat 8 b &&& 0x3f).setWidth 32 <<< 12 ||| (BitVec.ofNat 8 c &&& 0x3f).setWidth 32 <<< 6 |||
    (BitVec.ofNat 8 d &&& 0x3f).setWidth 32 with hcode
  -- the code point, one field of six bits (three for the first byte) at a time
  have hcp : codePoint.toNat = a % 16 * 2 ^ 18 + b % 64 * 4096 + c % 64 * 64 + d % 64 := by
    have f1 := BitVec.toNat_shiftLeft_setWidth_and (b := BitVec.ofNat 8 a) (m := 0x0f) (k := 4)
      (s := 18) (w := 32) rfl (by decide)
    have f2 := BitVec.toNat_shiftLeft_setWidth_and (b := BitVec.ofNat 8 b) (m := 0x3f) (k := 6)
      (s := 12) (w := 32) rfl (by decide)
    have f3 := BitVec.toNat_shiftLeft_setWidth_and (b := BitVec.ofNat 8 c) (m := 0x3f) (k := 6)
      (s := 6) (w := 32) rfl (by decide)
    have f4 := BitVec.toNat_setWidth_and (b := BitVec.ofNat 8 d) (m := 0x3f) (k := 6) (w := 32) rfl
      (by decide)
    have f12 := BitVec.toNat_or_of_mod_eq_zero (k := 18) (by rw [f1]; omega) (by rw [f2]; omega)
    have f123 := BitVec.toNat_or_of_mod_eq_zero (k := 12) (by rw [f12, f1, f2]; omega)
      (by rw [f3]; omega)
    rw [hcode, BitVec.toNat_or_of_mod_eq_zero (k := 6) (by rw [f123, f12, f1, f2, f3]; omega)
      (by rw [f4]; omega), f123, f12, f1, f2, f3, f4]
    simp only [BitVec.toNat_ofNat]
    omega
  have hsub : (codePoint - 0x10000).toNat = bits := by
    rw [BitVec.toNat_sub, hcp, hbits]
    simp only [BitVec.ofNat_eq_ofNat, BitVec.toNat_ofNat]
    omega
  have hlead : (((0xd800 : BitVec 32) ||| (codePoint - 0x10000) >>> 10 &&& 0x3ff).setWidth 16) =
      BitVec.ofNat 16 (0xd800 + bits / 1024 % 1024) := by
    have h := BitVec.toNat_and_of_toNat_eq (k := 10) (x := (codePoint - 0x10000) >>> 10)
      (m := 0x3ff) rfl
    rw [BitVec.toNat_ushiftRight, Nat.shiftRight_eq_div_pow, hsub] at h
    apply BitVec.eq_of_toNat_eq
    rw [BitVec.toNat_setWidth, BitVec.toNat_or_of_mod_eq_zero (k := 10) (by decide)
      (by rw [h]; omega), h]
    simp only [BitVec.ofNat_eq_ofNat, BitVec.toNat_ofNat]
    omega
  have htrail : (((0xdc00 : BitVec 32) ||| (codePoint - 0x10000) &&& 0x3ff).setWidth 16) =
      BitVec.ofNat 16 (0xdc00 + bits % 1024) := by
    have h := BitVec.toNat_and_of_toNat_eq (k := 10) (x := codePoint - 0x10000) (m := 0x3ff) rfl
    rw [hsub] at h
    apply BitVec.eq_of_toNat_eq
    rw [BitVec.toNat_setWidth, BitVec.toNat_or_of_mod_eq_zero (k := 10) (by decide)
      (by rw [h]; omega), h]
    simp only [BitVec.ofNat_eq_ofNat, BitVec.toNat_ofNat]
    omega
  rw [hlead, htrail]

end Decode

/-! ### One character or pair at a time -/

section CharOrPair

open CharOrPair

variable {ch lead trail : BitVec 16}

/-- A character is written in one to three bytes, the first telling how many, and
`DecodeModifiedUtf8Character` reads it back. -/
theorem decode_bytes_char (ch : BitVec 16) :
    ∃ b bs, (char ch).bytes = b :: bs ∧ sequenceLength b = (char ch).bytes.length ∧
      (char ch).bytes.length ≤ 3 ∧ decodeModifiedUtf8Character (char ch).bytes = ch := by
  have hlt := ch.isLt
  by_cases h1 : ch.toNat < 0x80 ∧ ch.toNat ≠ 0
  · rw [bytes_char_one h1.1 h1.2]
    refine ⟨_, [], rfl, ?_, by simp, ?_⟩
    · rw [sequenceLength_ofNat, if_pos (by omega)]; rfl
    · apply BitVec.eq_of_toNat_eq
      rw [decodeModifiedUtf8Character, BitVec.toNat_setWidth, BitVec.toNat_ofNat]
      omega
  by_cases h2 : ch.toNat < 0x800
  · rw [bytes_char_two h2 h1]
    refine ⟨_, _, rfl, ?_, by simp, ?_⟩
    · rw [sequenceLength_ofNat, if_neg (by omega), if_pos (by omega)]; rfl
    · apply BitVec.eq_of_toNat_eq
      rw [toNat_decodeModifiedUtf8Character_two]
      omega
  · rw [bytes_char_three (by omega)]
    refine ⟨_, _, rfl, ?_, by simp, ?_⟩
    · rw [sequenceLength_ofNat, if_neg (by omega), if_neg (by omega), if_pos (by omega)]; rfl
    · apply BitVec.eq_of_toNat_eq
      rw [toNat_decodeModifiedUtf8Character_three]
      omega

/-- A surrogate pair is written in four bytes, the first telling so, and `NewStringUTFVisitor`
makes the pair again. -/
theorem surrogatePair_bytes_pair (hlead : isLead lead) (htrail : isTrail trail) :
    ∃ b bs, (pair lead trail hlead htrail).bytes = b :: bs ∧ sequenceLength b = 4 ∧
      (pair lead trail hlead htrail).bytes.length = 4 ∧
      surrogatePair (pair lead trail hlead htrail).bytes = [lead, trail] := by
  have hl := isLead_iff.1 hlead
  have ht := isTrail_iff.1 htrail
  have hcp := toNat_getSupplementary hlead htrail
  rw [bytes_pair hlead htrail]
  generalize (getSupplementary lead trail).toNat = cp at hcp
  refine ⟨_, _, rfl, ?_, rfl, ?_⟩
  · rw [sequenceLength_ofNat, if_neg (by omega), if_neg (by omega), if_neg (by omega)]
  · rw [surrogatePair_ofNat rfl, List.cons.injEq, List.cons.injEq]
    refine ⟨BitVec.eq_of_toNat_eq ?_, BitVec.eq_of_toNat_eq ?_, rfl⟩ <;>
      simp only [BitVec.toNat_ofNat] <;> omega

/-- The bytes of a character, by its range. -/
theorem length_bytes_char (ch : BitVec 16) :
    (char ch).bytes.length =
      if ch.toNat < 0x80 ∧ ch.toNat ≠ 0 then 1 else if ch.toNat < 0x800 then 2 else 3 := by
  split_ifs with h1 h2
  · rw [bytes_char_one h1.1 h1.2]; rfl
  · rw [bytes_char_two h2 h1]; rfl
  · rw [bytes_char_three (by omega)]; rfl

/-- One character or pair: its first byte tells how many bytes it has, `VisitUtf8Chars` counts
as many units as it has, and `NewStringUTFVisitor` writes them. -/
theorem sequence_bytes (c : CharOrPair) :
    ∃ b bs, c.bytes = b :: bs ∧ sequenceLength b = c.bytes.length ∧
      (if c.bytes.length = 4 then 2 else 1) = c.units.length ∧
      uncompressedUnits (.good c.bytes) = c.units := by
  cases c with
  | char ch =>
    obtain ⟨b, bs, hb, hseq, hlen, hdec⟩ := decode_bytes_char ch
    refine ⟨b, bs, hb, hseq, by rw [if_neg (by omega)]; rfl, ?_⟩
    rw [uncompressedUnits, if_pos (by omega), hdec]
    rfl
  | pair lead trail hlead htrail =>
    obtain ⟨b, bs, hb, hseq, hlen, hpair⟩ := surrogatePair_bytes_pair hlead htrail
    refine ⟨b, bs, hb, hseq.trans hlen.symm, by rw [if_pos hlen]; rfl, ?_⟩
    rw [uncompressedUnits, if_neg (by omega), hpair]
    rfl

/-- A character or pair leaves the string compressible exactly when its units are ASCII. -/
theorem keepsCompressible_good_bytes (c : CharOrPair) :
    keepsCompressible (.good c.bytes) = allASCII c.units := by
  cases c with
  | char ch =>
    obtain ⟨-, -, -, -, -, hdec⟩ := decode_bytes_char ch
    have hlen := length_bytes_char ch
    simp only [keepsCompressible, allASCII, units, List.all_cons, List.all_nil, Bool.and_true]
    split_ifs at hlen with h1 h2 <;> simp only [hlen] <;> simp only [hdec, if_false, if_true,
      OfNat.ofNat_ne_one, true_or, or_true, Nat.succ_ne_self]
    exact ((isASCII_iff ch).2 (by omega)).symm
  | pair lead trail hlead htrail =>
    obtain ⟨-, -, -, -, hlen, -⟩ := surrogatePair_bytes_pair hlead htrail
    have hl := isLead_iff.1 hlead
    have hnot : isASCII lead = false := by
      rw [Bool.eq_false_iff, ne_eq, isASCII_iff]; omega
    simp [keepsCompressible, hlen, allASCII, units, hnot]

/-- A character of a compressible string is written as its byte. -/
theorem compressedByte_good_bytes (c : CharOrPair) (h : allASCII c.units = true) :
    [compressedByte (.good c.bytes)] = c.units.map (BitVec.setWidth 8) := by
  cases c with
  | char ch =>
    obtain ⟨-, -, -, -, -, hdec⟩ := decode_bytes_char ch
    rw [compressedByte, hdec]
    rfl
  | pair lead trail hlead htrail =>
    have hl := isLead_iff.1 hlead
    have hnot : isASCII lead = false := by
      rw [Bool.eq_false_iff, ne_eq, isASCII_iff]; omega
    simp [allASCII, units, hnot] at h

/-- `VisitUtf8Chars` takes the bytes of a character or pair as one sequence. -/
theorem visitUtf8Chars_bytes_append (c : CharOrPair) (tail : List (BitVec 8)) :
    visitUtf8Chars (c.bytes ++ tail) =
      (.good c.bytes :: (visitUtf8Chars tail).1, c.units.length + (visitUtf8Chars tail).2) := by
  obtain ⟨b, bs, hb, hseq, hunits, -⟩ := sequence_bytes c
  rw [← hunits, hb, List.cons_append, visitUtf8Chars]
  rw [hb] at hseq
  dsimp only
  rw [hseq, if_neg (by simp), ← List.cons_append, List.take_left' rfl, List.drop_left' rfl]

/-- `VisitUtf8Chars` of characters and pairs written one after the other. -/
theorem visitUtf8Chars_flatMap (cs : List CharOrPair) :
    visitUtf8Chars (cs.flatMap CharOrPair.bytes) =
      (cs.map fun c => .good c.bytes, (cs.flatMap CharOrPair.units).length) := by
  induction cs with
  | nil => rw [List.flatMap_nil, visitUtf8Chars]; rfl
  | cons c cs ih =>
    rw [List.flatMap_cons, visitUtf8Chars_bytes_append, ih, List.map_cons, List.flatMap_cons,
      List.length_append]

end CharOrPair

/-! ### Strings -/

section Strings

variable {utf16 : List (BitVec 16)}

/-- The bytes written for any units hold no `0`. -/
theorem ne_zero_of_mem_convertUtf16ToUtf8 :
    ∀ b ∈ convertUtf16ToUtf8 false true false utf16, b ≠ 0 := by
  rw [convertUtf16ToUtf8_eq_flatMap]
  intro b hb
  obtain ⟨c, -, hc⟩ := List.mem_flatMap.1 hb
  exact c.ne_zero_of_mem_bytes b hc

/-- ASCII units are written as their bytes. -/
theorem convertUtf16ToUtf8_of_allASCII (h : allASCII utf16 = true) :
    convertUtf16ToUtf8 false true false utf16 = utf16.map (BitVec.setWidth 8) := by
  refine (map_setWidth_eq_convertUtf16ToUtf8 fun ch hch => ?_).symm
  have := (isASCII_iff ch).1 (List.all_eq_true.1 h ch hch)
  omega

/-- `NewStringUTF` of the bytes `ConvertUtf16ToUtf8` writes for any units, paired or not, and a
`'\0'`: a valid, canonical string with those units. -/
theorem newStringUTF_convertUtf16ToUtf8 (h : utf16.length < 2 ^ 31) :
    ∃ r, newStringUTF (convertUtf16ToUtf8 false true false utf16 ++ [0]) = .ok r ∧
      r.Valid ∧ r.Canonical ∧ r.chars = utf16 := by
  set cs := toCharOrPairs utf16
  have hunits : cs.flatMap CharOrPair.units = utf16 := flatMap_units_toCharOrPairs utf16
  -- `strlen` stops at the `'\0'` after the bytes
  have htake : (convertUtf16ToUtf8 false true false utf16 ++ [0]).takeWhile (· ≠ 0) =
      cs.flatMap CharOrPair.bytes := by
    rw [List.takeWhile_append_of_pos (by simpa using ne_zero_of_mem_convertUtf16ToUtf8),
      convertUtf16ToUtf8_eq_flatMap]
    simp
    rfl
  have hvisit := visitUtf8Chars_flatMap cs
  rw [hunits] at hvisit
  -- the string is compressible exactly when its units are ASCII
  have hcompressible : ((cs.map fun c => Utf8Visit.good c.bytes).all keepsCompressible) =
      allASCII utf16 := by
    rw [List.all_map, ← hunits, allASCII, List.all_flatMap]
    exact congrArg cs.all (funext keepsCompressible_good_bytes)
  simp only [newStringUTF, htake, hvisit, kUseStringCompression, Bool.true_and, hcompressible,
    if_neg (show ¬ utf16.length > 2 ^ 31 - 1 by omega), isCompressed_getFlaggedCount]
  refine ⟨_, rfl, ?_⟩
  split_ifs with hascii
  · -- compressed: the bytes of the ASCII units
    have hbytes : (cs.map fun c => Utf8Visit.good c.bytes).map compressedByte =
        utf16.map (BitVec.setWidth 8) := by
      rw [List.map_map, ← hunits, List.map_flatMap]
      rw [← hunits, allASCII, List.all_flatMap, List.all_eq_true] at hascii
      rw [← List.flatMap_pure_eq_map]
      exact List.flatMap_congr fun c hc => compressedByte_good_bytes c (hascii c hc)
    rw [hbytes]
    exact MString.spec_of_getFlaggedCount h (map_setWidth_of_allASCII hascii) rfl hascii.symm rfl
  · -- uncompressed: the units of each character or pair
    have hchars : (cs.map fun c => Utf8Visit.good c.bytes).flatMap uncompressedUnits = utf16 := by
      rw [List.flatMap_map, ← hunits]
      refine List.flatMap_congr fun c _ => ?_
      obtain ⟨-, -, -, -, -, hunits⟩ := sequence_bytes c
      exact hunits
    rw [hchars]
    exact MString.spec_of_getFlaggedCount h rfl rfl (Bool.eq_false_iff.2 hascii).symm rfl

variable {s : MString}

/-- What a valid, canonical string holds, written: a compressed string's bytes are the bytes
`ConvertUtf16ToUtf8` writes for its ASCII units. -/
theorem valueCompressed_take_eq (hv : s.Valid) (hcan : s.Canonical) (hc : s.isCompressed = true) :
    s.valueCompressed.take s.length = convertUtf16ToUtf8 false true false s.chars ∧
      s.length = (convertUtf16ToUtf8 false true false s.chars).length := by
  obtain ⟨bytes, hs, htake⟩ := hv.valueCompressed_take hc
  have hascii : allASCII s.chars = true := by
    rw [← hcan, hs]; rfl
  have hchars : s.chars = bytes.map (BitVec.setWidth 16) := by
    rw [MString.chars, hs]; rfl
  have hbytes : convertUtf16ToUtf8 false true false s.chars = bytes := by
    rw [convertUtf16ToUtf8_of_allASCII hascii, hchars, List.map_map]
    conv_rhs => rw [← List.map_id bytes]
    exact List.map_congr_left fun b _ => BitVec.setWidth_setWidth_of_le b (by decide) |>.trans
      (BitVec.setWidth_eq b)
  refine ⟨htake.trans hbytes.symm, ?_⟩
  rw [hbytes, hv.length_eq, hs]
  rfl

/-- `GetStringUTFChars` and `GetStringUTFLength` of a valid, canonical string whose encoding has
fewer than `2^31` bytes: the buffer is the encoding and a `'\0'`, with no `0` byte before it,
and `GetStringUTFLength` is the length of the encoding. -/
theorem getStringUTFChars_eq (hv : s.Valid) (hcan : s.Canonical)
    (h : (convertUtf16ToUtf8 false true false s.chars).length < 2 ^ 31) :
    getStringUTFChars s = some (convertUtf16ToUtf8 false true false s.chars ++ [0]) ∧
      getStringUTFLength s = some (convertUtf16ToUtf8 false true false s.chars).length ∧
      ∀ b ∈ convertUtf16ToUtf8 false true false s.chars, b ≠ 0 := by
  cases hc : s.isCompressed
  · -- the units, encoded
    obtain ⟨chars, hs, htake⟩ := hv.valueUncompressed_take hc
    have hchars : s.chars = chars := by rw [MString.chars, hs]; rfl
    rw [hchars] at h ⊢
    have hlen : getUncompressedStringUTFLength chars =
        some (convertUtf16ToUtf8 false true false chars).length := if_pos h
    refine ⟨?_, ?_, ne_zero_of_mem_convertUtf16ToUtf8⟩
    · simp only [getStringUTFChars, hc, htake, hlen, Bool.false_eq_true, if_false, Option.map_some]
      rfl
    · simp only [getStringUTFLength, hc, htake, hlen, Bool.false_eq_true, if_false]
  · -- the bytes, copied
    obtain ⟨htake, hlength⟩ := valueCompressed_take_eq hv hcan hc
    refine ⟨?_, ?_, ne_zero_of_mem_convertUtf16ToUtf8⟩
    · simp only [getStringUTFChars, hc, if_true, Option.map_some, htake]
    · simp only [getStringUTFLength, hc, if_true, hlength]

/-- `GetStringUTFRegion` into a buffer: within the string, the bytes `ConvertUtf16ToUtf8` writes
for the units of the range and a `'\0'`; outside it, the exception, and nothing written. -/
theorem getStringUTFRegion_eq (hv : s.Valid) (hcan : s.Canonical) (start length : Int) :
    getStringUTFRegion s start length false =
      if 0 ≤ start ∧ 0 ≤ length ∧ start + length ≤ s.length then
        .ok (convertUtf16ToUtf8 false true false ((s.chars.drop start.toNat).take length.toNat) ++ [0])
      else .error .stringIndexOutOfBounds := by
  unfold getStringUTFRegion
  by_cases hrange : 0 ≤ start ∧ 0 ≤ length ∧ start + length ≤ s.length
  swap
  · rw [if_neg hrange, if_pos (by omega)]
  rw [if_pos hrange, if_neg (by omega), if_neg (by simp)]
  cases hc : s.isCompressed
  · obtain ⟨chars, hs, htake⟩ := hv.valueUncompressed_take hc
    have hlen : (s.valueUncompressed.drop start.toNat).take length.toNat =
        (chars.drop start.toNat).take length.toNat := by
      rw [← htake, List.drop_take, List.take_take, Nat.min_eq_left (by omega)]
    rw [if_neg Bool.false_ne_true, hlen, MString.chars, hs]
    rfl
  · obtain ⟨htake, -⟩ := valueCompressed_take_eq hv hcan hc
    obtain ⟨bytes, hs, -⟩ := hv.valueCompressed_take hc
    have hascii : allASCII s.chars = true := by rw [← hcan, hs]; rfl
    -- the range of ASCII units is written as the range of bytes
    have hsub : allASCII ((s.chars.drop start.toNat).take length.toNat) = true :=
      List.all_eq_true.2 fun ch hch =>
        List.all_eq_true.1 hascii ch (List.mem_of_mem_drop (List.mem_of_mem_take hch))
    rw [if_pos rfl, convertUtf16ToUtf8_of_allASCII hsub, List.map_take, List.map_drop,
      ← convertUtf16ToUtf8_of_allASCII hascii, ← htake, List.drop_take, List.take_take,
      Nat.min_eq_left (by omega)]

/-- Every unit written in three bytes: `n` such units take `3 * n` bytes. -/
theorem length_convertUtf16ToUtf8_replicate (n : Nat) {ch : BitVec 16} (h : 0x800 ≤ ch.toNat)
    (hlead : isLead ch = false) :
    (convertUtf16ToUtf8 false true false (List.replicate n ch)).length = 3 * n := by
  induction n with
  | zero => rw [List.replicate_zero, convertUtf16ToUtf8]; rfl
  | succ n ih =>
    rw [List.replicate_succ, convertUtf16ToUtf8_cons_char (by rw [hlead, Bool.false_and]),
      List.length_append, ih, CharOrPair.bytes_char_three h]
    simp only [List.length_cons, List.length_nil]
    omega


/-- `GetUncompressedStringUTFLength` counts the bytes in a `jsize`: for a string whose encoding
has `2^31` bytes or more the count overflows, which is undefined, and so are
`GetStringUTFLength` and `GetStringUTFChars`. -/
theorem getStringUTFChars_overflow (hv : s.Valid) (hc : s.isCompressed = false)
    (h : 2 ^ 31 ≤ (convertUtf16ToUtf8 false true false s.chars).length) :
    getStringUTFLength s = none ∧ getStringUTFChars s = none := by
  obtain ⟨chars, hs, htake⟩ := hv.valueUncompressed_take hc
  have hchars : s.chars = chars := by rw [MString.chars, hs]; rfl
  rw [hchars] at h
  have hnone : getUncompressedStringUTFLength chars = none := by
    rw [getUncompressedStringUTFLength, if_neg (by simpa [kUtfUseShortZero, kUtfUse4ByteSequence,
      kUtfReplaceBadSurrogates] using h)]
  simp [getStringUTFLength, getStringUTFChars, hc, htake, hnone]

/-- `715827883` units `U+0800`, a string `String::Alloc` allows, three bytes each: `2^31 + 1`
bytes overflow the count. -/
theorem getStringUTFChars_overflow_replicate :
    let s : MString :=
      ⟨getFlaggedCount 715827883 false, .uncompressed (List.replicate 715827883 0x800)⟩
    s.Valid ∧ s.isCompressed = false ∧
      2 ^ 31 ≤ (convertUtf16ToUtf8 false true false s.chars).length ∧
      getStringUTFLength s = none ∧ getStringUTFChars s = none := by
  intro s
  have hv : s.Valid := MString.valid_of_getFlaggedCount (by decide) List.length_replicate rfl
  have hc : s.isCompressed = false := by decide
  have h : 2 ^ 31 ≤ (convertUtf16ToUtf8 false true false s.chars).length := by
    rw [show s.chars = List.replicate 715827883 0x800 from rfl,
      length_convertUtf16ToUtf8_replicate _ (by decide) (by decide)]
    omega
  exact ⟨hv, hc, h, getStringUTFChars_overflow hv hc h⟩

/-- `NewStringUTF` of what `GetStringUTFChars` returns for a valid, canonical string whose
encoding has fewer than `2^31` bytes: a valid, canonical string with the same units. -/
theorem newStringUTF_getStringUTFChars (hv : s.Valid) (hcan : s.Canonical)
    (h : (convertUtf16ToUtf8 false true false s.chars).length < 2 ^ 31) :
    ∃ bytes r, getStringUTFChars s = some bytes ∧ newStringUTF bytes = .ok r ∧
      r.Valid ∧ r.Canonical ∧ r.chars = s.chars := by
  have hlen : s.chars.length < 2 ^ 31 := hv.length_chars ▸ s.length_lt
  obtain ⟨r, hr, hrest⟩ := newStringUTF_convertUtf16ToUtf8 hlen
  exact ⟨_, r, (getStringUTFChars_eq hv hcan h).1, hr, hrest⟩

end Strings

end Jni

end Art
