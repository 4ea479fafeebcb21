import Art.Lib.Cursor
import Mathlib.Data.BitVec

/-!
# LEB128

`libartbase/base/leb128.h`. A value is written seven bits a byte, least significant group first;
bit 7 of a byte says that another byte follows. `DecodeLeb128Helper<T>` reads at most
`ceil(bits / 7)` bytes into a `T` of 32 or 64 bits and, for a signed `T`, sign extends the result
from the last bit it read. `EncodeUnsignedLeb128` stops when the rest of the value is zero;
`EncodeSignedLeb128` stops when the rest of the value (with one bit for the sign) equals its sign,
which it tracks in `extra_bits`, a 64-bit word in the pointer overload and a 32-bit one in the
vector overload. `UnsignedLeb128Size` and `SignedLeb128Size` compute the byte count from `CLZ`.

Bytes are `BitVec 8`, `T` is `BitVec numBits`, and a buffer is the list of bytes from the cursor
on. A decoder returns the value and how far it moved the cursor.

The main results are `decodeLeb128Loop_encodeUnsignedLeb128Loop` and
`decodeLeb128Loop_encodeSignedLeb128Loop`: decoding from any byte of an encoding on, with the bits
read so far, gives the encoded value and stops right after the encoding. The byte counts are
`length_encodeUnsignedLeb128` and `length_encodeSignedLeb128`.
-/

namespace Art

/-! ### Decoding -/

/-- `max_bytes` of `DecodeLeb128Helper`: `ceil(num_bits / 7)`. -/
def maxBytes (numBits : Nat) : Nat := (numBits + 6) / 7

/-- The loop of `DecodeLeb128Helper<T>` for a `T` of `numBits` bits, from byte `index` on with
the bits read so far in `result`. `endAt` is how many bytes lie before `end`, if there is one.
Returns the value and the number of bytes read, or `none` where the source returns `false`; a
read past `data` (undefined in the source, where nothing bounds it without `end`) is `none` too. -/
def decodeLeb128Loop (numBits : Nat) (signed : Bool) (endAt : Option Nat) :
    Nat → BitVec numBits → List (BitVec 8) → Option (BitVec numBits × Nat)
  | index, result, data =>
    if index < maxBytes numBits then
      if endAt.any (· ≤ index) then none
      else
        match data with
        | [] => none
        | curr :: data =>
          let result := result ||| ((curr.setWidth numBits &&& 0x7f) <<< (index * 7))
          if curr.toNat ≤ 0x7f then
            -- a signed value is sign extended unless all of its bits were read
            if signed && index < maxBytes numBits - 1 then
              let shift := numBits - (index + 1) * 7
              some ((result <<< shift).sshiftRight shift, index + 1)
            else some (result, index + 1)
          else decodeLeb128Loop numBits signed endAt (index + 1) result data
    else some (result, index)

/-- `DecodeLeb128Helper<T>`. -/
def decodeLeb128Helper (numBits : Nat) (signed : Bool) (data : List (BitVec 8))
    (endAt : Option Nat) : Option (BitVec numBits × Nat) :=
  decodeLeb128Loop numBits signed endAt 0 0 data

/-- `DecodeUnsignedLeb128<T>`. -/
def decodeUnsignedLeb128 (numBits : Nat) (data : List (BitVec 8)) :
    Option (BitVec numBits × Nat) :=
  decodeLeb128Helper numBits false data none

/-- `DecodeUnsignedLeb128Checked<T>`, with `end` `endAt` bytes after the cursor. -/
def decodeUnsignedLeb128Checked (numBits : Nat) (data : List (BitVec 8)) (endAt : Nat) :
    Option (BitVec numBits × Nat) :=
  decodeLeb128Helper numBits false data (some endAt)

/-- `DecodeSignedLeb128<T>`. -/
def decodeSignedLeb128 (numBits : Nat) (data : List (BitVec 8)) :
    Option (BitVec numBits × Nat) :=
  decodeLeb128Helper numBits true data none

/-- `DecodeSignedLeb128Checked<T>`, with `end` `endAt` bytes after the cursor. -/
def decodeSignedLeb128Checked (numBits : Nat) (data : List (BitVec 8)) (endAt : Nat) :
    Option (BitVec numBits × Nat) :=
  decodeLeb128Helper numBits true data (some endAt)

/-! ### Sizes -/

/-- `UnsignedLeb128Size`: `ceil(bits_to_encode / 7)`, the division by 7 done as `(x * 37) >> 8`. -/
def unsignedLeb128Size (data : BitVec 64) : Nat :=
  let x := 6 + 64 - (data ||| 1).clz.toNat
  (x * 37) >>> 8

/-- `SignedLeb128Size`: like `UnsignedLeb128Size` with one more bit for the sign. -/
def signedLeb128Size (data : BitVec 64) : Nat :=
  let bitsToEncode := data ^^^ data.sshiftRight 63
  let numBits := 1 + 6 + 64 - (bitsToEncode ||| 1).clz.toNat
  (numBits * 37) >>> 8

/-! ### Encoding -/

theorem toNat_ushiftRight_seven_lt {w : Nat} {x : BitVec w} (h : x ≠ 0) :
    (x >>> 7).toNat < x.toNat := by
  have hx : x.toNat ≠ 0 := fun h0 => h (BitVec.eq_of_toNat_eq (by simpa using h0))
  rw [BitVec.toNat_ushiftRight, Nat.shiftRight_eq_div_pow]
  omega

/-- The loop of `EncodeUnsignedLeb128` (both overloads write the same bytes): `out` is the next
byte's seven bits and `value` what is left to write after it. -/
def encodeUnsignedLeb128Loop (out : BitVec 8) (value : BitVec 64) : List (BitVec 8) :=
  if value ≠ 0 then
    (out ||| 0x80) :: encodeUnsignedLeb128Loop ((value &&& 0x7f).setWidth 8) (value >>> 7)
  else [out]
termination_by value.toNat
decreasing_by exact toNat_ushiftRight_seven_lt ‹_›

/-- `EncodeUnsignedLeb128`. -/
def encodeUnsignedLeb128 (value : BitVec 64) : List (BitVec 8) :=
  encodeUnsignedLeb128Loop ((value &&& 0x7f).setWidth 8) (value >>> 7)

/-- The loop of `EncodeSignedLeb128`, with `extra_bits` of either overload's width. -/
def encodeSignedLeb128Loop {w : Nat} (extraBits : BitVec w) (value : BitVec 64) (out : BitVec 8) :
    List (BitVec 8) :=
  if extraBits ≠ 0 then
    let value := value.sshiftRight 7
    (out ||| 0x80) :: encodeSignedLeb128Loop (extraBits >>> 7) value ((value &&& 0x7f).setWidth 8)
  else [out]
termination_by extraBits.toNat
decreasing_by exact toNat_ushiftRight_seven_lt ‹_›

/-- `EncodeSignedLeb128(uint8_t*, int64_t)`. -/
def encodeSignedLeb128 (value : BitVec 64) : List (BitVec 8) :=
  encodeSignedLeb128Loop ((value ^^^ value.sshiftRight 63) >>> 6) value
    ((value &&& 0x7f).setWidth 8)

/-- `EncodeSignedLeb128(std::vector<uint8_t>*, int64_t)`, whose `extra_bits` is 32 bits wide. -/
def encodeSignedLeb128Vector (value : BitVec 64) : List (BitVec 8) :=
  encodeSignedLeb128Loop ((value ^^^ value.sshiftRight 31).setWidth 32 >>> 6) value
    ((value &&& 0x7f).setWidth 8)

/-! ### Bytes -/

theorem getLsbD_0x7f {N : Nat} (j : Nat) :
    (0x7f : BitVec N).getLsbD j = (decide (j < N) && decide (j < 7)) := by
  have h : (0x7f : BitVec N) = BitVec.ofNat N (2 ^ 7 - 1) := rfl
  rw [h, BitVec.getLsbD_ofNat, Nat.testBit_two_pow_sub_one]

theorem getLsbD_0x80 (j : Nat) : (0x80 : BitVec 8).getLsbD j = decide (j = 7) := by
  have h : (0x80 : BitVec 8) = BitVec.ofNat 8 (2 ^ 7) := rfl
  rw [h, BitVec.getLsbD_ofNat, Nat.testBit_two_pow]
  by_cases hj : j = 7
  · simp [hj]
  · simp [hj, Ne.symm hj]

/-- The seven low bits of a value, as the encoders take them into a byte. -/
theorem getLsbD_payload {w : Nat} (value : BitVec w) {j : Nat} (hj : j < 7) :
    ((value &&& 0x7f).setWidth 8).getLsbD j = value.getLsbD j := by
  simp only [BitVec.getLsbD_setWidth, BitVec.getLsbD_and, getLsbD_0x7f]
  cases hv : value.getLsbD j with
  | false => simp
  | true => simp [BitVec.lt_of_getLsbD hv, hj, show j < 8 by omega]

theorem getLsbD_or_0x80 (b : BitVec 8) {j : Nat} (hj : j < 7) :
    (b ||| 0x80).getLsbD j = b.getLsbD j := by
  simp only [BitVec.getLsbD_or, getLsbD_0x80, show j ≠ 7 by omega, decide_false, Bool.or_false]

/-- A byte with its seven bits from an encoder ends an encoding. -/
theorem toNat_payload_le {w : Nat} (value : BitVec w) :
    ((value &&& 0x7f).setWidth 8).toNat ≤ 0x7f := by
  rw [BitVec.toNat_setWidth, BitVec.toNat_and]
  exact (Nat.mod_le _ _).trans (Nat.and_le_right.trans (Nat.mod_le _ _))

/-- A byte with bit 7 set does not end an encoding. -/
theorem not_toNat_or_0x80_le (b : BitVec 8) : ¬(b ||| 0x80).toNat ≤ 0x7f := by
  rw [BitVec.toNat_or]
  have h : (0x80 : BitVec 8).toNat ≤ b.toNat ||| (0x80 : BitVec 8).toNat := Nat.right_le_or
  have h80 : (0x80 : BitVec 8).toNat = 0x80 := rfl
  omega

/-! ### One byte of decoding -/

section Decode

variable {numBits : Nat} {signed : Bool} {endAt : Option Nat}

theorem any_le_eq_false {index : Nat} (h : ∀ e ∈ endAt, index < e) :
    endAt.any (· ≤ index) = false := by
  cases endAt with
  | none => rfl
  | some e => simpa using h e rfl

/-- A byte with bit 7 set: the loop goes on with its seven bits in place. -/
theorem decodeLeb128Loop_cons_of_continue {index : Nat} {result : BitVec numBits}
    {curr : BitVec 8} {data : List (BitVec 8)} (hi : index < maxBytes numBits)
    (hend : ∀ e ∈ endAt, index < e) (hc : ¬curr.toNat ≤ 0x7f) :
    decodeLeb128Loop numBits signed endAt index result (curr :: data) =
      decodeLeb128Loop numBits signed endAt (index + 1)
        (result ||| ((curr.setWidth numBits &&& 0x7f) <<< (index * 7))) data := by
  rw [decodeLeb128Loop]
  simp only [hi, any_le_eq_false hend, hc, if_true, if_false, Bool.false_eq_true]

/-- A byte with bit 7 clear ends the value, sign extended if it is signed and short. -/
theorem decodeLeb128Loop_cons_of_stop {index : Nat} {result : BitVec numBits}
    {curr : BitVec 8} {data : List (BitVec 8)} (hi : index < maxBytes numBits)
    (hend : ∀ e ∈ endAt, index < e) (hc : curr.toNat ≤ 0x7f) :
    decodeLeb128Loop numBits signed endAt index result (curr :: data) =
      let result := result ||| ((curr.setWidth numBits &&& 0x7f) <<< (index * 7))
      if signed && index < maxBytes numBits - 1 then
        let shift := numBits - (index + 1) * 7
        some ((result <<< shift).sshiftRight shift, index + 1)
      else some (result, index + 1) := by
  rw [decodeLeb128Loop]
  simp only [hi, any_le_eq_false hend, hc, if_true, if_false, Bool.false_eq_true]

/-- `0x7f` alone is `-1` for a signed type, sign extended from bit 6. -/
example : decodeSignedLeb128 32 [0x7f] = some (-1, 1) := by decide

end Decode

/-! ### The bits read so far

After `i` bytes of an encoding of `v`, the decoder holds the low `7 * i` bits of `v`, that is
`(v.setWidth (7 * i)).setWidth numBits`. -/

/-- Or-ing in the next seven bits of `v` at `7 * i` extends the bits read by seven. -/
theorem setWidth_or_payload {N : Nat} (hN : 7 ≤ N) (v : BitVec 64) (b : BitVec 8) (i : Nat)
    (hb : ∀ j < 7, 7 * i + j < N → b.getLsbD j = v.getLsbD (7 * i + j)) :
    (v.setWidth (7 * i)).setWidth N ||| ((b.setWidth N &&& 0x7f) <<< (i * 7)) =
      (v.setWidth (7 * (i + 1))).setWidth N := by
  apply BitVec.eq_of_getLsbD_eq
  intro j hj
  simp only [BitVec.getLsbD_or, BitVec.getLsbD_setWidth, BitVec.getLsbD_shiftLeft,
    BitVec.getLsbD_and, getLsbD_0x7f, hj, decide_true, Bool.true_and]
  by_cases hlo : j < 7 * i
  · have : j < 7 * (i + 1) := by omega
    simp [hlo, this, show j < i * 7 by omega]
  · by_cases hhi : j < 7 * (i + 1)
    · have hb' := hb (j - i * 7) (by omega) (by omega)
      rw [show 7 * i + (j - i * 7) = j by omega] at hb'
      simp [hlo, hhi, show ¬j < i * 7 by omega, show j - i * 7 < 7 by omega,
        show j - i * 7 < N by omega, hb']
    · simp [hlo, hhi, show ¬j - i * 7 < 7 by omega]

/-- Once the bits of `v` above `k` are zero, the low `k` bits are all of `v`. -/
theorem setWidth_setWidth_of_ushiftRight_eq_zero {N k : Nat} {v : BitVec 64} (h : v >>> k = 0) :
    (v.setWidth k).setWidth N = v.setWidth N := by
  apply BitVec.eq_of_getLsbD_eq
  intro j hj
  simp only [BitVec.getLsbD_setWidth, hj, decide_true, Bool.true_and]
  by_cases hjk : j < k
  · simp [hjk]
  · have hz := congrArg (fun x => x.getLsbD (j - k)) h
    simp only [BitVec.getLsbD_ushiftRight, show k + (j - k) = j by omega] at hz
    simp [hjk, hz]

theorem ushiftRight_eq_zero_iff {w : Nat} (x : BitVec w) (k : Nat) :
    x >>> k = 0 ↔ x.toNat < 2 ^ k := by
  rw [BitVec.toNat_eq, BitVec.toNat_ushiftRight, Nat.shiftRight_eq_div_pow]
  simp only [BitVec.ofNat_eq_ofNat, BitVec.toNat_ofNat, Nat.zero_mod]
  exact Nat.div_eq_zero_iff_lt (Nat.two_pow_pos k)

/-- A value below `2 ^ N` has nothing left after `N` bits. -/
theorem lt_of_ushiftRight_ne_zero {w N k : Nat} {v : BitVec w} (hv : v.toNat < 2 ^ N)
    (h : v >>> k ≠ 0) : k < N := by
  by_contra hk
  exact h ((ushiftRight_eq_zero_iff v k).2
    (hv.trans_le (Nat.pow_le_pow_right Nat.two_pos (by omega))))

theorem ushiftRight_seven_mul {w : Nat} (v : BitVec w) (i : Nat) :
    v >>> (7 * i) >>> 7 = v >>> (7 * (i + 1)) := by
  rw [← BitVec.shiftRight_add, Nat.mul_succ]

/-! ### Unsigned round trip -/

/-- Decoding an unsigned encoding of `v < 2 ^ N` from its byte `i` on, with the low `7 * i` bits
of `v` read, gives `v` and stops right after the encoding. The loop's `out` and `value` are those
of the encoder's iteration `i`. -/
theorem decodeLeb128Loop_encodeUnsignedLeb128Loop {N : Nat} (hN : 7 ≤ N) {v : BitVec 64}
    (hv : v.toNat < 2 ^ N) (endAt : Option Nat) (rest : List (BitVec 8)) (out : BitVec 8)
    (value : BitVec 64) :
    ∀ i, out = ((v >>> (7 * i)) &&& 0x7f).setWidth 8 → value = v >>> (7 * (i + 1)) →
      i < maxBytes N → (∀ e ∈ endAt, i + (encodeUnsignedLeb128Loop out value).length ≤ e) →
      decodeLeb128Loop N false endAt i ((v.setWidth (7 * i)).setWidth N)
          (encodeUnsignedLeb128Loop out value ++ rest) =
        some (v.setWidth N, i + (encodeUnsignedLeb128Loop out value).length) := by
  induction out, value using encodeUnsignedLeb128Loop.induct with
  | case1 out value hne ih =>
    intro i hout hvalue hi hend
    rw [encodeUnsignedLeb128Loop, if_pos hne] at hend ⊢
    simp only [List.length_cons] at hend
    -- a byte with bit 7 set: its seven bits join those read, and the loop goes on
    have hbyte : ∀ j < 7, 7 * i + j < N → (out ||| 0x80).getLsbD j = v.getLsbD (7 * i + j) := by
      intro j hj _
      rw [getLsbD_or_0x80 _ hj, hout, getLsbD_payload _ hj, BitVec.getLsbD_ushiftRight]
    have hnext : i + 1 < maxBytes N := by
      have := lt_of_ushiftRight_ne_zero hv (hvalue ▸ hne)
      unfold maxBytes
      omega
    rw [List.cons_append, decodeLeb128Loop_cons_of_continue hi (fun e he => by
        have := hend e he; omega) (not_toNat_or_0x80_le out),
      setWidth_or_payload hN v _ i hbyte,
      ih (i + 1) (by rw [hvalue]) (by rw [hvalue, ushiftRight_seven_mul]) hnext (fun e he => by
        have := hend e he; omega)]
    simp only [List.length_cons]
    congr 2
    omega
  | case2 out value hz =>
    intro i hout hvalue hi hend
    rw [encodeUnsignedLeb128Loop, if_neg hz] at hend ⊢
    -- the last byte: nothing of `v` is left above its seven bits
    have hbyte : ∀ j < 7, 7 * i + j < N → out.getLsbD j = v.getLsbD (7 * i + j) := by
      intro j hj _
      rw [hout, getLsbD_payload _ hj, BitVec.getLsbD_ushiftRight]
    have hrest : v >>> (7 * (i + 1)) = 0 := by
      rw [← hvalue]
      simpa using hz
    rw [List.singleton_append, decodeLeb128Loop_cons_of_stop hi (fun e he => by
        have := hend e he; simp at this; omega) (hout ▸ toNat_payload_le _)]
    simp only [Bool.false_and, Bool.false_eq_true, if_false, List.length_singleton]
    rw [setWidth_or_payload hN v _ i hbyte, setWidth_setWidth_of_ushiftRight_eq_zero hrest]

/-! ### Signed round trip

`extra_bits` is the value xor its sign, less the bits already written and six more: the last
byte holds six bits of the value and its sign bit. Where it is zero, every bit of the value
from there on is the sign. -/

theorem ushiftRight_eq_zero_of_le {w k k' : Nat} {x : BitVec w} (h : x >>> k = 0) (hk : k ≤ k') :
    x >>> k' = 0 := by
  rw [ushiftRight_eq_zero_iff] at h ⊢
  exact h.trans_le (Nat.pow_le_pow_right Nat.two_pos hk)

/-- The bits of `v` from `k` on are its sign when `v` xor its sign has nothing there. -/
theorem getLsbD_eq_msb_of_xor_ushiftRight_eq_zero {v : BitVec 64} {k j : Nat}
    (h : (v ^^^ v.sshiftRight 63) >>> k = 0) (hj : k ≤ j) (hj64 : j < 64) :
    v.getLsbD j = v.msb := by
  have hz := congrArg (fun x => x.getLsbD (j - k)) h
  simp only [BitVec.getLsbD_ushiftRight, show k + (j - k) = j by omega, BitVec.getLsbD_xor,
    BitVec.getLsbD_sshiftRight] at hz
  by_cases hj0 : j = 0
  · subst hj0
    simpa [BitVec.msb_eq_getLsbD_last] using hz
  · simpa [show ¬64 ≤ j by omega, show ¬63 + j < 64 by omega] using hz

/-- Sign extending the low `k` bits of `v` from bit `k - 1` gives `v` back when the bits of `v`
from `k - 1` on are its sign. -/
theorem sshiftRight_shiftLeft_setWidth {N k : Nat} (hk : 0 < k) (hkN : k ≤ N) (hN64 : N ≤ 64)
    {v : BitVec 64} (h : (v ^^^ v.sshiftRight 63) >>> (k - 1) = 0) :
    (((v.setWidth k).setWidth N) <<< (N - k)).sshiftRight (N - k) = v.setWidth N := by
  apply BitVec.eq_of_getLsbD_eq
  intro j hj
  simp only [BitVec.getLsbD_sshiftRight, BitVec.msb_eq_getLsbD_last, BitVec.getLsbD_shiftLeft,
    BitVec.getLsbD_setWidth, show ¬N ≤ j by omega, hj, decide_true, decide_false,
    Bool.not_false, Bool.true_and]
  by_cases hjk : j < k
  · simp [show N - k + j < N by omega, hjk, show ¬N - k + j < N - k by omega,
      show N - k + j - (N - k) = j by omega, hj]
  · -- above the bits read, both sides are the sign
    have hsign := getLsbD_eq_msb_of_xor_ushiftRight_eq_zero h (show k - 1 ≤ j by omega) (by omega)
    have hlast := getLsbD_eq_msb_of_xor_ushiftRight_eq_zero h (le_refl (k - 1)) (by omega)
    simp [show ¬N - k + j < N by omega, show N - 1 < N by omega,
      show ¬N - 1 < N - k by omega, show N - 1 - (N - k) = k - 1 by omega,
      show k - 1 < k by omega, show k - 1 < N by omega, hsign, hlast]

/-- Decoding a signed encoding of `v` from its byte `i` on, with the low `7 * i` bits of `v`
read, gives `v` in `N` bits and stops right after the encoding, when the bits of `v` from
`N - 1` on are its sign. The loop's arguments are those of the encoder's iteration `i`, with
`extra_bits` of any width. -/
theorem decodeLeb128Loop_encodeSignedLeb128Loop {N : Nat} (hN : 7 ≤ N) (hN64 : N ≤ 64)
    {v : BitVec 64} (hv : (v ^^^ v.sshiftRight 63) >>> (N - 1) = 0) (endAt : Option Nat)
    (rest : List (BitVec 8)) {w : Nat} (extraBits : BitVec w) (value : BitVec 64)
    (out : BitVec 8) :
    ∀ i, extraBits.toNat = ((v ^^^ v.sshiftRight 63) >>> (7 * i + 6)).toNat →
      value = v.sshiftRight (7 * i) → out = (value &&& 0x7f).setWidth 8 → i < maxBytes N →
      (∀ e ∈ endAt, i + (encodeSignedLeb128Loop extraBits value out).length ≤ e) →
      decodeLeb128Loop N true endAt i ((v.setWidth (7 * i)).setWidth N)
          (encodeSignedLeb128Loop extraBits value out ++ rest) =
        some (v.setWidth N, i + (encodeSignedLeb128Loop extraBits value out).length) := by
  induction extraBits, value, out using encodeSignedLeb128Loop.induct with
  | case1 extraBits value out hne value' ih =>
    intro i hextra hvalue hout hi hend
    dsimp only [value'] at ih
    rw [encodeSignedLeb128Loop, if_pos hne] at hend ⊢
    simp only [List.length_cons] at hend
    -- a byte with bit 7 set: its seven bits join those read, and the loop goes on
    have hbyte : ∀ j < 7, 7 * i + j < N → (out ||| 0x80).getLsbD j = v.getLsbD (7 * i + j) := by
      intro j hj hjN
      rw [getLsbD_or_0x80 _ hj, hout, getLsbD_payload _ hj, hvalue, BitVec.getLsbD_sshiftRight]
      simp [show ¬64 ≤ j by omega, show 7 * i + j < 64 by omega]
    have hnext : i + 1 < maxBytes N := by
      have hne' : (v ^^^ v.sshiftRight 63) >>> (7 * i + 6) ≠ 0 := fun h0 =>
        hne (BitVec.eq_of_toNat_eq (by rw [hextra, h0]; rfl))
      have : 7 * i + 6 < N - 1 := by
        by_contra hle
        exact hne' (ushiftRight_eq_zero_of_le hv (by omega))
      unfold maxBytes
      omega
    have hextra' : (extraBits >>> 7).toNat =
        ((v ^^^ v.sshiftRight 63) >>> (7 * (i + 1) + 6)).toNat := by
      rw [BitVec.toNat_ushiftRight, hextra, ← BitVec.toNat_ushiftRight, ← BitVec.shiftRight_add]
      congr 2
    have hvalue' : value.sshiftRight 7 = v.sshiftRight (7 * (i + 1)) := by
      rw [hvalue, ← BitVec.sshiftRight_add, Nat.mul_succ]
    rw [List.cons_append, decodeLeb128Loop_cons_of_continue hi (fun e he => by
        have := hend e he; omega) (not_toNat_or_0x80_le out),
      setWidth_or_payload hN v _ i hbyte,
      ih (i + 1) hextra' hvalue' rfl hnext (fun e he => by have := hend e he; omega)]
    simp only [List.length_cons]
    congr 2
    omega
  | case2 extraBits value out hz =>
    intro i hextra hvalue hout hi hend
    rw [encodeSignedLeb128Loop, if_neg hz] at hend ⊢
    -- the last byte: from its sign bit on, `v` is its sign
    have hbyte : ∀ j < 7, 7 * i + j < N → out.getLsbD j = v.getLsbD (7 * i + j) := by
      intro j hj hjN
      rw [hout, getLsbD_payload _ hj, hvalue, BitVec.getLsbD_sshiftRight]
      simp [show ¬64 ≤ j by omega, show 7 * i + j < 64 by omega]
    have hrest : (v ^^^ v.sshiftRight 63) >>> (7 * i + 6) = 0 := by
      apply BitVec.eq_of_toNat_eq
      rw [← hextra, not_not.mp hz]
      rfl
    rw [List.singleton_append, decodeLeb128Loop_cons_of_stop hi (fun e he => by
        have := hend e he; simp at this; omega) (hout ▸ toNat_payload_le _),
      setWidth_or_payload hN v _ i hbyte]
    simp only [Bool.true_and, decide_eq_true_eq, List.length_singleton]
    split_ifs with hshort
    · -- sign extended from bit `7 * i + 6`
      have hk : (i + 1) * 7 = 7 * (i + 1) := Nat.mul_comm _ _
      rw [hk, sshiftRight_shiftLeft_setWidth (by omega) (by unfold maxBytes at hshort; omega) hN64
        (by rwa [show 7 * (i + 1) - 1 = 7 * i + 6 by omega])]
    · -- all `N` bits were read
      rw [BitVec.setWidth_setWidth_of_le _ (by unfold maxBytes at hi hshort; omega)]

/-! ### Byte counts -/

theorem encodeUnsignedLeb128Loop_length_pos (out : BitVec 8) (value : BitVec 64) :
    0 < (encodeUnsignedLeb128Loop out value).length := by
  rw [encodeUnsignedLeb128Loop]
  split_ifs <;> simp

theorem encodeSignedLeb128Loop_length_pos {w : Nat} (extraBits : BitVec w) (value : BitVec 64)
    (out : BitVec 8) : 0 < (encodeSignedLeb128Loop extraBits value out).length := by
  rw [encodeSignedLeb128Loop]
  split_ifs <;> simp


/-- The unsigned encoder writes at most `L` bytes exactly when the value left after the first
byte has nothing beyond `7 * (L - 1)` bits. -/
theorem length_encodeUnsignedLeb128Loop_le_iff (out : BitVec 8) (value : BitVec 64) {L : Nat}
    (hL : 1 ≤ L) :
    (encodeUnsignedLeb128Loop out value).length ≤ L ↔ value >>> (7 * (L - 1)) = 0 := by
  obtain ⟨L, rfl⟩ : ∃ L', L = L' + 1 := ⟨L - 1, by omega⟩
  induction L generalizing out value with
  | zero =>
    rw [encodeUnsignedLeb128Loop]
    split_ifs with h
    · have := encodeUnsignedLeb128Loop_length_pos ((value &&& 0x7f).setWidth 8) (value >>> 7)
      simp only [List.length_cons, Nat.zero_add, Nat.sub_self, Nat.mul_zero,
        BitVec.ushiftRight_zero]
      exact iff_of_false (by omega) h
    · simpa using h
  | succ L ih =>
    rw [encodeUnsignedLeb128Loop]
    split_ifs with h
    · rw [List.length_cons, Nat.add_le_add_iff_right, ih _ _ (by omega), ← BitVec.shiftRight_add,
        show 7 + 7 * (L + 1 - 1) = 7 * (L + 1 + 1 - 1) by omega]
    · simp [not_not.mp h]

/-- The signed encoder writes at most `L` bytes exactly when `extra_bits` has nothing beyond
`7 * (L - 1)` bits. -/
theorem length_encodeSignedLeb128Loop_le_iff {w : Nat} (extraBits : BitVec w) (value : BitVec 64)
    (out : BitVec 8) {L : Nat} (hL : 1 ≤ L) :
    (encodeSignedLeb128Loop extraBits value out).length ≤ L ↔
      extraBits >>> (7 * (L - 1)) = 0 := by
  obtain ⟨L, rfl⟩ : ∃ L', L = L' + 1 := ⟨L - 1, by omega⟩
  induction L generalizing extraBits value out with
  | zero =>
    rw [encodeSignedLeb128Loop]
    split_ifs with h
    · have := encodeSignedLeb128Loop_length_pos (extraBits >>> 7) (value.sshiftRight 7)
        ((value.sshiftRight 7 &&& 0x7f).setWidth 8)
      simp only [List.length_cons, Nat.zero_add, Nat.sub_self, Nat.mul_zero,
        BitVec.ushiftRight_zero]
      exact iff_of_false (by omega) h
    · simpa using h
  | succ L ih =>
    rw [encodeSignedLeb128Loop]
    split_ifs with h
    · rw [List.length_cons, Nat.add_le_add_iff_right, ih _ _ _ (by omega),
        ← BitVec.shiftRight_add, show 7 + 7 * (L + 1 - 1) = 7 * (L + 1 + 1 - 1) by omega]
    · simp [not_not.mp h]

theorem or_one_ushiftRight {w k : Nat} (x : BitVec w) (hk : 1 ≤ k) : (x ||| 1) >>> k = x >>> k := by
  apply BitVec.eq_of_getLsbD_eq
  intro j _
  simp [show k ≠ 0 by omega]

theorem or_one_ne_zero {w : Nat} (hw : 0 < w) (x : BitVec w) : x ||| 1 ≠ 0 := by
  intro h
  have h0 := congrArg (fun y => y.getLsbD 0) h
  simp [hw] at h0

/-- `64 - CLZ(x)` is the number of bits of a non-zero `x`. -/
theorem ushiftRight_eq_zero_iff_sub_clz_le {x : BitVec 64} (hx : x ≠ 0) (k : Nat) :
    x >>> k = 0 ↔ 64 - x.clz.toNat ≤ k := by
  rw [ushiftRight_eq_zero_iff]
  constructor
  · intro h
    have hlo := BitVec.two_pow_sub_clz_le_toNat_of_ne_zero (by decide) hx
    have : 64 - 1 - x.clz.toNat < k :=
      (Nat.pow_lt_pow_iff_right (by decide)).1 (hlo.trans_lt h)
    omega
  · intro h
    exact BitVec.toNat_lt_two_pow_sub_clz.trans_le (Nat.pow_le_pow_right Nat.two_pos h)

theorem clz_or_one_lt (x : BitVec 64) : (x ||| 1).clz.toNat < 64 := by
  have h := (ushiftRight_eq_zero_iff_sub_clz_le (or_one_ne_zero (by decide) x) 0).not.1
    (by simp)
  omega

/-- `EncodeUnsignedLeb128` writes `UnsignedLeb128Size` bytes. -/
theorem length_encodeUnsignedLeb128 (v : BitVec 64) :
    (encodeUnsignedLeb128 v).length = unsignedLeb128Size v := by
  have hc := clz_or_one_lt v
  -- at most `L` bytes exactly when the significant bits fit in `7 * L`
  have hbits : ∀ L, 1 ≤ L →
      ((encodeUnsignedLeb128 v).length ≤ L ↔ 64 - (v ||| 1).clz.toNat ≤ 7 * L) := by
    intro L hL
    rw [encodeUnsignedLeb128, length_encodeUnsignedLeb128Loop_le_iff _ _ hL,
      ← BitVec.shiftRight_add, show 7 + 7 * (L - 1) = 7 * L by omega,
      ← or_one_ushiftRight v (by omega), ushiftRight_eq_zero_iff_sub_clz_le (or_one_ne_zero (by decide) v)]
  have hpos : 0 < (encodeUnsignedLeb128 v).length := encodeUnsignedLeb128Loop_length_pos _ _
  have hle := (hbits _ hpos).1 le_rfl
  have hge := (hbits ((6 + 64 - (v ||| 1).clz.toNat) / 7) (by omega)).2 (by omega)
  unfold unsignedLeb128Size
  simp only [Nat.shiftRight_eq_div_pow]
  omega

/-- `EncodeSignedLeb128` writes `SignedLeb128Size` bytes. -/
theorem length_encodeSignedLeb128 (v : BitVec 64) :
    (encodeSignedLeb128 v).length = signedLeb128Size v := by
  have hc := clz_or_one_lt (v ^^^ v.sshiftRight 63)
  -- at most `L` bytes exactly when the bits that differ from the sign, and the sign, fit in `7 * L`
  have hbits : ∀ L, 1 ≤ L → ((encodeSignedLeb128 v).length ≤ L ↔
      64 - ((v ^^^ v.sshiftRight 63) ||| 1).clz.toNat ≤ 7 * L - 1) := by
    intro L hL
    rw [encodeSignedLeb128, length_encodeSignedLeb128Loop_le_iff _ _ _ hL,
      ← BitVec.shiftRight_add, show 6 + 7 * (L - 1) = 7 * L - 1 by omega,
      ← or_one_ushiftRight _ (by omega),
      ushiftRight_eq_zero_iff_sub_clz_le (or_one_ne_zero (by decide) _)]
  have hpos : 0 < (encodeSignedLeb128 v).length := encodeSignedLeb128Loop_length_pos _ _ _
  have hle := (hbits _ hpos).1 le_rfl
  have hge := (hbits ((1 + 6 + 64 - ((v ^^^ v.sshiftRight 63) ||| 1).clz.toNat) / 7)
    (by omega)).2 (by omega)
  unfold signedLeb128Size
  simp only [Nat.shiftRight_eq_div_pow]
  omega

/-! ### The two signed encoders -/

/-- Two `extra_bits` of equal value drive the signed loop alike, whatever their widths. -/
theorem encodeSignedLeb128Loop_congr {w w' : Nat} (extraBits : BitVec w) (value : BitVec 64)
    (out : BitVec 8) :
    ∀ extraBits' : BitVec w', extraBits.toNat = extraBits'.toNat →
      encodeSignedLeb128Loop extraBits value out = encodeSignedLeb128Loop extraBits' value out := by
  induction extraBits, value, out using encodeSignedLeb128Loop.induct with
  | case1 extraBits value out hne value' ih =>
    intro extraBits' h
    have hne' : extraBits' ≠ 0 := fun h0 => hne (BitVec.eq_of_toNat_eq (by rw [h, h0]; rfl))
    dsimp only [value'] at ih
    rw [encodeSignedLeb128Loop.eq_1 extraBits, encodeSignedLeb128Loop.eq_1 extraBits', if_pos hne,
      if_pos hne']
    dsimp only
    rw [ih (extraBits' >>> 7) (by rw [BitVec.toNat_ushiftRight, BitVec.toNat_ushiftRight, h])]
  | case2 extraBits value out hz =>
    intro extraBits' h
    have hz' : extraBits' = 0 := BitVec.eq_of_toNat_eq (by rw [← h, not_not.mp hz]; rfl)
    rw [encodeSignedLeb128Loop.eq_1 extraBits, encodeSignedLeb128Loop.eq_1 extraBits', if_neg hz,
      hz']
    simp

/-- For an `int32_t` value, `value ^ (value >> 31)` has nothing above bit 31 and is
`value ^ (value >> 63)`. -/
theorem setWidth_xor_sshiftRight_31 (x : BitVec 32) :
    (((x.signExtend 64) ^^^ (x.signExtend 64).sshiftRight 31).setWidth 32).setWidth 64 =
      (x.signExtend 64) ^^^ (x.signExtend 64).sshiftRight 63 := by
  apply BitVec.eq_of_getLsbD_eq
  intro j hj
  simp only [BitVec.getLsbD_setWidth, BitVec.getLsbD_xor, BitVec.getLsbD_sshiftRight,
    BitVec.getLsbD_signExtend, BitVec.msb_eq_getLsbD_last]
  by_cases h0 : j = 0
  · subst h0
    simp
  · by_cases h32 : j < 32
    · simp [h32, hj, show ¬31 + j < 32 by omega, show 31 + j < 64 by omega,
        show ¬63 + j < 64 by omega]
    · simp [h32, hj, show ¬31 + j < 32 by omega, show ¬63 + j < 64 by omega]

/-- For an `int32_t` value, both overloads of `EncodeSignedLeb128` write the same bytes. -/
theorem encodeSignedLeb128Vector_signExtend (x : BitVec 32) :
    encodeSignedLeb128Vector (x.signExtend 64) = encodeSignedLeb128 (x.signExtend 64) := by
  apply encodeSignedLeb128Loop_congr
  have h := congrArg BitVec.toNat (setWidth_xor_sshiftRight_31 x)
  rw [BitVec.toNat_setWidth, Nat.mod_eq_of_lt (by
    have := ((x.signExtend 64 ^^^ (x.signExtend 64).sshiftRight 31).setWidth 32).isLt
    omega)] at h
  rw [BitVec.toNat_ushiftRight, BitVec.toNat_ushiftRight, h]

/-! ### Round trips of whole encodings -/

/-- A value sign extended from `N` bits is its sign from bit `N - 1` on. -/
theorem xor_sshiftRight_ushiftRight_signExtend {N : Nat} (hN : 0 < N) (hN64 : N ≤ 64)
    (x : BitVec N) :
    ((x.signExtend 64) ^^^ (x.signExtend 64).sshiftRight 63) >>> (N - 1) = 0 := by
  -- from bit `N - 1` on, the value and its sign word are both `x.msb`
  have hv : ∀ k, N - 1 ≤ k → k < 64 → (x.signExtend 64).getLsbD k = x.msb := by
    intro k hk hk64
    rw [BitVec.getLsbD_signExtend, BitVec.msb_eq_getLsbD_last]
    simp only [hk64, decide_true, Bool.true_and]
    split_ifs with hkN
    · rw [show k = N - 1 by omega]
    · rfl
  have hs : ∀ k < 64, ((x.signExtend 64).sshiftRight 63).getLsbD k = x.msb := by
    intro k hk
    rw [BitVec.getLsbD_sshiftRight]
    simp only [show ¬64 ≤ k by omega, decide_false, Bool.not_false, Bool.true_and]
    split_ifs with h
    · exact hv _ (by omega) h
    · rw [BitVec.msb_eq_getLsbD_last]
      exact hv 63 (by omega) (by omega)
  apply BitVec.eq_of_getLsbD_eq
  intro j _
  rw [BitVec.getLsbD_ushiftRight, BitVec.getLsbD_xor]
  by_cases h : N - 1 + j < 64
  · rw [hv _ (by omega) h, hs _ h, Bool.xor_self]
    simp
  · simp [BitVec.getLsbD_of_ge _ _ (show 64 ≤ N - 1 + j by omega)]

theorem setWidth_signExtend_64 {N : Nat} (hN64 : N ≤ 64) (x : BitVec N) :
    (x.signExtend 64).setWidth N = x := by
  apply BitVec.eq_of_getLsbD_eq
  intro j hj
  simp only [BitVec.getLsbD_setWidth, BitVec.getLsbD_signExtend, hj, decide_true, Bool.true_and]
  simp [show j < 64 by omega]

/-- `DecodeLeb128Helper` on an unsigned encoding of `v < 2 ^ N`, with any `end` at or past
its end. -/
theorem decodeLeb128Helper_encodeUnsignedLeb128 {N : Nat} (hN : 7 ≤ N) {v : BitVec 64}
    (hv : v.toNat < 2 ^ N) (rest : List (BitVec 8)) {endAt : Option Nat}
    (hend : ∀ e ∈ endAt, (encodeUnsignedLeb128 v).length ≤ e) :
    decodeLeb128Helper N false (encodeUnsignedLeb128 v ++ rest) endAt =
      some (v.setWidth N, (encodeUnsignedLeb128 v).length) := by
  have h0 : (0 : BitVec N) = (v.setWidth (7 * 0)).setWidth N := by
    apply BitVec.eq_of_getLsbD_eq
    simp
  have h := decodeLeb128Loop_encodeUnsignedLeb128Loop hN hv endAt rest
    ((v &&& 0x7f).setWidth 8) (v >>> 7) 0 (by simp) (by simp) (by unfold maxBytes; omega)
    (fun e he => by rw [Nat.zero_add]; exact hend e he)
  rw [Nat.zero_add, ← h0] at h
  exact h

/-- `DecodeLeb128Helper` on a signed encoding of `v`, whose bits from `N - 1` on are its sign,
with any `end` at or past its end. -/
theorem decodeLeb128Helper_encodeSignedLeb128 {N : Nat} (hN : 7 ≤ N) (hN64 : N ≤ 64)
    {v : BitVec 64} (hv : (v ^^^ v.sshiftRight 63) >>> (N - 1) = 0) (rest : List (BitVec 8))
    {endAt : Option Nat} (hend : ∀ e ∈ endAt, (encodeSignedLeb128 v).length ≤ e) :
    decodeLeb128Helper N true (encodeSignedLeb128 v ++ rest) endAt =
      some (v.setWidth N, (encodeSignedLeb128 v).length) := by
  have h0 : (0 : BitVec N) = (v.setWidth (7 * 0)).setWidth N := by
    apply BitVec.eq_of_getLsbD_eq
    simp
  have h := decodeLeb128Loop_encodeSignedLeb128Loop hN hN64 hv endAt rest
    ((v ^^^ v.sshiftRight 63) >>> 6) v ((v &&& 0x7f).setWidth 8) 0 rfl (by simp) rfl
    (by unfold maxBytes; omega) (fun e he => by rw [Nat.zero_add]; exact hend e he)
  rw [Nat.zero_add, ← h0] at h
  exact h

/-- An `N`-bit unsigned value, widened to `uint64_t` and encoded, decodes to itself. -/
theorem decodeLeb128Helper_encodeUnsignedLeb128_setWidth {N : Nat} (hN : 7 ≤ N) (hN64 : N ≤ 64)
    (x : BitVec N) (rest : List (BitVec 8)) {endAt : Option Nat}
    (hend : ∀ e ∈ endAt, (encodeUnsignedLeb128 (x.setWidth 64)).length ≤ e) :
    decodeLeb128Helper N false (encodeUnsignedLeb128 (x.setWidth 64) ++ rest) endAt =
      some (x, (encodeUnsignedLeb128 (x.setWidth 64)).length) := by
  have hx : (x.setWidth 64).toNat < 2 ^ N := by
    rw [BitVec.toNat_setWidth]
    exact (Nat.mod_le _ _).trans_lt x.isLt
  rw [decodeLeb128Helper_encodeUnsignedLeb128 hN hx rest hend,
    BitVec.setWidth_setWidth_of_le _ hN64, BitVec.setWidth_eq]

/-- An `N`-bit signed value, widened to `int64_t` and encoded, decodes to itself. -/
theorem decodeLeb128Helper_encodeSignedLeb128_signExtend {N : Nat} (hN : 7 ≤ N) (hN64 : N ≤ 64)
    (x : BitVec N) (rest : List (BitVec 8)) {endAt : Option Nat}
    (hend : ∀ e ∈ endAt, (encodeSignedLeb128 (x.signExtend 64)).length ≤ e) :
    decodeLeb128Helper N true (encodeSignedLeb128 (x.signExtend 64) ++ rest) endAt =
      some (x, (encodeSignedLeb128 (x.signExtend 64)).length) := by
  rw [decodeLeb128Helper_encodeSignedLeb128 hN hN64
      (xor_sshiftRight_ushiftRight_signExtend (by omega) hN64 x) rest hend,
    setWidth_signExtend_64 hN64]

theorem decodeLeb128Helper_encodeUnsignedLeb128_64 (v : BitVec 64) (rest : List (BitVec 8))
    {endAt : Option Nat} (hend : ∀ e ∈ endAt, (encodeUnsignedLeb128 v).length ≤ e) :
    decodeLeb128Helper 64 false (encodeUnsignedLeb128 v ++ rest) endAt =
      some (v, (encodeUnsignedLeb128 v).length) := by
  rw [decodeLeb128Helper_encodeUnsignedLeb128 (by decide) v.isLt rest hend, BitVec.setWidth_eq]

theorem decodeLeb128Helper_encodeSignedLeb128_64 (v : BitVec 64) (rest : List (BitVec 8))
    {endAt : Option Nat} (hend : ∀ e ∈ endAt, (encodeSignedLeb128 v).length ≤ e) :
    decodeLeb128Helper 64 true (encodeSignedLeb128 v ++ rest) endAt =
      some (v, (encodeSignedLeb128 v).length) := by
  have hv := xor_sshiftRight_ushiftRight_signExtend (N := 64) (by decide) le_rfl v
  rw [BitVec.signExtend_eq] at hv
  rw [decodeLeb128Helper_encodeSignedLeb128 (by decide) le_rfl hv rest hend, BitVec.setWidth_eq]

/-! ### The decoded types -/

/-- The `T` of `DecodeUnsignedLeb128<T>` and `DecodeSignedLeb128<T>`. -/
inductive Leb128Type
  | uint32
  | uint64
  | int32
  | int64
  deriving DecidableEq, Repr

namespace Leb128Type

def numBits : Leb128Type → Nat
  | uint32 => 32
  | uint64 => 64
  | int32 => 32
  | int64 => 64

def isSigned : Leb128Type → Bool
  | uint32 => false
  | uint64 => false
  | int32 => true
  | int64 => true

/-- The bytes a caller writes for a value of the type: the value converted to the `uint64_t` of
`EncodeUnsignedLeb128` or the `int64_t` of `EncodeSignedLeb128`. -/
def encode : (t : Leb128Type) → BitVec t.numBits → List (BitVec 8)
  | uint32, v => encodeUnsignedLeb128 (v.setWidth 64)
  | uint64, v => encodeUnsignedLeb128 v
  | int32, v => encodeSignedLeb128 (v.signExtend 64)
  | int64, v => encodeSignedLeb128 v

/-- `DecodeUnsignedLeb128<T>` or `DecodeSignedLeb128<T>`. -/
def decode (t : Leb128Type) (data : List (BitVec 8)) : Option (BitVec t.numBits × Nat) :=
  decodeLeb128Helper t.numBits t.isSigned data none

/-- Every type's decoder reads back what was written for it, with any `end` at or past the
encoding's end, and moves past exactly the encoding. -/
theorem decodeLeb128Helper_encode (t : Leb128Type) (v : BitVec t.numBits)
    (rest : List (BitVec 8)) {endAt : Option Nat} (hend : ∀ e ∈ endAt, (t.encode v).length ≤ e) :
    decodeLeb128Helper t.numBits t.isSigned (t.encode v ++ rest) endAt =
      some (v, (t.encode v).length) := by
  cases t with
  | uint32 =>
    exact decodeLeb128Helper_encodeUnsignedLeb128_setWidth (N := 32) (by decide) (by decide) v
      rest hend
  | uint64 => exact decodeLeb128Helper_encodeUnsignedLeb128_64 v rest hend
  | int32 =>
    exact decodeLeb128Helper_encodeSignedLeb128_signExtend (N := 32) (by decide) (by decide) v
      rest hend
  | int64 => exact decodeLeb128Helper_encodeSignedLeb128_64 v rest hend

end Leb128Type

/-- The LEB128 contract: for `uint32_t` and `uint64_t` values `EncodeUnsignedLeb128` writes
`UnsignedLeb128Size` bytes, and for `int64_t` values `EncodeSignedLeb128` writes
`SignedLeb128Size` bytes; the decoder of the value's type, unchecked or checked with any `end` at
or past the encoding's end, reads the value back from the encoding followed by anything and moves
past exactly the encoding; for `int32_t` values this holds of both overloads of
`EncodeSignedLeb128`; and any concatenation of encodings reads back as the list of values. -/
theorem leb128_roundTrip :
    (∀ v : BitVec 32,
      let bytes := encodeUnsignedLeb128 (v.setWidth 64)
      bytes.length = unsignedLeb128Size (v.setWidth 64) ∧
        ∀ rest, decodeUnsignedLeb128 32 (bytes ++ rest) = some (v, bytes.length) ∧
          ∀ e, bytes.length ≤ e →
            decodeUnsignedLeb128Checked 32 (bytes ++ rest) e = some (v, bytes.length)) ∧
    (∀ v : BitVec 64,
      let bytes := encodeUnsignedLeb128 v
      bytes.length = unsignedLeb128Size v ∧
        ∀ rest, decodeUnsignedLeb128 64 (bytes ++ rest) = some (v, bytes.length) ∧
          ∀ e, bytes.length ≤ e →
            decodeUnsignedLeb128Checked 64 (bytes ++ rest) e = some (v, bytes.length)) ∧
    (∀ v : BitVec 64,
      let bytes := encodeSignedLeb128 v
      bytes.length = signedLeb128Size v ∧
        ∀ rest, decodeSignedLeb128 64 (bytes ++ rest) = some (v, bytes.length) ∧
          ∀ e, bytes.length ≤ e →
            decodeSignedLeb128Checked 64 (bytes ++ rest) e = some (v, bytes.length)) ∧
    (∀ v : BitVec 32,
      ∀ bytes ∈ [encodeSignedLeb128 (v.signExtend 64), encodeSignedLeb128Vector (v.signExtend 64)],
        ∀ rest, decodeSignedLeb128 32 (bytes ++ rest) = some (v, bytes.length) ∧
          ∀ e, bytes.length ≤ e →
            decodeSignedLeb128Checked 32 (bytes ++ rest) e = some (v, bytes.length)) ∧
    (∀ (fields : List (Σ t : Leb128Type, BitVec t.numBits)) (rest : List (BitVec 8)),
      Cursor.readFields Leb128Type.decode (fields.map Sigma.fst)
        (fields.flatMap (fun f => f.1.encode f.2) ++ rest) = some fields) := by
  refine ⟨fun v => ?_, fun v => ?_, fun v => ?_, fun v => ?_, fun fields rest => ?_⟩
  · exact ⟨length_encodeUnsignedLeb128 _, fun rest =>
      ⟨decodeLeb128Helper_encodeUnsignedLeb128_setWidth (by decide) (by decide) v rest (by simp),
        fun e he => decodeLeb128Helper_encodeUnsignedLeb128_setWidth (by decide) (by decide) v rest
          (by simpa using he)⟩⟩
  · exact ⟨length_encodeUnsignedLeb128 v, fun rest =>
      ⟨decodeLeb128Helper_encodeUnsignedLeb128_64 v rest (by simp),
        fun e he => decodeLeb128Helper_encodeUnsignedLeb128_64 v rest (by simpa using he)⟩⟩
  · exact ⟨length_encodeSignedLeb128 v, fun rest =>
      ⟨decodeLeb128Helper_encodeSignedLeb128_64 v rest (by simp),
        fun e he => decodeLeb128Helper_encodeSignedLeb128_64 v rest (by simpa using he)⟩⟩
  · -- the vector overload writes the same bytes as the pointer one
    intro bytes hbytes rest
    have hbytes' : bytes = encodeSignedLeb128 (v.signExtend 64) := by
      simp only [List.mem_cons, List.not_mem_nil, or_false] at hbytes
      rcases hbytes with rfl | rfl
      · rfl
      · exact encodeSignedLeb128Vector_signExtend v
    subst hbytes'
    exact ⟨decodeLeb128Helper_encodeSignedLeb128_signExtend (by decide) (by decide) v rest (by simp),
      fun e he => decodeLeb128Helper_encodeSignedLeb128_signExtend (by decide) (by decide) v rest
        (by simpa using he)⟩
  · exact Cursor.readFields_flatMap (fun t v => t.encode v)
      (fun t v rest => @Leb128Type.decodeLeb128Helper_encode t v rest none (by simp)) fields rest

end Art
