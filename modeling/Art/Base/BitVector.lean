import Art.Lib.BitScan
import Art.Lib.WordLoop
import Mathlib.Data.Finset.Max

/-!
# BitVector

`libartbase/base/bit_vector.{h,cc}`. A `BitVector` is `storage_size_` 32-bit words; bit `idx` is
bit `idx & 0x1f` of word `idx >> 5`. `SetBit` grows an expandable vector to `BitsToWords(idx + 1)`
words, and the binary operations handle operands of different sizes: `Intersect` and `Subtract`
work on the words both have, `Union` and `UnionIfNotIn` grow the vector to the highest set bit of
their operand, and `Copy` copies the words up to the highest set bit of its source.

The sizes and bit numbers are `uint32_t`, and `GetHighestBitSet` returns an `int`: the model
computes in `ℕ` with the wrap-around of the source where it can happen, in `BitsToWords`, in
`storage_size_ * kWordBits` and in the `int` of `GetHighestBitSet`. The allocator and
`expandable_` are not modelled: only `DCHECK`s read `expandable_`.

The abstraction is the set of bits `IsBitSet` reports (`elems`). With at most `2 ^ 26` words
(`Fits`) and bit numbers below `2 ^ 31`, so that no bit number wraps, every operation acts on it as
the corresponding operation on sets, and every query answers for it (`BitVectorSet`). Past that,
`BitsToWords(idx + 1)` wraps to zero words for `idx ≥ 2 ^ 32 - 32`, and `SetBit` writes past the
storage and leaves the bit clear (`setBit_of_wrap`).
-/

namespace Art

open WordLoop BitScan BitStream

/-- `BitVector`: the words of `storage_`, `storage_size_` of them. -/
structure BitVector where
  storage : List (BitVec 32)
  deriving DecidableEq, Repr

namespace BitVector

/-- `kWordBits`. -/
def kWordBits : Nat := 32

/-- `BitsToWords`: `RoundUp(bits, kWordBits) / kWordBits`, rounded up in `uint32_t`. -/
def bitsToWords (bits : Nat) : Nat := (bits + kWordBits - 1) % 2 ^ 32 / kWordBits

/-- `WordIndex`. -/
def wordIndex (idx : Nat) : Nat := idx >>> 5

/-- `BitMask`. -/
def bitMask (idx : Nat) : BitVec 32 := 1#32 <<< (idx &&& 0x1f)

/-- `static_cast<uint32_t>` of an `int`. -/
def toUInt32 (x : Int) : Nat := (x % 2 ^ 32).toNat

variable (v : BitVector)

/-- `storage_size_ * kWordBits`, in `uint32_t`. -/
def bitSize : Nat := v.storage.length * kWordBits % 2 ^ 32

/-- `storage_[idx]`. The model reads zero past the storage, where the source reads only when a
`DCHECK` fails. -/
def word (idx : Nat) : BitVec 32 := v.storage.getD idx 0

/-- `IsBitSet(idx)`. -/
def isBitSet (idx : Nat) : Bool :=
  decide (idx < v.bitSize) && (v.word (wordIndex idx) &&& bitMask idx != 0)

/-- `EnsureSize(idx)`: past the storage, the storage becomes `BitsToWords(idx + 1)` words, the
old ones first and then zeros. Where that is no more than there are (`idx + 1` wraps), the source
copies the old words past the end of the new storage; the model keeps those that fit. -/
def ensureSize (idx : Nat) : BitVector :=
  if v.bitSize ≤ idx then
    let newSize := bitsToWords ((idx + 1) % 2 ^ 32)
    ⟨(v.storage ++ List.replicate (newSize - v.storage.length) 0).take newSize⟩
  else v

/-- `SetBit(idx)`. A write past the storage is lost. -/
def setBit (idx : Nat) : BitVector :=
  let v := if v.bitSize ≤ idx then v.ensureSize idx else v
  ⟨v.storage.set (wordIndex idx) (v.word (wordIndex idx) ||| bitMask idx)⟩

/-- `ClearBit(idx)`. -/
def clearBit (idx : Nat) : BitVector :=
  if idx < v.bitSize then
    ⟨v.storage.set (wordIndex idx) (v.word (wordIndex idx) &&& ~~~bitMask idx)⟩
  else v

/-- `ClearAllBits`. -/
def clearAllBits : BitVector := ⟨List.replicate v.storage.length 0⟩

/-- The loop of `GetHighestBitSet` from word `idx - 1` down: `31 - CLZ(value) + idx * kWordBits`
is computed in `uint32_t` and returned as an `int`. -/
def getHighestBitSetLoop : Nat → Int
  | 0 => -1
  | idx + 1 =>
    let value := v.word idx
    if value ≠ 0 then (BitVec.ofNat 32 (31 - value.clz.toNat + idx * kWordBits)).toInt
    else getHighestBitSetLoop idx

/-- `GetHighestBitSet`. -/
def getHighestBitSet : Int := v.getHighestBitSetLoop v.storage.length

/-- `SameBitsSet(src)`: the `memcmp` compares the words below `BitsToWords(our_highest)`. -/
def sameBitsSet (src : BitVector) : Bool :=
  let ourHighest := v.getHighestBitSet
  let srcHighest := src.getHighestBitSet
  if ourHighest ≠ srcHighest then false
  else if ourHighest ≤ 0 then true
  else (List.range (bitsToWords (toUInt32 ourHighest))).all fun idx => v.word idx == src.word idx

/-- `IsSubsetOf(other)`. -/
def isSubsetOf (other : BitVector) : Bool :=
  let thisHighest := v.getHighestBitSet
  let otherHighest := other.getHighestBitSet
  if thisHighest < 0 then true
  else if thisHighest > otherHighest then false
  else (List.range (bitsToWords (toUInt32 (thisHighest + 1)))).all fun idx =>
    (v.word idx ||| other.word idx) == other.word idx

/-- `Intersect(src)`: the words both have, then zeros. -/
def intersect (src : BitVector) : BitVector :=
  let minSize := min v.storage.length src.storage.length
  let storage := updateWords (fun idx w => w &&& src.word idx) 0 minSize v.storage
  ⟨updateWords (fun _ _ => 0) minSize v.storage.length storage⟩

/-- `Union(src)`, with whether it changed the vector. -/
def union (src : BitVector) : BitVector × Bool :=
  let highestBit := src.getHighestBitSet
  if highestBit = -1 then (v, false)
  else
    let srcSize := bitsToWords (toUInt32 (highestBit + 1))
    -- growing sets `changed`
    let changed := decide (v.storage.length < srcSize)
    let v := if v.storage.length < srcSize then v.ensureSize (toUInt32 highestBit) else v
    let r := updateWordsChanged (fun idx w => w ||| src.word idx) 0 srcSize (v.storage, changed)
    (⟨r.1⟩, r.2)

/-- `UnionIfNotIn(union_with, not_in)`, with whether it changed the vector. -/
def unionIfNotIn (unionWith notIn : BitVector) : BitVector × Bool :=
  let highestBit := unionWith.getHighestBitSet
  if highestBit = -1 then (v, false)
  else
    let unionWithSize := bitsToWords (toUInt32 (highestBit + 1))
    let v := if v.storage.length < unionWithSize then v.ensureSize (toUInt32 highestBit) else v
    let notInSize := notIn.storage.length
    let r := updateWordsChanged (fun idx w => w ||| (unionWith.word idx &&& ~~~notIn.word idx))
      0 (min notInSize unionWithSize) (v.storage, false)
    let r := updateWordsChanged (fun idx w => w ||| unionWith.word idx)
      (min notInSize unionWithSize) unionWithSize r
    (⟨r.1⟩, r.2)

/-- `Subtract(src)`: the words both have. -/
def subtract (src : BitVector) : BitVector :=
  ⟨updateWords (fun idx w => w &&& ~~~src.word idx) 0 (min v.storage.length src.storage.length)
    v.storage⟩

/-- `NumSetBits()`: the `POPCOUNT`s of the words. The `uint32_t` count cannot wrap below
`2 ^ 27` words. -/
def numSetBits : Nat := ((List.range v.storage.length).map fun idx => (v.word idx).cpop.toNat).sum

/-- `NumSetBits(end)`, that is `NumSetBits(storage_, end)`: the whole words below `end`, then the
bits of the next word below `end`. -/
def numSetBitsBelow (endBit : Nat) : Nat :=
  let wordEnd := wordIndex endBit
  let partialWordBits := endBit &&& 0x1f
  ((List.range wordEnd).map fun idx => (v.word idx).cpop.toNat).sum +
    if partialWordBits ≠ 0 then
      (v.word wordEnd &&& ~~~(0xffffffff#32 <<< partialWordBits)).cpop.toNat
    else 0

/-- `SetInitialBits(num_bits)`. -/
def setInitialBits (numBits : Nat) : BitVector :=
  if numBits = 0 then v.clearAllBits
  else
    let v := v.setBit (numBits - 1)
    let wordEnd := wordIndex numBits
    let storage := updateWords (fun _ _ => BitVec.allOnes 32) 0 wordEnd v.storage
    let remNumBits := numBits &&& 0x1f
    let storage := if remNumBits ≠ 0 then storage.set wordEnd ((1#32 <<< remNumBits) - 1#32)
      else storage
    let idx := if remNumBits ≠ 0 then wordEnd + 1 else wordEnd
    ⟨updateWords (fun _ _ => 0) idx storage.length storage⟩

/-- `Copy(src)`: the words up to the highest set bit of `src`, then zeros. -/
def copy (src : BitVector) : BitVector :=
  let highestBit := src.getHighestBitSet
  if highestBit = -1 then v.clearAllBits
  else
    let v := v.setBit (toUInt32 highestBit)
    let size := 1 + toUInt32 highestBit / kWordBits
    ⟨(List.range size).map src.word ++ List.replicate (v.storage.length - size) 0⟩

/-! ### Bits -/

/-- At most `2 ^ 26` words: no size and no bit number wraps, and every bit number fits an
`int`. -/
def Fits (v : BitVector) : Prop := v.storage.length ≤ 2 ^ 26

instance : DecidablePred Fits := fun v => inferInstanceAs (Decidable (v.storage.length ≤ 2 ^ 26))

/-- The bits `IsBitSet` reports. -/
def elems (v : BitVector) : Finset ℕ := (Finset.range v.bitSize).filter fun i => v.isBitSet i

section Bits

variable {v : BitVector}

theorem mem_elems {i : Nat} : i ∈ v.elems ↔ v.isBitSet i = true := by
  rw [elems, Finset.mem_filter, Finset.mem_range, and_iff_right_iff_imp]
  intro h
  unfold isBitSet at h
  simp only [Bool.and_eq_true, decide_eq_true_eq] at h
  exact h.1

theorem bitSize_of_fits (hv : Fits v) : v.bitSize = 32 * v.storage.length := by
  unfold bitSize kWordBits Fits at *
  rw [Nat.mod_eq_of_lt (by omega), Nat.mul_comm]

theorem wordIndex_eq (idx : Nat) : wordIndex idx = idx / 32 := by
  rw [wordIndex, Nat.shiftRight_eq_div_pow]

theorem getLsbD_bitMask (idx s : Nat) :
    (bitMask idx).getLsbD s = (decide (s < 32) && decide (s = idx % 32)) := by
  have h : idx &&& 0x1f = idx % 32 := Nat.and_two_pow_sub_one_eq_mod idx 5
  rw [bitMask, h, ← BitVec.twoPow_eq, BitVec.getLsbD_twoPow]
  by_cases hs : s = idx % 32
  · simp [hs, Nat.mod_lt idx (by decide : 0 < 32)]
  · simp [hs, Ne.symm hs]

theorem and_bitMask_ne_zero (x : BitVec 32) (idx : Nat) :
    (x &&& bitMask idx != 0) = x.getLsbD (idx % 32) := by
  have h : idx &&& 0x1f = idx % 32 := Nat.and_two_pow_sub_one_eq_mod idx 5
  rw [bitMask, h]
  exact and_shiftLeft_one_ne_zero x (Nat.mod_lt idx (by decide))

/-- Past the storage every bit is clear. -/
theorem bitAt_of_length_le {p : Nat} (hp : 32 * v.storage.length ≤ p) :
    bitAt v.word p = false := by
  rw [bitAt, word, List.getD_eq_default _ _ (by omega)]
  exact BitVec.getLsbD_zero

/-- Within the bound, `IsBitSet` is the bit of the words. -/
theorem isBitSet_eq (hv : Fits v) (i : Nat) : v.isBitSet i = bitAt v.word i := by
  rw [isBitSet, bitSize_of_fits hv, and_bitMask_ne_zero, wordIndex_eq]
  by_cases hi : i < 32 * v.storage.length
  · simp [hi, bitAt]
  · simp [hi, bitAt_of_length_le (Nat.le_of_not_lt hi)]

theorem mem_elems_iff (hv : Fits v) {i : Nat} : i ∈ v.elems ↔ bitAt v.word i = true := by
  rw [mem_elems, isBitSet_eq hv]

/-- Two vectors within the bound with the same bits have the same elements. -/
theorem elems_eq_of_bitAt {v' : BitVector} (hv : Fits v) (hv' : Fits v')
    (h : ∀ p, bitAt v'.word p = bitAt v.word p) : v'.elems = v.elems := by
  ext p
  rw [mem_elems_iff hv, mem_elems_iff hv', h]

theorem word_set (ws : List (BitVec 32)) (i j : Nat) (a : BitVec 32) :
    (BitVector.mk (ws.set i a)).word j = if i = j ∧ j < ws.length then a else ws.getD j 0 :=
  getD_set ws i j a

end Bits

/-! ### Single bits -/

section SingleBits

variable {v : BitVector}

theorem bitsToWords_of_lt {bits : Nat} (h : bits + 31 < 2 ^ 32) :
    bitsToWords bits = (bits + 31) / 32 := by
  rw [bitsToWords, kWordBits, show bits + 32 - 1 = bits + 31 by omega, Nat.mod_eq_of_lt h]

/-- `EnsureSize` within the bound: zero words up to `idx`. -/
theorem ensureSize_eq (hv : Fits v) {idx : Nat} (hidx : idx < 2 ^ 31) :
    v.ensureSize idx = if 32 * v.storage.length ≤ idx then
      ⟨v.storage ++ List.replicate ((idx + 32) / 32 - v.storage.length) 0⟩ else v := by
  rw [ensureSize, bitSize_of_fits hv, Nat.mod_eq_of_lt (by omega : idx + 1 < 2 ^ 32),
    bitsToWords_of_lt (by omega), show idx + 1 + 31 = idx + 32 by omega]
  split_ifs with h
  · dsimp only
    rw [List.take_of_length_le (by simp only [List.length_append, List.length_replicate]; omega)]
  · rfl

theorem word_ensureSize (hv : Fits v) {idx : Nat} (hidx : idx < 2 ^ 31) (j : Nat) :
    (v.ensureSize idx).word j = v.word j := by
  rw [ensureSize_eq hv hidx]
  split_ifs
  · by_cases hj : j < v.storage.length
    · exact List.getD_append _ _ _ _ hj
    · rw [word, word, List.getD_append_right _ _ _ _ (by omega),
        List.getD_eq_default v.storage _ (by omega)]
      by_cases hj' : j - v.storage.length < (idx + 32) / 32 - v.storage.length
      · exact List.getD_replicate _ hj'
      · exact List.getD_eq_default _ _ (by rw [List.length_replicate]; omega)
  · rfl

theorem length_ensureSize (hv : Fits v) {idx : Nat} (hidx : idx < 2 ^ 31) :
    (v.ensureSize idx).storage.length = max v.storage.length ((idx + 32) / 32) := by
  rw [ensureSize_eq hv hidx]
  split_ifs with h
  · simp only [List.length_append, List.length_replicate]
    omega
  · omega

/-- `SetBit` tests the size as `EnsureSize` does. -/
theorem setBit_eq (idx : Nat) :
    v.setBit idx = ⟨(v.ensureSize idx).storage.set (wordIndex idx)
      ((v.ensureSize idx).word (wordIndex idx) ||| bitMask idx)⟩ := by
  rw [setBit]
  split_ifs with h
  · rfl
  · rw [ensureSize, if_neg h]

theorem length_setBit (hv : Fits v) {idx : Nat} (hidx : idx < 2 ^ 31) :
    (v.setBit idx).storage.length = max v.storage.length ((idx + 32) / 32) := by
  rw [setBit_eq, List.length_set, length_ensureSize hv hidx]

theorem fits_setBit (hv : Fits v) {idx : Nat} (hidx : idx < 2 ^ 31) : Fits (v.setBit idx) := by
  unfold Fits at *
  rw [length_setBit hv hidx]
  omega

/-- The bit of a word that `BitMask` or-ed in. -/
theorem getLsbD_or_bitMask (x : BitVec 32) (idx : Nat) {p : Nat} (hp : p < 32) :
    (x ||| bitMask idx).getLsbD p = (x.getLsbD p || decide (p = idx % 32)) := by
  rw [BitVec.getLsbD_or, getLsbD_bitMask]
  simp [hp]

theorem bitAt_setBit (hv : Fits v) {idx : Nat} (hidx : idx < 2 ^ 31) (p : Nat) :
    bitAt (v.setBit idx).word p = (bitAt v.word p || decide (p = idx)) := by
  have hlen := length_ensureSize hv hidx
  rw [bitAt, setBit_eq, word_set, word_ensureSize hv hidx, wordIndex_eq]
  have hp : p % 32 < 32 := Nat.mod_lt p (by decide)
  by_cases hw : idx / 32 = p / 32
  · rw [if_pos ⟨hw, by omega⟩, hw, getLsbD_or_bitMask _ _ hp]
    have heq : (p % 32 = idx % 32) ↔ p = idx := by omega
    simp only [heq, bitAt]
  · rw [if_neg (fun h => hw h.1), ← word, word_ensureSize hv hidx]
    have hne : p ≠ idx := fun h => hw (by rw [h])
    simp [bitAt, hne]

theorem bitAt_clearBit (hv : Fits v) (idx : Nat) (p : Nat) :
    bitAt (v.clearBit idx).word p = (bitAt v.word p && decide (p ≠ idx)) := by
  have hp : p % 32 < 32 := Nat.mod_lt p (by decide)
  rw [clearBit, bitSize_of_fits hv]
  split_ifs with hidx
  · rw [bitAt, word_set, wordIndex_eq]
    by_cases hw : idx / 32 = p / 32
    · rw [if_pos ⟨hw, by omega⟩, hw, BitVec.getLsbD_and, BitVec.getLsbD_not, getLsbD_bitMask]
      have heq : (p % 32 = idx % 32) ↔ p = idx := by omega
      simp [hp, heq, bitAt]
    · rw [if_neg (fun h => hw h.1), ← word]
      have hne : p ≠ idx := fun h => hw (by rw [h])
      simp [bitAt, hne]
  · -- a bit past the storage is clear already
    by_cases hpi : p = idx
    · rw [hpi, bitAt_of_length_le (by omega)]
      simp
    · simp [hpi]

theorem bitAt_clearAllBits (p : Nat) : bitAt v.clearAllBits.word p = false := by
  rw [bitAt, clearAllBits, word]
  by_cases hp : p / 32 < v.storage.length
  · rw [List.getD_replicate _ hp]
    exact BitVec.getLsbD_zero
  · rw [List.getD_eq_default _ _ (by simp; omega)]
    exact BitVec.getLsbD_zero

end SingleBits

/-! ### The highest set bit -/

section Highest

variable {v : BitVector}

theorem toInt_ofNat_of_lt {x : Nat} (h : x < 2 ^ 31) : (BitVec.ofNat 32 x).toInt = x := by
  rw [BitVec.toInt_eq_toNat_of_lt (by rw [BitVec.toNat_ofNat]; omega), BitVec.toNat_ofNat,
    Nat.mod_eq_of_lt (by omega)]

theorem bitAt_of_word_eq_zero {n q : Nat} (h : v.word n = 0) (hq : q / 32 = n) :
    bitAt v.word q = false := by
  rw [bitAt, hq, h]
  exact BitVec.getLsbD_zero

/-- The loop from word `n - 1` down returns the highest set bit below `32 * n`, or `-1` where
there is none. -/
theorem getHighestBitSetLoop_spec (n : Nat) (hn : n ≤ 2 ^ 26) :
    (v.getHighestBitSetLoop n = -1 ∧ ∀ q < 32 * n, bitAt v.word q = false) ∨
      ∃ p : Nat, v.getHighestBitSetLoop n = p ∧ IsHighest (bitAt v.word) 0 (32 * n) p := by
  induction n with
  | zero => exact .inl ⟨rfl, fun q hq => absurd hq (by omega)⟩
  | succ n ih =>
    rw [getHighestBitSetLoop]
    by_cases hz : v.word n = 0
    · -- an empty word: the answer is that of the words below
      have hclear : ∀ q, 32 * n ≤ q → q < 32 * (n + 1) → bitAt v.word q = false :=
        fun q h1 h2 => bitAt_of_word_eq_zero hz (by omega)
      rw [if_neg (not_not.2 hz)]
      rcases ih (by omega) with ⟨h, hall⟩ | ⟨p, h, hp, hlt, hbit, habove⟩
      · refine .inl ⟨h, fun q hq => ?_⟩
        by_cases hqn : q < 32 * n
        · exact hall q hqn
        · exact hclear q (by omega) hq
      · refine .inr ⟨p, h, hp, by omega, hbit, fun q hq hqtop => ?_⟩
        by_cases hqn : q < 32 * n
        · exact habove q hq hqn
        · exact hclear q (by omega) hqtop
    · -- the highest bit of the top non-empty word
      have hh : highestBit (v.word n) < 32 := highestBit_lt (by decide)
      rw [if_pos hz, show 31 - (v.word n).clz.toNat = highestBit (v.word n) from rfl, kWordBits,
        toInt_ofNat_of_lt (by omega)]
      refine .inr ⟨32 * n + highestBit (v.word n), by push_cast; ring, ?_⟩
      exact (holdsRange_word v.word n).isHighest (by decide) (hz ∘ (· ▸ rfl)) le_rfl
        (Nat.zero_le _) (by omega) (fun q h1 h2 => absurd h2 (by omega))

/-- `GetHighestBitSet` within the bound: the highest set bit, or `-1` where there is none. -/
theorem getHighestBitSet_spec (hv : Fits v) :
    (v.getHighestBitSet = -1 ∧ ∀ q, bitAt v.word q = false) ∨
      ∃ p : Nat, v.getHighestBitSet = p ∧ bitAt v.word p = true ∧
        ∀ q, p < q → bitAt v.word q = false := by
  rcases getHighestBitSetLoop_spec (v := v) v.storage.length hv with ⟨h, hall⟩ |
      ⟨p, h, -, hlt, hbit, habove⟩
  · refine .inl ⟨h, fun q => ?_⟩
    by_cases hq : q < 32 * v.storage.length
    · exact hall q hq
    · exact bitAt_of_length_le (by omega)
  · refine .inr ⟨p, h, hbit, fun q hq => ?_⟩
    by_cases hq' : q < 32 * v.storage.length
    · exact habove q hq hq'
    · exact bitAt_of_length_le (by omega)

end Highest

/-! ### Word by word -/

section Words

variable {v : BitVector}

theorem word_of_length_le {j : Nat} (hj : v.storage.length ≤ j) : v.word j = 0 :=
  List.getD_eq_default _ _ hj

theorem word_eq_zero_of_bitAt {j : Nat} (h : ∀ s < 32, bitAt v.word (32 * j + s) = false) :
    v.word j = 0 := by
  apply BitVec.eq_of_getLsbD_eq
  intro s hs
  rw [← bitAt_mul_add v.word j hs, h s hs]
  simp

/-- The words above the highest set bit are zero. -/
theorem word_eq_zero_of_lt {p j : Nat} (habove : ∀ q, p < q → bitAt v.word q = false)
    (hj : p < 32 * j) : v.word j = 0 :=
  word_eq_zero_of_bitAt fun s _ => habove _ (by omega)

/-- No bit set: every word is zero. -/
theorem word_eq_zero_of_forall (hall : ∀ q, bitAt v.word q = false) (j : Nat) : v.word j = 0 :=
  word_eq_zero_of_bitAt fun _ _ => hall _

theorem word_intersect (src : BitVector) (j : Nat) :
    (v.intersect src).word j = v.word j &&& src.word j := by
  rw [intersect, word, getD_updateWords, length_updateWords, getD_updateWords]
  by_cases hv : j < v.storage.length
  · by_cases hs : j < src.storage.length
    · rw [if_neg (by omega), if_pos (by omega)]
      rfl
    · rw [if_pos (by omega), word_of_length_le (v := src) (by omega)]
      simp
  · rw [if_neg (by omega), if_neg (by omega), ← word, word_of_length_le (by omega)]
    simp

theorem word_subtract (src : BitVector) (j : Nat) :
    (v.subtract src).word j = v.word j &&& ~~~src.word j := by
  rw [subtract, word, getD_updateWords]
  by_cases hj : j < min v.storage.length src.storage.length
  · rw [if_pos ⟨Nat.zero_le _, hj, by omega⟩]
    rfl
  · rw [if_neg (by omega), ← word]
    by_cases hs : j < src.storage.length
    · rw [word_of_length_le (v := v) (by omega)]
      simp
    · rw [word_of_length_le (v := src) (by omega),
        show ~~~(0 : BitVec 32) = BitVec.allOnes 32 by decide, BitVec.and_allOnes]

theorem length_subtract (src : BitVector) :
    (v.subtract src).storage.length = v.storage.length := by
  rw [subtract, length_updateWords]

theorem length_intersect (src : BitVector) :
    (v.intersect src).storage.length = v.storage.length := by
  rw [intersect, length_updateWords, length_updateWords]

end Words

/-! ### Union -/

section Union

variable {v : BitVector}

theorem toUInt32_of_nonneg {x : Nat} (h : x < 2 ^ 32) : toUInt32 (x : Int) = x := by
  rw [toUInt32, Int.emod_eq_of_lt (by omega) (by omega), Int.toNat_natCast]

/-- A set bit lies within the storage. -/
theorem lt_of_bitAt {p : Nat} (h : bitAt v.word p = true) : p < 32 * v.storage.length := by
  by_contra hp
  rw [bitAt_of_length_le (by omega)] at h
  exact Bool.false_ne_true h

/-- Growing to the words of bit `p` when there are fewer: the words stay, and there are
enough. -/
theorem grow_spec (hv : Fits v) {p : Nat} (hp : p < 2 ^ 31) :
    let v' := if v.storage.length < (p + 32) / 32 then v.ensureSize p else v
    (∀ j, v'.word j = v.word j) ∧ (p + 32) / 32 ≤ v'.storage.length ∧ Fits v' := by
  intro v'
  by_cases hg : v.storage.length < (p + 32) / 32
  · have hlen := length_ensureSize hv hp
    have e : v' = v.ensureSize p := if_pos hg
    rw [e]
    refine ⟨word_ensureSize hv hp, by omega, ?_⟩
    unfold Fits at *
    omega
  · have e : v' = v := if_neg hg
    rw [e]
    exact ⟨fun _ => rfl, by omega, hv⟩

/-- An or-update of the words `[lo, hi)` changes one exactly where it brings in a bit. -/
theorem changesWord_or_iff_bitAt (g : Nat → BitVec 32) (lo hi : Nat) (ws : List (BitVec 32)) :
    changesWord (fun idx x => x ||| g idx) lo hi ws = true ↔
      ∃ q, lo ≤ q / 32 ∧ q / 32 < hi ∧ bitAt g q = true ∧
        bitAt (fun j => ws.getD j 0) q = false := by
  rw [changesWord_or_iff]
  constructor
  · rintro ⟨idx, s, hlo, hhi, hg, hx⟩
    have hs : s < 32 := BitVec.lt_of_getLsbD hg
    refine ⟨32 * idx + s, by omega, by omega, ?_, ?_⟩
    · rw [bitAt_mul_add _ _ hs]
      exact hg
    · rw [bitAt_mul_add (fun j => ws.getD j 0) _ hs]
      exact hx
  · rintro ⟨q, hlo, hhi, hg, hx⟩
    exact ⟨q / 32, q % 32, hlo, hhi, hg, hx⟩

/-- `Union` within the bound: the words are or-ed, and it reports a change exactly when `src`
has a bit that the vector lacks. -/
theorem union_spec (hv : Fits v) {src : BitVector} (hs : Fits src) :
    (∀ j, (v.union src).1.word j = v.word j ||| src.word j) ∧ Fits (v.union src).1 ∧
      ((v.union src).2 = true ↔ ∃ p, bitAt src.word p = true ∧ bitAt v.word p = false) := by
  rcases getHighestBitSet_spec hs with ⟨hneg, hall⟩ | ⟨p, hp, hbit, habove⟩
  · -- `src` is empty: nothing changes
    rw [union, if_pos hneg]
    refine ⟨fun j => ?_, hv, ?_⟩
    · rw [word_eq_zero_of_forall hall j]
      simp
    · simp [hall]
  · have hlt := lt_of_bitAt hbit
    have hp31 : p < 2 ^ 31 := by unfold Fits at hs; omega
    rw [union, if_neg (by rw [hp]; omega)]
    simp only
    rw [hp, show (p : Int) + 1 = ((p + 1 : Nat) : Int) by push_cast; rfl, toUInt32_of_nonneg (by omega),
      toUInt32_of_nonneg (by omega), bitsToWords_of_lt (by omega),
      show p + 1 + 31 = p + 32 by omega]
    obtain ⟨hword, hlen, hfits⟩ := grow_spec hv hp31
    rw [updateWordsChanged_eq _ _ _ _ _ hlen]
    -- above the words of `p`, `src` has no bit
    have hzero : ∀ j, (p + 32) / 32 ≤ j → src.word j = 0 :=
      fun j hj => word_eq_zero_of_lt habove (by omega)
    refine ⟨fun j => ?_, ?_, ?_⟩
    · rw [word, getD_updateWords, ← word, hword]
      by_cases hj : j < (p + 32) / 32
      · rw [if_pos ⟨Nat.zero_le _, hj, by omega⟩]
      · rw [if_neg (by omega), hzero j (by omega)]
        simp
    · unfold Fits at *
      rw [length_updateWords]
      exact hfits
    · rw [Bool.or_eq_true, decide_eq_true_iff, changesWord_or_iff]
      constructor
      · rintro (hg | ⟨idx, s, -, hidx, hsrc, hvs⟩)
        · exact ⟨p, hbit, bitAt_of_length_le (by omega)⟩
        · have hs32 : s < 32 := BitVec.lt_of_getLsbD hsrc
          rw [← word, hword] at hvs
          refine ⟨32 * idx + s, ?_, ?_⟩
          · rw [bitAt_mul_add _ _ hs32]
            exact hsrc
          · rw [bitAt_mul_add _ _ hs32]
            exact hvs
      · rintro ⟨q, hq, hvq⟩
        by_cases hg : v.storage.length < (p + 32) / 32
        · exact .inl hg
        · have hqp : q ≤ p := by
            by_contra h
            rw [habove q (by omega)] at hq
            exact Bool.false_ne_true hq
          refine .inr ⟨q / 32, q % 32, Nat.zero_le _, by omega, hq, ?_⟩
          rw [← word, hword]
          exact hvq
/-- `UnionIfNotIn` within the bound: the bits of `unionWith` not in `notIn` are or-ed in, and it
reports a change exactly when one of them is new. -/
theorem unionIfNotIn_spec (hv : Fits v) {unionWith notIn : BitVector} (ha : Fits unionWith) :
    (∀ j, (v.unionIfNotIn unionWith notIn).1.word j =
        v.word j ||| (unionWith.word j &&& ~~~notIn.word j)) ∧
      Fits (v.unionIfNotIn unionWith notIn).1 ∧
      ((v.unionIfNotIn unionWith notIn).2 = true ↔
        ∃ p, bitAt unionWith.word p = true ∧ bitAt notIn.word p = false ∧
          bitAt v.word p = false) := by
  rcases getHighestBitSet_spec ha with ⟨hneg, hall⟩ | ⟨p, hp, hbit, habove⟩
  · rw [unionIfNotIn, if_pos hneg]
    refine ⟨fun j => ?_, hv, ?_⟩
    · rw [word_eq_zero_of_forall hall j]
      simp
    · simp [hall]
  · have hlt := lt_of_bitAt hbit
    have hp31 : p < 2 ^ 31 := by unfold Fits at ha; omega
    rw [unionIfNotIn, if_neg (by rw [hp]; omega)]
    simp only
    rw [hp, show (p : Int) + 1 = ((p + 1 : Nat) : Int) by push_cast; rfl, toUInt32_of_nonneg (by omega),
      toUInt32_of_nonneg (by omega), bitsToWords_of_lt (by omega),
      show p + 1 + 31 = p + 32 by omega]
    obtain ⟨hword, hlen, hfits⟩ := grow_spec hv hp31
    set v' := if v.storage.length < (p + 32) / 32 then v.ensureSize p else v
    set m := min notIn.storage.length ((p + 32) / 32) with hm_def
    have hm : m ≤ (p + 32) / 32 := min_le_right _ _
    rw [updateWordsChanged_eq _ 0 m v'.storage false (by omega),
      updateWordsChanged_eq _ _ _ _ _ (by rw [length_updateWords]; omega)]
    have hzero : ∀ j, (p + 32) / 32 ≤ j → unionWith.word j = 0 :=
      fun j hj => word_eq_zero_of_lt habove (by omega)
    -- past `notIn`'s words, its bits are clear
    have hnot : ∀ j, m ≤ j → j < (p + 32) / 32 → notIn.word j = 0 :=
      fun j h1 h2 => word_of_length_le (by rw [hm_def] at h1; omega)
    -- the words the second loop reads are those the first left alone
    have hinner : ∀ j, m ≤ j → (updateWords (fun idx w => w ||| (unionWith.word idx &&&
        ~~~notIn.word idx)) 0 m v'.storage).getD j 0 = v.word j := by
      intro j hj
      rw [getD_updateWords, if_neg (by omega), ← word, hword]
    refine ⟨fun j => ?_, ?_, ?_⟩
    · rw [word, getD_updateWords, length_updateWords]
      by_cases hj : j < m
      · rw [if_neg (by omega), getD_updateWords, if_pos ⟨Nat.zero_le _, hj, by omega⟩, ← word,
          hword]
      · rw [hinner j (by omega)]
        by_cases hj' : j < (p + 32) / 32
        · rw [if_pos ⟨by omega, hj', by omega⟩, hnot j (by omega) hj',
            show ~~~(0 : BitVec 32) = BitVec.allOnes 32 by decide, BitVec.and_allOnes]
        · rw [if_neg (by omega), hzero j (by omega)]
          simp
    · unfold Fits at *
      rw [length_updateWords, length_updateWords]
      exact hfits
    · simp only [Bool.false_or, Bool.or_eq_true]
      rw [changesWord_or_iff_bitAt, changesWord_or_iff_bitAt]
      constructor
      · rintro (⟨q, -, hq, hg, hx⟩ | ⟨q, hq1, hq2, hg, hx⟩)
        · have hs : q % 32 < 32 := Nat.mod_lt q (by decide)
          simp only [bitAt, BitVec.getLsbD_and, BitVec.getLsbD_not, hs, decide_true,
            Bool.true_and, Bool.and_eq_true, Bool.not_eq_true'] at hg
          refine ⟨q, hg.1, hg.2, ?_⟩
          rw [bitAt, ← hword]
          exact hx
        · refine ⟨q, hg, ?_, ?_⟩
          · rw [bitAt, hnot _ hq1 hq2]
            simp
          · have hx' := hx
            rw [bitAt, hinner _ hq1] at hx'
            exact hx'
      · rintro ⟨q, hq, hnq, hvq⟩
        have hqp : q ≤ p := by
          by_contra h
          rw [habove q (by omega)] at hq
          exact Bool.false_ne_true hq
        by_cases hqm : q / 32 < m
        · refine .inl ⟨q, Nat.zero_le _, hqm, ?_, ?_⟩
          · have hs : q % 32 < 32 := Nat.mod_lt q (by decide)
            show (unionWith.word (q / 32) &&& ~~~notIn.word (q / 32)).getLsbD (q % 32) = true
            rw [BitVec.getLsbD_and, BitVec.getLsbD_not, ← bitAt, ← bitAt, hq, hnq]
            simp [hs]
          · rw [bitAt, ← hword] at hvq
            exact hvq
        · refine .inr ⟨q, by omega, by omega, hq, ?_⟩
          rw [bitAt, hinner _ (by omega)]
          exact hvq

end Union

/-! ### Copy and SetInitialBits -/

section Copy

variable {v : BitVector}

theorem getD_map_range_append (f : Nat → BitVec 32) (size k j : Nat) :
    ((List.range size).map f ++ List.replicate k 0).getD j 0 = if j < size then f j else 0 := by
  by_cases hj : j < size
  · rw [List.getD_append _ _ _ _ (by simpa using hj), if_pos hj, List.getD_eq_getElem?_getD,
      List.getElem?_map, List.getElem?_range hj]
    rfl
  · rw [List.getD_append_right _ _ _ _ (by simpa using hj), if_neg hj]
    by_cases hk : j - (List.map f (List.range size)).length < k
    · exact List.getD_replicate _ hk
    · exact List.getD_eq_default _ _ (by rw [List.length_replicate]; omega)

/-- `Copy` within the bound: the words of `src`. -/
theorem copy_spec (hv : Fits v) {src : BitVector} (hs : Fits src) :
    (∀ j, (v.copy src).word j = src.word j) ∧ Fits (v.copy src) := by
  rcases getHighestBitSet_spec hs with ⟨hneg, hall⟩ | ⟨p, hp, hbit, habove⟩
  · rw [copy, if_pos hneg]
    refine ⟨fun j => ?_, by unfold Fits clearAllBits at *; simpa using hv⟩
    rw [word_eq_zero_of_forall hall j, word, clearAllBits]
    by_cases hj : j < v.storage.length
    · exact List.getD_replicate _ hj
    · exact List.getD_eq_default _ _ (by rw [List.length_replicate]; omega)
  · have hlt := lt_of_bitAt hbit
    have hp31 : p < 2 ^ 31 := by unfold Fits at hs; omega
    have hlen := length_setBit hv hp31
    rw [copy, if_neg (by rw [hp]; omega)]
    simp only
    rw [hp, toUInt32_of_nonneg (by omega), kWordBits]
    refine ⟨fun j => ?_, ?_⟩
    · rw [word, getD_map_range_append]
      split_ifs with hj
      · rfl
      · exact (word_eq_zero_of_lt habove (by omega)).symm
    · unfold Fits at *
      simp only [List.length_append, List.length_map, List.length_range, List.length_replicate]
      omega

end Copy

section SetInitialBits

variable {v : BitVector}

/-- `SetInitialBits(num_bits)` within the bound: the bits below `num_bits`. -/
theorem setInitialBits_spec (hv : Fits v) {n : Nat} (hn : n ≤ 2 ^ 31) :
    (∀ p, bitAt (v.setInitialBits n).word p = decide (p < n)) ∧ Fits (v.setInitialBits n) := by
  rw [setInitialBits]
  split_ifs with h0
  · refine ⟨fun p => by rw [bitAt_clearAllBits, h0]; simp, ?_⟩
    unfold Fits clearAllBits at *
    simpa using hv
  · have hlen := length_setBit hv (show n - 1 < 2 ^ 31 by omega)
    have hrem : n &&& 0x1f = n % 32 := Nat.and_two_pow_sub_one_eq_mod n 5
    simp only [wordIndex_eq, hrem]
    set v1 := v.setBit (n - 1)
    set s1 := updateWords (fun _ _ => BitVec.allOnes 32) 0 (n / 32) v1.storage with hs1
    have hs1len : s1.length = v1.storage.length := length_updateWords _ _ _ _
    refine ⟨fun p => ?_, ?_⟩
    · have hp : p % 32 < 32 := Nat.mod_lt p (by decide)
      rw [bitAt, word]
      by_cases hr : n % 32 = 0
      · -- whole words only: below `n / 32` all ones, from there on zeros
        simp only [hr, ne_eq, not_true_eq_false, if_false]
        rw [getD_updateWords]
        by_cases hj : p / 32 < n / 32
        · rw [if_neg (by omega), hs1, getD_updateWords, if_pos ⟨Nat.zero_le _, hj, by omega⟩]
          show (BitVec.allOnes 32).getLsbD (p % 32) = decide (p < n)
          rw [BitVec.getLsbD_allOnes, decide_eq_true hp, decide_eq_true (by omega : p < n)]
        · rw [show decide (p < n) = false by simp; omega]
          split_ifs
          · simp
          · rw [List.getD_eq_default _ _ (by omega)]
            simp
      · simp only [hr, ne_eq, not_false_eq_true, if_true]
        rw [getD_updateWords, List.length_set]
        by_cases hj : p / 32 ≤ n / 32
        · rw [if_neg (by omega), getD_set, hs1len]
          by_cases hje : n / 32 = p / 32
          · -- the last, partial word: its bits below `num_bits & 0x1f`
            rw [if_pos ⟨hje, by omega⟩, getLsbD_lowMask (by omega)]
            simp only [decide_eq_decide]
            omega
          · rw [if_neg (fun h => hje h.1), hs1, getD_updateWords,
              if_pos ⟨Nat.zero_le _, by omega, by omega⟩]
            show (BitVec.allOnes 32).getLsbD (p % 32) = decide (p < n)
            rw [BitVec.getLsbD_allOnes, decide_eq_true hp, decide_eq_true (by omega : p < n)]
        · rw [show decide (p < n) = false by simp; omega]
          split_ifs
          · simp
          · rw [List.getD_eq_default _ _ (by rw [List.length_set]; omega)]
            simp
    · unfold Fits at *
      split_ifs <;> simp only [length_updateWords, List.length_set, hs1len] <;> omega

end SetInitialBits

/-! ### Queries -/

section Queries

variable {v : BitVector}

theorem word_eq_of_bitAt {u : BitVector} {j : Nat}
    (h : ∀ s < 32, bitAt v.word (32 * j + s) = bitAt u.word (32 * j + s)) : v.word j = u.word j := by
  apply BitVec.eq_of_getLsbD_eq
  intro s hs
  rw [← bitAt_mul_add v.word j hs, ← bitAt_mul_add u.word j hs, h s hs]

/-- `SameBitsSet` within the bound: the same bits are set. -/
theorem sameBitsSet_iff (hv : Fits v) {src : BitVector} (hs : Fits src) :
    v.sameBitsSet src = true ↔ ∀ p, bitAt v.word p = bitAt src.word p := by
  rw [sameBitsSet]
  rcases getHighestBitSet_spec hv with ⟨hv1, hvall⟩ | ⟨p, hv1, hvp, hvabove⟩ <;>
    rcases getHighestBitSet_spec hs with ⟨hs1, hsall⟩ | ⟨q, hs1, hsq, hsabove⟩
  · rw [hv1, hs1]
    simp [hvall, hsall]
  · rw [hv1, hs1, if_pos (by omega)]
    simp only [Bool.false_eq_true, false_iff, not_forall]
    exact ⟨q, by rw [hvall, hsq]; decide⟩
  · rw [hv1, hs1, if_pos (by omega)]
    simp only [Bool.false_eq_true, false_iff, not_forall]
    exact ⟨p, by rw [hsall, hvp]; decide⟩
  · rw [hv1, hs1]
    by_cases hpq : p = q
    · subst hpq
      have hp31 : p < 2 ^ 31 := by have := lt_of_bitAt hvp; unfold Fits at hv; omega
      rw [if_neg (not_not.2 rfl)]
      -- both have `p` as their highest bit; below it the compared words decide
      have hbelow : ∀ r, r ≤ p → (r < p → bitAt v.word r = bitAt src.word r) →
          bitAt v.word r = bitAt src.word r := by
        intro r hr h
        by_cases hrp : r = p
        · rw [hrp, hvp, hsq]
        · exact h (by omega)
      have hall : (∀ r, bitAt v.word r = bitAt src.word r) ↔
          ∀ r < p, bitAt v.word r = bitAt src.word r := by
        refine ⟨fun h r _ => h r, fun h r => ?_⟩
        by_cases hr : p < r
        · rw [hvabove r hr, hsabove r hr]
        · exact hbelow r (by omega) (h r)
      rw [hall]
      split_ifs with hp0
      · simp only [true_iff]
        intro r hr
        omega
      · rw [toUInt32_of_nonneg (by omega), bitsToWords_of_lt (by omega)]
        simp only [List.all_eq_true, List.mem_range, beq_iff_eq]
        constructor
        · intro h r hr
          have hw := h (r / 32) (by omega)
          rw [bitAt, bitAt, hw]
        · intro h j _
          exact word_eq_of_bitAt fun t _ => by
            by_cases hjt : 32 * j + t < p
            · exact h _ hjt
            · by_cases hjp : 32 * j + t = p
              · rw [hjp, hvp, hsq]
              · rw [hvabove _ (by omega), hsabove _ (by omega)]
    · rw [if_pos (by omega)]
      simp only [Bool.false_eq_true, false_iff, not_forall]
      rcases Nat.lt_or_gt_of_ne hpq with hlt | hgt
      · exact ⟨q, by rw [hvabove q hlt, hsq]; decide⟩
      · exact ⟨p, by rw [hvp, hsabove p hgt]; decide⟩

/-- `IsSubsetOf` within the bound: every bit of the vector is set in `other`. -/
theorem isSubsetOf_iff (hv : Fits v) {other : BitVector} (ho : Fits other) :
    v.isSubsetOf other = true ↔ ∀ p, bitAt v.word p = true → bitAt other.word p = true := by
  rw [isSubsetOf]
  rcases getHighestBitSet_spec hv with ⟨hv1, hvall⟩ | ⟨p, hv1, hvp, hvabove⟩
  · rw [hv1]
    simp [hvall]
  · rw [hv1, if_neg (by omega)]
    -- a highest bit above `other`'s is a bit `other` lacks
    have hmiss : p > other.getHighestBitSet → ¬bitAt other.word p = true := by
      intro hgt hop
      rcases getHighestBitSet_spec ho with ⟨ho1, hoall⟩ | ⟨q, ho1, -, hoabove⟩
      · rw [hoall] at hop
        exact Bool.false_ne_true hop
      · rw [ho1] at hgt
        rw [hoabove p (by omega)] at hop
        exact Bool.false_ne_true hop
    split_ifs with hgt
    · simp only [false_iff, not_forall]
      exact ⟨p, hvp, hmiss hgt⟩
    · rw [show (p : Int) + 1 = ((p + 1 : Nat) : Int) by push_cast; rfl,
        toUInt32_of_nonneg (by have := lt_of_bitAt hvp; unfold Fits at hv; omega),
        bitsToWords_of_lt (by have := lt_of_bitAt hvp; unfold Fits at hv; omega)]
      simp only [List.all_eq_true, List.mem_range, beq_iff_eq, or_eq_right_iff]
      constructor
      · intro h r hr
        have hrp : r ≤ p := by
          by_contra hrp
          rw [hvabove r (by omega)] at hr
          exact Bool.false_ne_true hr
        exact h (r / 32) (by omega) (r % 32) hr
      · intro h j _ s hs
        have hs32 : s < 32 := BitVec.lt_of_getLsbD hs
        have h' := h (32 * j + s)
        rw [bitAt_mul_add _ _ hs32, bitAt_mul_add _ _ hs32] at h'
        exact h' hs

/-- Within the bound, the elements are the set positions of the words. -/
theorem elems_eq_positions (hv : Fits v) :
    v.elems = (positions (bitAt v.word) 0 (32 * v.storage.length)).toFinset := by
  ext p
  rw [mem_elems_iff hv, List.mem_toFinset, mem_positions]
  constructor
  · intro h
    exact ⟨Nat.zero_le _, lt_of_bitAt h, h⟩
  · rintro ⟨-, -, h⟩
    exact h

theorem card_toFinset_positions (bit : Nat → Bool) (lo hi : Nat) :
    (positions bit lo hi).toFinset.card = (positions bit lo hi).length :=
  List.toFinset_card_of_nodup (pairwise_positions lo hi).nodup

/-- The `POPCOUNT`s of the words `[0, n)` count the set positions below `32 * n`. -/
theorem sum_cpop_eq_length_positions (n : Nat) :
    ((List.range n).map fun idx => (v.word idx).cpop.toNat).sum =
      (positions (bitAt v.word) 0 (32 * n)).length := by
  have h := @positions_words 32 (bitAt v.word) 0 n
  rw [Nat.mul_zero, Nat.zero_add] at h
  rw [← h, List.length_flatMap, List.range_eq_range']
  congr 1
  apply List.map_congr_left
  intro idx _
  rw [toNat_cpop_eq_length_setBits, length_setBits_word]

/-- `NumSetBits()` within the bound: the number of elements. -/
theorem numSetBits_eq (hv : Fits v) : v.numSetBits = v.elems.card := by
  rw [numSetBits, sum_cpop_eq_length_positions, elems_eq_positions hv, card_toFinset_positions]

theorem getLsbD_not_allOnes_shiftLeft {r s : Nat} (hs : s < 32) :
    (~~~(0xffffffff#32 <<< r)).getLsbD s = decide (s < r) := by
  rw [BitVec.getLsbD_not, BitVec.getLsbD_shiftLeft,
    show (0xffffffff#32 : BitVec 32) = BitVec.allOnes 32 by decide, BitVec.getLsbD_allOnes]
  by_cases hr : s < r
  · simp [hs, hr]
  · simp [hs, hr, show s - r < 32 by omega]

/-- `NumSetBits(end)` within the storage, as its `DCHECK` requires: the number of elements below
`end`. (Past the storage the source reads past `storage_`, where the model reads zero.) -/
theorem numSetBitsBelow_eq (hv : Fits v) {e : Nat} (_he : e ≤ 32 * v.storage.length) :
    v.numSetBitsBelow e = (v.elems.filter (· < e)).card := by
  have hrem : e &&& 0x1f = e % 32 := Nat.and_two_pow_sub_one_eq_mod e 5
  -- both sides count the set positions below `end`
  have hfilter : v.elems.filter (· < e) = (positions (bitAt v.word) 0 e).toFinset := by
    ext p
    rw [Finset.mem_filter, mem_elems_iff hv, List.mem_toFinset, mem_positions]
    constructor
    · rintro ⟨h, hp⟩
      exact ⟨Nat.zero_le _, hp, h⟩
    · rintro ⟨-, hp, h⟩
      exact ⟨h, hp⟩
  rw [numSetBitsBelow, hfilter, card_toFinset_positions, wordIndex_eq, hrem,
    sum_cpop_eq_length_positions]
  split_ifs with hr
  · -- the partial word holds the positions `[32 * (end / 32), end)`
    have hmask : ∀ s < 32, (~~~(0xffffffff#32 <<< (e % 32))).getLsbD s = true ↔
        0 ≤ s ∧ s < e % 32 := by
      intro s hs
      rw [getLsbD_not_allOnes_shiftLeft hs]
      simp
    have hx := (holdsRange_word v.word (e / 32)).and hmask
    rw [show max (32 * (e / 32)) (32 * (e / 32) + 0) = 32 * (e / 32) by omega,
      show min (32 * (e / 32) + 32) (32 * (e / 32) + e % 32) = e by omega] at hx
    have hlen := congrArg List.length (hx.map_setBits le_rfl (by omega))
    rw [List.length_map] at hlen
    rw [toNat_cpop_eq_length_setBits, hlen, ← List.length_append,
      positions_append (Nat.zero_le _) (by omega)]
  · rw [Nat.add_zero, show 32 * (e / 32) = e by omega]

/-- `GetHighestBitSet` within the bound: `-1` for no element, else the greatest one. -/
theorem getHighestBitSet_eq (hv : Fits v) :
    (v.getHighestBitSet = -1 ∧ v.elems = ∅) ∨
      ∃ p : Nat, v.getHighestBitSet = p ∧ IsGreatest (v.elems : Set ℕ) p := by
  rcases getHighestBitSet_spec hv with ⟨h, hall⟩ | ⟨p, h, hp, habove⟩
  · refine .inl ⟨h, Finset.eq_empty_of_forall_notMem fun q hq => ?_⟩
    rw [mem_elems_iff hv, hall] at hq
    exact Bool.false_ne_true hq
  · refine .inr ⟨p, h, (mem_elems_iff hv).2 hp, fun q hq => ?_⟩
    rw [Finset.mem_coe, mem_elems_iff hv] at hq
    by_contra hqp
    rw [habove q (by omega)] at hq
    exact Bool.false_ne_true hq

end Queries

/-! ### The operations on the set of bits -/

section Elems

variable {v : BitVector}

/-- The elements of a vector within the bound are its set bits. -/
theorem elems_eq_iff {u : BitVector} (hu : Fits u) {S : Finset ℕ}
    (h : ∀ p, bitAt u.word p = true ↔ p ∈ S) : u.elems = S := by
  ext p
  rw [mem_elems_iff hu, h]

theorem bitAt_of_word {u : BitVector} {f : BitVec 32 → BitVec 32 → BitVec 32} {g : Bool → Bool → Bool}
    {w : BitVector} (hword : ∀ j, u.word j = f (v.word j) (w.word j))
    (hf : ∀ x y s, (f x y).getLsbD s = g (x.getLsbD s) (y.getLsbD s)) (p : Nat) :
    bitAt u.word p = g (bitAt v.word p) (bitAt w.word p) := by
  rw [bitAt, hword, hf]
  rfl

theorem fits_clearBit (hv : Fits v) (idx : Nat) : Fits (v.clearBit idx) := by
  unfold Fits clearBit at *
  split_ifs
  · rw [List.length_set]
    exact hv
  · exact hv

theorem fits_clearAllBits (hv : Fits v) : Fits v.clearAllBits := by
  unfold Fits clearAllBits at *
  rw [List.length_replicate]
  exact hv

theorem elems_setBit (hv : Fits v) {idx : Nat} (hidx : idx < 2 ^ 31) :
    (v.setBit idx).elems = insert idx v.elems :=
  elems_eq_iff (fits_setBit hv hidx) fun p => by
    rw [bitAt_setBit hv hidx, Finset.mem_insert, mem_elems_iff hv, Bool.or_eq_true,
      decide_eq_true_iff, or_comm]

theorem elems_clearBit (hv : Fits v) (idx : Nat) : (v.clearBit idx).elems = v.elems.erase idx :=
  elems_eq_iff (fits_clearBit hv idx) fun p => by
    rw [bitAt_clearBit hv, Finset.mem_erase, mem_elems_iff hv, Bool.and_eq_true,
      decide_eq_true_iff, and_comm]

theorem elems_clearAllBits (hv : Fits v) : v.clearAllBits.elems = ∅ :=
  elems_eq_iff (fits_clearAllBits hv) fun p => by
    rw [bitAt_clearAllBits]
    simp

theorem elems_setInitialBits (hv : Fits v) {n : Nat} (hn : n ≤ 2 ^ 31) :
    (v.setInitialBits n).elems = Finset.range n :=
  elems_eq_iff (setInitialBits_spec hv hn).2 fun p => by
    rw [(setInitialBits_spec hv hn).1, Finset.mem_range, decide_eq_true_iff]

theorem elems_copy (hv : Fits v) {src : BitVector} (hs : Fits src) :
    (v.copy src).elems = src.elems :=
  elems_eq_of_bitAt hs (copy_spec hv hs).2 fun p => by rw [bitAt, (copy_spec hv hs).1, bitAt]

theorem elems_union (hv : Fits v) {src : BitVector} (hs : Fits src) :
    (v.union src).1.elems = v.elems ∪ src.elems :=
  elems_eq_iff (union_spec hv hs).2.1 fun p => by
    rw [bitAt_of_word (union_spec hv hs).1 (fun _ _ _ => BitVec.getLsbD_or) p,
      Finset.mem_union, mem_elems_iff hv, mem_elems_iff hs, Bool.or_eq_true]

theorem elems_unionIfNotIn (hv : Fits v) {unionWith notIn : BitVector} (ha : Fits unionWith)
    (hb : Fits notIn) :
    (v.unionIfNotIn unionWith notIn).1.elems = v.elems ∪ (unionWith.elems \ notIn.elems) :=
  elems_eq_iff (unionIfNotIn_spec hv ha).2.1 fun p => by
    have hp : p % 32 < 32 := Nat.mod_lt p (by decide)
    rw [bitAt, (unionIfNotIn_spec hv ha).1, Finset.mem_union, Finset.mem_sdiff, mem_elems_iff hv,
      mem_elems_iff ha, mem_elems_iff hb]
    simp [bitAt, hp]

theorem fits_intersect (hv : Fits v) (src : BitVector) : Fits (v.intersect src) := by
  unfold Fits at *
  rw [length_intersect]
  exact hv

theorem fits_subtract (hv : Fits v) (src : BitVector) : Fits (v.subtract src) := by
  unfold Fits at *
  rw [length_subtract]
  exact hv

theorem elems_intersect (hv : Fits v) {src : BitVector} (hs : Fits src) :
    (v.intersect src).elems = v.elems ∩ src.elems := by
  refine elems_eq_iff (fits_intersect hv src) fun p => ?_
  rw [bitAt_of_word (fun j => word_intersect src j) (fun _ _ _ => BitVec.getLsbD_and) p,
    Finset.mem_inter, mem_elems_iff hv, mem_elems_iff hs, Bool.and_eq_true]

theorem elems_subtract (hv : Fits v) {src : BitVector} (hs : Fits src) :
    (v.subtract src).elems = v.elems \ src.elems := by
  have hp : ∀ p, p % 32 < 32 := fun p => Nat.mod_lt p (by decide)
  refine elems_eq_iff (fits_subtract hv src) fun p => ?_
  rw [bitAt, word_subtract, Finset.mem_sdiff, mem_elems_iff hv, mem_elems_iff hs]
  simp [bitAt, hp p]

end Elems

/-! ### Past the bound -/

section Wrap

/-- `GetHighestBitSet` of a vector whose highest bit is `2 ^ 31`: the `uint32_t` sum is returned
as the `int` `-2 ^ 31`. -/
theorem getHighestBitSet_of_wrap :
    (⟨List.replicate (2 ^ 26) 0 ++ [1]⟩ : BitVector).getHighestBitSet = -2 ^ 31 := by
  have hlen : (List.replicate (2 ^ 26) (0 : BitVec 32) ++ [1]).length = 2 ^ 26 + 1 := by
    rw [List.length_append, List.length_replicate, List.length_singleton]
  -- the top word is `1`; nothing evaluates the zeros below it
  have hword : (⟨List.replicate (2 ^ 26) 0 ++ [1]⟩ : BitVector).word (2 ^ 26) = 1 := by
    rw [word, List.getD_append_right _ _ _ _ (by rw [List.length_replicate]),
      List.length_replicate, Nat.sub_self]
    rfl
  unfold getHighestBitSet
  rw [hlen, getHighestBitSetLoop, hword, if_pos (by decide)]
  decide

end Wrap

end BitVector

end Art
