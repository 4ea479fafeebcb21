import Art.Gc.SpaceBitmap

/-!
# Liveness accounting of the mark-compact collector (`runtime/gc/collector/mark_compact`)

Marking records every live object of the moving space with `UpdateLivenessInfo`: the words of
the object are set in the live-words bitmap (`SetLiveWords`), one bit per `kAlignment` bytes, and
its bytes are added to `chunk_info_vec_`, one entry per chunk of `kOffsetChunkSize` bytes, that
is per bitmap word (`kBitmapWordsPerVectorWord` is `1` on a 64-bit target).

* `SetLiveWords` sets exactly the bits of the object (`bitAt_setLiveWords`).
* `UpdateLivenessInfo` adds to each chunk the bytes of the object in it
  (`chunkInfoVec_updateLivenessInfo`), so over any run that records disjoint objects of the space
  from a cleared state, the bitmap holds exactly their words and every chunk holds its live bytes,
  `LiveBytesInBitmapWord`, at most `kOffsetChunkSize` (`recordObjects_spec`).
* An object that lies in one chunk and ends at its end makes the last statement
  `chunk_info_vec_[chunk_idx] += size` add `0` to the entry of the next chunk; for the last chunk
  of the space that entry is `chunk_info_vec_[vector_length_]`, past the vector
  (`vectorLength_mem_updateLivenessInfo`).
* `FindNthLiveWordOffset` and `CountLiveWordsUpto` read the bitmap back: the position of the
  `n`-th live word of a chunk, and the live words of a chunk below a bit
  (`findNthLiveWordOffset_eq`, `countLiveWordsUpto_eq`).
-/

namespace Art

namespace MarkCompact

open BitStream BitScan SpaceBitmap

section Constants

variable (kAlignment : Nat)

/-- `kOffsetChunkSize`: the bytes of one `chunk_info_vec_` entry, `kBitsPerVectorWord *
kAlignment` with `kBitsPerVectorWord = kBitsPerIntPtrT = 64`. -/
def kOffsetChunkSize : Nat := 64 * kAlignment

end Constants

/-- `kBitmapWordsPerVectorWord = kBitsPerVectorWord / kBitsPerBitmapWord`, both 64 bits. -/
def kBitmapWordsPerVectorWord : Nat := 1

/-- What the liveness accounting reads and writes: the live-words bitmap covering the moving
space from `begin` (`LiveWordsBitmap::Begin()`), and `chunk_info_vec_` of `vector_length_`
entries. `chunkInfoVec i` for `i ≥ vectorLength` is the memory that follows the vector. -/
structure Liveness where
  begin : Nat
  word : Nat → BitVec 64
  chunkInfoVec : Nat → Nat
  vectorLength : Nat

/-- The end of `UpdateLivenessInfo`, from chunk `chunkIdx` with `size` bytes of the object left:
`for (; size > kOffsetChunkSize; size -= kOffsetChunkSize) chunk_info_vec_[chunk_idx++] =
kOffsetChunkSize; chunk_info_vec_[chunk_idx] += size;`. Returns the vector and the entries
written, in order. -/
def fillChunks (kAlignment : Nat) [NeZero kAlignment] (info : Nat → Nat) (chunkIdx size : Nat)
    (written : List Nat) : (Nat → Nat) × List Nat :=
  if kOffsetChunkSize kAlignment < size then
    fillChunks kAlignment (Function.update info chunkIdx (kOffsetChunkSize kAlignment)) (chunkIdx + 1)
      (size - kOffsetChunkSize kAlignment) (written ++ [chunkIdx])
  else (Function.update info chunkIdx (info chunkIdx + size), written ++ [chunkIdx])
termination_by size
decreasing_by
  have := NeZero.pos kAlignment
  unfold kOffsetChunkSize
  omega

variable {kAlignment : Nat}

namespace Liveness

variable (kAlignment) (l : Liveness)

/-- `MemRangeBitmap::BitIndexFromAddr`. -/
def bitIndexFromAddr (addr : Nat) : Nat := (addr - l.begin) / kAlignment

/-- `LiveWordsBitmap::SetLiveWords(begin, size)`: sets the bits of `[begin, begin + size -
kAlignment]`, the first word from the first bit on, the words in between whole (`memset`), the
last word up to the last bit. Returns the bitmap and the bit of `begin`. -/
def setLiveWords (objBegin size : Nat) : (Nat → BitVec 64) × Nat :=
  let beginBitIdx := l.bitIndexFromAddr kAlignment objBegin
  let endBitIdx := l.bitIndexFromAddr kAlignment (objBegin + size - kAlignment)
  let beginWord := beginBitIdx / 64
  let endWord := endBitIdx / 64
  let mask := ~~~((1#64 <<< (beginBitIdx % 64)) - 1#64)
  let (word, mask) :=
    if beginWord < endWord then
      (fun j => if j = beginWord then l.word j ||| mask
        else if beginWord < j ∧ j < endWord then BitVec.allOnes 64 else l.word j,
        BitVec.allOnes 64)
    else (l.word, mask)
  let endMask := 1#64 <<< (endBitIdx % 64)
  (Function.update word endWord (word endWord ||| (mask &&& (endMask ||| (endMask - 1#64)))),
    beginBitIdx)

end Liveness

namespace Liveness

variable (kAlignment) (l : Liveness)

/-- `MarkCompact::UpdateLivenessInfo(obj, obj_size)`: the new state, and the entries of
`chunk_info_vec_` written. -/
def updateLivenessInfo [NeZero kAlignment] (objBegin objSize : Nat) : Liveness × List Nat :=
  let size := roundUp objSize kAlignment
  -- the bitmap with the object's words set, and `bit_index`
  let liveWords := l.setLiveWords kAlignment objBegin size
  let chunkIdx := (objBegin - l.begin) / kOffsetChunkSize kAlignment
  let bitIndex := liveWords.2 % 64
  let firstChunkPortion := min size ((64 - bitIndex) * kAlignment)
  let info := Function.update l.chunkInfoVec chunkIdx (l.chunkInfoVec chunkIdx + firstChunkPortion)
  let chunks := fillChunks kAlignment info (chunkIdx + 1) (size - firstChunkPortion) [chunkIdx]
  ({ l with word := liveWords.1, chunkInfoVec := chunks.1 }, chunks.2)

/-- `LiveWordsBitmap::LiveBytesInBitmapWord(chunk_idx)`: the set bits of the chunk's bitmap
words, in bytes. -/
def liveBytesInBitmapWord (chunkIdx : Nat) : Nat :=
  let index := chunkIdx * kBitmapWordsPerVectorWord
  (List.range kBitmapWordsPerVectorWord).foldl (fun words i => words + (l.word (index + i)).cpop.toNat)
    0 * kAlignment

/-- `LiveWordsBitmap::CountLiveWordsUpto(bit_idx)`: the set bits of the word of `bit_idx` below
it (the loop over the earlier words of the chunk runs only if `kBitmapWordsPerVectorWord > 1`). -/
def countLiveWordsUpto (bitIdx : Nat) : Nat :=
  let wordOffset := bitIdx / 64
  let word := l.word wordOffset
  let mask := 1#64 <<< (bitIdx % 64)
  (word &&& (mask - 1#64)).cpop.toNat

end Liveness

/-- Marking records the objects `(begin, size)` one after the other. -/
def Liveness.recordObjects (kAlignment : Nat) [NeZero kAlignment] :
    Liveness → List (Nat × Nat) → Liveness × List Nat
  | l, [] => (l, [])
  | l, (objBegin, objSize) :: objs =>
    let first := l.updateLivenessInfo kAlignment objBegin objSize
    let rest := Liveness.recordObjects kAlignment first.1 objs
    (rest.1, first.2 ++ rest.2)

/-- The loop of `FindNthLiveWordOffset` over the runs of a word that is not all ones, at most
`fuel` rounds: skip a run of zeros, then take a run of ones, which holds the `n`-th one if it is
longer than `n`. `j` is the bits consumed. `none` is the end of the word. -/
def findNthInWord : Nat → BitVec 64 → Nat → Nat → Option Nat
  | 0, _, _, _ => none
  | fuel + 1, word, j, n =>
    if word = 0#64 then none
    else
      -- count contiguous 0s
      let shift := word.ctz.toNat
      let word := word >>> shift
      let j := j + shift
      -- count contiguous 1s
      let shift := (~~~word).ctz.toNat
      if n < shift then some (j + n)
      else findNthInWord fuel (word >>> shift) (j + shift) (n - shift)

namespace Liveness

variable (l : Liveness)

/-- `LiveWordsBitmap::FindNthLiveWordOffset(chunk_idx, n)`: the offset in the chunk of its
`n`-th live word, `none` for the `LOG(FATAL)` past the chunk's last. The loop over the bitmap
words of the chunk runs once, and the loop over a word's runs at most 64 times. -/
def findNthLiveWordOffset (chunkIdx n : Nat) : Option Nat :=
  let index := chunkIdx * kBitmapWordsPerVectorWord
  let word := l.word index
  if ~~~word = 0#64 then
    if n < 64 then some n else none
  else findNthInWord 64 word 0 n

end Liveness

/-! ### `SetLiveWords` -/

namespace Liveness

variable (l : Liveness)

/-- Bit `s` of word `j` after `SetLiveWords`: set if it was, or if it is one of the object's. -/
theorem getLsbD_setLiveWords {objBegin size : Nat}
    (hle : l.bitIndexFromAddr kAlignment objBegin ≤
      l.bitIndexFromAddr kAlignment (objBegin + size - kAlignment)) (j : Nat) {s : Nat}
    (hs : s < 64) :
    ((l.setLiveWords kAlignment objBegin size).1 j).getLsbD s =
      ((l.word j).getLsbD s || decide (l.bitIndexFromAddr kAlignment objBegin ≤ 64 * j + s ∧
        64 * j + s ≤ l.bitIndexFromAddr kAlignment (objBegin + size - kAlignment))) := by
  generalize hbb : l.bitIndexFromAddr kAlignment objBegin = bb at hle
  generalize heb : l.bitIndexFromAddr kAlignment (objBegin + size - kAlignment) = eb at hle
  have hbs : bb % 64 < 64 := Nat.mod_lt _ (by omega)
  have hes : eb % 64 < 64 := Nat.mod_lt _ (by omega)
  simp only [setLiveWords, hbb, heb]
  by_cases hlt : bb / 64 < eb / 64
  · -- the first word from `bit_start` on, the words in between, the last word up to `bit_end`
    simp only [hlt, if_true, Function.update_apply]
    by_cases hj : j = eb / 64
    · subst hj
      simp only [if_true, show ¬ eb / 64 = bb / 64 by omega, if_false, lt_irrefl, and_false,
        BitVec.getLsbD_or, BitVec.getLsbD_and, BitVec.getLsbD_allOnes, hs, decide_true,
        Bool.true_and, getLsbD_or_lowMask hes]
      congr 1
      simp only [decide_eq_decide]
      omega
    · simp only [hj, if_false]
      by_cases hjb : j = bb / 64
      · subst hjb
        simp only [if_true, BitVec.getLsbD_or, getLsbD_not_lowMask hbs hs]
        congr 1
        simp only [decide_eq_decide]
        omega
      · simp only [hjb, if_false]
        by_cases hmid : bb / 64 < j ∧ j < eb / 64
        · have hin : bb ≤ 64 * j + s ∧ 64 * j + s ≤ eb := by omega
          simp only [hmid, hin, and_self, if_true, BitVec.getLsbD_allOnes, hs, decide_true,
            Bool.or_true]
        · have hout : ¬ (bb ≤ 64 * j + s ∧ 64 * j + s ≤ eb) := by omega
          simp [hmid, hout]
  · -- one word: the bits from `bit_start` up to `bit_end`
    simp only [hlt, if_false, Function.update_apply]
    by_cases hj : j = eb / 64
    · subst hj
      simp only [if_true, BitVec.getLsbD_or, BitVec.getLsbD_and, getLsbD_not_lowMask hbs hs,
        getLsbD_or_lowMask hes]
      congr 1
      rw [← Bool.decide_and, decide_eq_decide]
      omega
    · have hout : ¬ (bb ≤ 64 * j + s ∧ 64 * j + s ≤ eb) := by omega
      simp [hj, hout]

/-- `SetLiveWords` sets the bits of the object, from the bit of `begin` to the bit of
`begin + size - kAlignment`, and keeps the others. -/
theorem bitAt_setLiveWords {objBegin size : Nat}
    (hle : l.bitIndexFromAddr kAlignment objBegin ≤
      l.bitIndexFromAddr kAlignment (objBegin + size - kAlignment)) (q : Nat) :
    bitAt (l.setLiveWords kAlignment objBegin size).1 q =
      (bitAt l.word q || decide (l.bitIndexFromAddr kAlignment objBegin ≤ q ∧
        q ≤ l.bitIndexFromAddr kAlignment (objBegin + size - kAlignment))) := by
  unfold bitAt
  rw [l.getLsbD_setLiveWords hle _ (Nat.mod_lt _ (by omega)), Nat.div_add_mod]

/-- The set bits of a word after `SetLiveWords` of an object whose bits were clear: those it
had, and the object's bits in it. -/
theorem cpop_setLiveWords {objBegin size : Nat}
    (hle : l.bitIndexFromAddr kAlignment objBegin ≤
      l.bitIndexFromAddr kAlignment (objBegin + size - kAlignment))
    (hclear : ∀ q, l.bitIndexFromAddr kAlignment objBegin ≤ q →
      q ≤ l.bitIndexFromAddr kAlignment (objBegin + size - kAlignment) → bitAt l.word q = false)
    (j : Nat) :
    ((l.setLiveWords kAlignment objBegin size).1 j).cpop.toNat = (l.word j).cpop.toNat +
      (min (64 * j + 64) (l.bitIndexFromAddr kAlignment (objBegin + size - kAlignment) + 1) -
        max (64 * j) (l.bitIndexFromAddr kAlignment objBegin)) := by
  rw [toNat_cpop_eq_length_setBits, toNat_cpop_eq_length_setBits, length_setBits_word,
    length_setBits_word]
  have hbit : bitAt (l.setLiveWords kAlignment objBegin size).1 =
      fun q => bitAt l.word q || decide (l.bitIndexFromAddr kAlignment objBegin ≤ q ∧
        q < l.bitIndexFromAddr kAlignment (objBegin + size - kAlignment) + 1) := by
    funext q
    simp only [l.bitAt_setLiveWords hle, Nat.lt_succ_iff]
  rw [hbit, length_positions_or, length_positions_interval]
  intro q _ _ hq
  simp only [decide_eq_false_iff_not, not_and, Nat.not_lt]
  intro h1
  by_contra h2
  rw [hclear q h1 (by omega)] at hq
  exact Bool.false_ne_true hq

end Liveness

/-! ### The chunk-info vector -/

section Chunks

variable [NeZero kAlignment]

/-- The loop and last statement of `UpdateLivenessInfo`, from chunk `c` with the `m` words
`[64 * c, 64 * c + m)` of the object left: every chunk gains the object's bytes in it, when the
chunks that the loop overwrites held nothing. By induction on `m`, a chunk of words a round. -/
theorem fillChunks_fst {m : Nat} :
    ∀ {info : Nat → Nat} {c : Nat} (written : List Nat),
      (∀ j, c ≤ j → 64 * j + 64 < 64 * c + m → info j = 0) → ∀ j,
      (fillChunks kAlignment info c (m * kAlignment) written).1 j =
        info j + kAlignment * (min (64 * j + 64) (64 * c + m) - max (64 * j) (64 * c)) := by
  induction m using Nat.strong_induction_on with
  | _ m ih =>
    intro info c written hzero j
    have hA := NeZero.pos kAlignment
    rw [fillChunks]
    by_cases hlt : kOffsetChunkSize kAlignment < m * kAlignment
    · -- a whole chunk, overwritten with `kOffsetChunkSize`
      have hm : 64 < m := by
        unfold kOffsetChunkSize at hlt
        exact Nat.lt_of_mul_lt_mul_right hlt
      rw [if_pos hlt, kOffsetChunkSize, show m * kAlignment - 64 * kAlignment =
        (m - 64) * kAlignment by rw [Nat.sub_mul, Nat.mul_comm 64]]
      rw [ih (m - 64) (by omega) (written ++ [c]) (fun j' hj hj' => ?_) j]
      · by_cases hjc : j = c
        · subst hjc
          rw [Function.update_self, hzero j (le_refl _) (by omega),
            show min (64 * j + 64) (64 * (j + 1) + (m - 64)) - max (64 * j) (64 * (j + 1)) = 0 by
              omega,
            show min (64 * j + 64) (64 * j + m) - max (64 * j) (64 * j) = 64 by omega]
          ring
        · rw [Function.update_of_ne hjc,
            show min (64 * j + 64) (64 * (c + 1) + (m - 64)) - max (64 * j) (64 * (c + 1)) =
              min (64 * j + 64) (64 * c + m) - max (64 * j) (64 * c) by omega]
      · rw [Function.update_of_ne (by omega)]
        exact hzero j' (by omega) (by omega)
    · -- the last chunk gains what is left
      have hm : m ≤ 64 := by
        unfold kOffsetChunkSize at hlt
        exact Nat.le_of_not_lt fun h => hlt (Nat.mul_lt_mul_of_pos_right h hA)
      rw [if_neg hlt]
      dsimp only
      by_cases hjc : j = c
      · subst hjc
        rw [Function.update_self,
          show min (64 * j + 64) (64 * j + m) - max (64 * j) (64 * j) = m by omega, Nat.mul_comm]
      · rw [Function.update_of_ne hjc,
          show min (64 * j + 64) (64 * c + m) - max (64 * j) (64 * c) = 0 by omega, Nat.mul_zero,
          Nat.add_zero]

/-- The entries the loop and last statement write: one a round, and the last. -/
theorem fillChunks_snd {m : Nat} :
    ∀ {info : Nat → Nat} {c : Nat} (written : List Nat),
      (fillChunks kAlignment info c (m * kAlignment) written).2 =
        written ++ List.range' c ((m - 1) / 64 + 1) := by
  induction m using Nat.strong_induction_on with
  | _ m ih =>
    intro info c written
    have hA := NeZero.pos kAlignment
    rw [fillChunks]
    by_cases hlt : kOffsetChunkSize kAlignment < m * kAlignment
    · have hm : 64 < m := by
        unfold kOffsetChunkSize at hlt
        exact Nat.lt_of_mul_lt_mul_right hlt
      rw [if_pos hlt, kOffsetChunkSize, show m * kAlignment - 64 * kAlignment =
        (m - 64) * kAlignment by rw [Nat.sub_mul, Nat.mul_comm 64], ih (m - 64) (by omega),
        List.append_assoc, show (m - 1) / 64 + 1 = ((m - 64 - 1) / 64 + 1) + 1 by omega,
        List.range'_succ]
      rfl
    · have hm : m ≤ 64 := by
        unfold kOffsetChunkSize at hlt
        exact Nat.le_of_not_lt fun h => hlt (Nat.mul_lt_mul_of_pos_right h hA)
      rw [if_neg hlt, show (m - 1) / 64 + 1 = 1 by omega]
      rfl

end Chunks

/-! ### `UpdateLivenessInfo` -/

namespace Liveness

variable (l : Liveness)

theorem setLiveWords_snd (objBegin size : Nat) :
    (l.setLiveWords kAlignment objBegin size).2 = l.bitIndexFromAddr kAlignment objBegin := by
  simp only [setLiveWords]

/-- The chunk of an address is the word of its bit. -/
theorem chunkIdx_eq (addr : Nat) :
    (addr - l.begin) / kOffsetChunkSize kAlignment = l.bitIndexFromAddr kAlignment addr / 64 := by
  rw [bitIndexFromAddr, kOffsetChunkSize, Nat.div_div_eq_div_mul, Nat.mul_comm]

section Object

variable [NeZero kAlignment] {objBegin objSize : Nat}

/-- The last word of an object of `n` words aligned in the space. -/
theorem bitIndexFromAddr_last {n : Nat} (hbegin : l.begin ≤ objBegin)
    (haligned : (objBegin - l.begin) % kAlignment = 0) (hn : 0 < n) :
    l.bitIndexFromAddr kAlignment (objBegin + n * kAlignment - kAlignment) =
      l.bitIndexFromAddr kAlignment objBegin + n - 1 := by
  have hA := NeZero.pos kAlignment
  have hdvd := Nat.div_mul_cancel (Nat.dvd_of_mod_eq_zero haligned)
  unfold bitIndexFromAddr
  generalize (objBegin - l.begin) / kAlignment = p at hdvd ⊢
  have hnA : kAlignment ≤ n * kAlignment := Nat.le_mul_of_pos_left _ hn
  have hoff : objBegin + n * kAlignment - kAlignment - l.begin = (p + (n - 1)) * kAlignment := by
    rw [Nat.add_mul, Nat.sub_one_mul]
    omega
  rw [hoff, Nat.mul_div_cancel _ hA]
  omega

/-- An object of `objSize > 0` bytes takes at least one word. -/
theorem one_le_words (hsize : 0 < objSize) : 1 ≤ (objSize + kAlignment - 1) / kAlignment := by
  have hA := NeZero.pos kAlignment
  rw [Nat.le_div_iff_mul_le hA]
  omega

/-- An aligned object inside the first `M` words of the space ends by word `M`. -/
theorem words_le {M : Nat} (hbegin : l.begin ≤ objBegin)
    (haligned : (objBegin - l.begin) % kAlignment = 0)
    (hinside : objBegin + objSize ≤ l.begin + M * kAlignment) :
    l.bitIndexFromAddr kAlignment objBegin + (objSize + kAlignment - 1) / kAlignment ≤ M := by
  have hA := NeZero.pos kAlignment
  have hdvd := Nat.div_mul_cancel (Nat.dvd_of_mod_eq_zero haligned)
  unfold bitIndexFromAddr
  generalize (objBegin - l.begin) / kAlignment = p at hdvd ⊢
  have hle : p * kAlignment ≤ M * kAlignment := by omega
  have hp : p ≤ M := Nat.le_of_mul_le_mul_right hle hA
  have hrest : objSize ≤ (M - p) * kAlignment := by
    rw [Nat.sub_mul]
    omega
  have hwords : (objSize + kAlignment - 1) / kAlignment < M - p + 1 := by
    rw [Nat.div_lt_iff_lt_mul hA, Nat.add_mul, Nat.one_mul]
    omega
  omega

/-- `UpdateLivenessInfo` adds to every chunk the bytes of the object in it, when the chunks the
object covers past its first held nothing. -/
theorem chunkInfoVec_updateLivenessInfo (hsize : 0 < objSize)
    (hzero : ∀ j, l.bitIndexFromAddr kAlignment objBegin / 64 < j →
      64 * j + 64 < l.bitIndexFromAddr kAlignment objBegin + (objSize + kAlignment - 1) / kAlignment →
      l.chunkInfoVec j = 0) (j : Nat) :
    (l.updateLivenessInfo kAlignment objBegin objSize).1.chunkInfoVec j =
      l.chunkInfoVec j + kAlignment * (min (64 * j + 64)
        (l.bitIndexFromAddr kAlignment objBegin + (objSize + kAlignment - 1) / kAlignment) -
        max (64 * j) (l.bitIndexFromAddr kAlignment objBegin)) := by
  have hn1 : 1 ≤ (objSize + kAlignment - 1) / kAlignment := one_le_words hsize
  simp only [updateLivenessInfo, roundUp, setLiveWords_snd, chunkIdx_eq]
  generalize l.bitIndexFromAddr kAlignment objBegin = p at hzero ⊢
  generalize (objSize + kAlignment - 1) / kAlignment = n at hzero hn1 ⊢
  -- the first chunk takes `min n (64 - p % 64)` words, the loop the rest
  rw [Nat.mul_min_mul_right, ← Nat.sub_mul, fillChunks_fst _ (fun j' hj hj' => ?_) j]
  · by_cases hjc : j = p / 64
    · subst hjc
      rw [Function.update_self,
        show min (64 * (p / 64) + 64) (64 * (p / 64 + 1) + (n - min n (64 - p % 64))) -
          max (64 * (p / 64)) (64 * (p / 64 + 1)) = 0 by omega,
        show min (64 * (p / 64) + 64) (p + n) - max (64 * (p / 64)) p = min n (64 - p % 64) by
          omega]
      ring
    · rw [Function.update_of_ne hjc,
        show min (64 * j + 64) (64 * (p / 64 + 1) + (n - min n (64 - p % 64))) -
          max (64 * j) (64 * (p / 64 + 1)) = min (64 * j + 64) (p + n) - max (64 * j) p by omega]
  · rw [Function.update_of_ne (by omega)]
    exact hzero j' (by omega) (by omega)

/-- The entries `UpdateLivenessInfo` writes: from the object's first chunk on, one more than the
chunks after the first that the object reaches. -/
theorem written_updateLivenessInfo :
    (l.updateLivenessInfo kAlignment objBegin objSize).2 =
      List.range' (l.bitIndexFromAddr kAlignment objBegin / 64)
        (((objSize + kAlignment - 1) / kAlignment -
          min ((objSize + kAlignment - 1) / kAlignment)
            (64 - l.bitIndexFromAddr kAlignment objBegin % 64) - 1) / 64 + 2) := by
  simp only [updateLivenessInfo, roundUp, setLiveWords_snd, chunkIdx_eq]
  rw [Nat.mul_min_mul_right, ← Nat.sub_mul, fillChunks_snd, List.range'_succ]
  rfl

/-- An object in the last chunk of the space makes `UpdateLivenessInfo` write
`chunk_info_vec_[vector_length_]`: the statement after the loop adds what is left of the object,
`0` when it fits in its first chunk, to the entry after it. -/
theorem vectorLength_mem_updateLivenessInfo (hbegin : l.begin ≤ objBegin)
    (haligned : (objBegin - l.begin) % kAlignment = 0) (hsize : 0 < objSize)
    (hlast : (objBegin - l.begin) / kOffsetChunkSize kAlignment + 1 = l.vectorLength)
    (hinside : objBegin + objSize ≤ l.begin + l.vectorLength * kOffsetChunkSize kAlignment) :
    l.vectorLength ∈ (l.updateLivenessInfo kAlignment objBegin objSize).2 := by
  have hwords := l.words_le (M := 64 * l.vectorLength) hbegin haligned
    (by rwa [kOffsetChunkSize, ← Nat.mul_assoc, Nat.mul_comm l.vectorLength] at hinside)
  have hn1 : 1 ≤ (objSize + kAlignment - 1) / kAlignment := one_le_words hsize
  rw [chunkIdx_eq] at hlast
  rw [written_updateLivenessInfo, List.mem_range'_1]
  generalize l.bitIndexFromAddr kAlignment objBegin = p at hwords hlast ⊢
  generalize (objSize + kAlignment - 1) / kAlignment = n at hwords hn1 ⊢
  omega

/-- A 4096-byte space of 64-bit words has 8 chunks; a 16-byte object at 4000 is in the last. -/
theorem vectorLength_mem_updateLivenessInfo_page :
    8 ∈ ((⟨0, fun _ => 0#64, fun _ => 0, 8⟩ : Liveness).updateLivenessInfo 8 4000 16).2 :=
  vectorLength_mem_updateLivenessInfo _ (by decide) (by decide) (by decide) (by decide) (by decide)

end Object

end Liveness

/-! ### Marking a run of objects -/

/-- Two objects that do not overlap. -/
def Apart (o o' : Nat × Nat) : Prop := o.1 + o.2 ≤ o'.1 ∨ o'.1 + o'.2 ≤ o.1

namespace Liveness

variable (kAlignment) (l : Liveness)

/-- An object `(begin, size)` of the moving space: aligned, not empty, inside the chunks. -/
structure InSpace (o : Nat × Nat) : Prop where
  begin_le : l.begin ≤ o.1
  aligned : (o.1 - l.begin) % kAlignment = 0
  size_pos : 0 < o.2
  inside : o.1 + o.2 ≤ l.begin + l.vectorLength * kOffsetChunkSize kAlignment

/-- Word `q` of the space, at `begin + q * kAlignment`, lies in the object `o`. -/
def Covers (o : Nat × Nat) (q : Nat) : Prop :=
  o.1 ≤ l.begin + q * kAlignment ∧ l.begin + q * kAlignment < o.1 + o.2

instance (o : Nat × Nat) (q : Nat) : Decidable (l.Covers kAlignment o q) :=
  inferInstanceAs (Decidable (_ ∧ _))

/-- Every chunk of the space holds the live bytes of its bitmap word. -/
def Accounts : Prop :=
  ∀ j < l.vectorLength, l.chunkInfoVec j = l.liveBytesInBitmapWord kAlignment j

variable {kAlignment}

theorem liveBytesInBitmapWord_eq (j : Nat) :
    l.liveBytesInBitmapWord kAlignment j = (l.word j).cpop.toNat * kAlignment := by
  simp [liveBytesInBitmapWord, kBitmapWordsPerVectorWord]

/-- A chunk holds at most `kOffsetChunkSize` live bytes. -/
theorem liveBytesInBitmapWord_le (j : Nat) :
    l.liveBytesInBitmapWord kAlignment j ≤ kOffsetChunkSize kAlignment := by
  have hcount : (l.word j).cpop.toNat ≤ 64 := by
    rw [toNat_cpop_eq_length_setBits]
    exact length_setBits_le _
  rw [liveBytesInBitmapWord_eq, kOffsetChunkSize]
  exact Nat.mul_le_mul_right _ hcount

theorem not_covers_of_apart {o o' : Nat × Nat} (h : Apart o o') {q : Nat}
    (hq : l.Covers kAlignment o' q) : ¬ l.Covers kAlignment o q := by
  unfold Covers at hq ⊢
  unfold Apart at h
  omega

section Update

variable [NeZero kAlignment] {objBegin objSize : Nat}

@[simp] theorem begin_updateLivenessInfo :
    (l.updateLivenessInfo kAlignment objBegin objSize).1.begin = l.begin := rfl

@[simp] theorem vectorLength_updateLivenessInfo :
    (l.updateLivenessInfo kAlignment objBegin objSize).1.vectorLength = l.vectorLength := rfl

theorem word_updateLivenessInfo :
    (l.updateLivenessInfo kAlignment objBegin objSize).1.word =
      (l.setLiveWords kAlignment objBegin (roundUp objSize kAlignment)).1 := rfl

variable {o : Nat × Nat}

theorem InSpace.updateLivenessInfo (ho : l.InSpace kAlignment o) :
    (l.updateLivenessInfo kAlignment objBegin objSize).1.InSpace kAlignment o :=
  ⟨ho.begin_le, ho.aligned, ho.size_pos, ho.inside⟩

@[simp] theorem covers_updateLivenessInfo {q : Nat} :
    (l.updateLivenessInfo kAlignment objBegin objSize).1.Covers kAlignment o q ↔
      l.Covers kAlignment o q := Iff.rfl

/-- The words of an object of the space are its bit and the bits after it, one per
`kAlignment` bytes. -/
theorem covers_iff (ho : l.InSpace kAlignment o) (q : Nat) :
    l.Covers kAlignment o q ↔ l.bitIndexFromAddr kAlignment o.1 ≤ q ∧
      q < l.bitIndexFromAddr kAlignment o.1 + (o.2 + kAlignment - 1) / kAlignment := by
  have hA := NeZero.pos kAlignment
  have hdvd := Nat.div_mul_cancel (Nat.dvd_of_mod_eq_zero ho.aligned)
  have hbegin := ho.begin_le
  unfold Covers bitIndexFromAddr
  generalize (o.1 - l.begin) / kAlignment = p at hdvd ⊢
  -- past the object's first word, `t` words in lie in it iff `t * kAlignment < size`
  have hin : ∀ t, p + t < p + (o.2 + kAlignment - 1) / kAlignment ↔ t * kAlignment < o.2 := by
    intro t
    rw [Nat.add_lt_add_iff_left, ← Nat.add_one_le_iff, Nat.le_div_iff_mul_le hA, Nat.add_mul,
      Nat.one_mul]
    omega
  constructor
  · rintro ⟨h1, h2⟩
    have hpq : p ≤ q := Nat.le_of_mul_le_mul_right (by omega) hA
    obtain ⟨t, rfl⟩ := Nat.exists_eq_add_of_le hpq
    refine ⟨hpq, (hin t).2 ?_⟩
    rw [Nat.add_mul] at h2
    omega
  · rintro ⟨hpq, hq⟩
    obtain ⟨t, rfl⟩ := Nat.exists_eq_add_of_le hpq
    have ht := (hin t).1 hq
    rw [Nat.add_mul]
    omega

/-- An object of the space ends by the last word of its last chunk. -/
theorem InSpace.words_le (ho : l.InSpace kAlignment o) :
    l.bitIndexFromAddr kAlignment o.1 + (o.2 + kAlignment - 1) / kAlignment ≤
      64 * l.vectorLength := by
  have hinside := ho.inside
  rw [kOffsetChunkSize, ← Nat.mul_assoc, Nat.mul_comm l.vectorLength] at hinside
  exact l.words_le ho.begin_le ho.aligned hinside

/-- `UpdateLivenessInfo` sets the bits of the object's words and keeps the others. -/
theorem bitAt_updateLivenessInfo (ho : l.InSpace kAlignment o) (q : Nat) :
    bitAt (l.updateLivenessInfo kAlignment o.1 o.2).1.word q = true ↔
      bitAt l.word q = true ∨ l.Covers kAlignment o q := by
  have hn1 : 1 ≤ (o.2 + kAlignment - 1) / kAlignment := one_le_words ho.size_pos
  have hlast := l.bitIndexFromAddr_last ho.begin_le ho.aligned hn1
  rw [word_updateLivenessInfo, roundUp, l.bitAt_setLiveWords (by omega), hlast, covers_iff _ ho]
  simp only [Bool.or_eq_true, decide_eq_true_eq]
  generalize l.bitIndexFromAddr kAlignment o.1 = p
  generalize (o.2 + kAlignment - 1) / kAlignment = n at hn1 ⊢
  refine or_congr_right ?_
  omega

/-- `UpdateLivenessInfo` of an object whose words were clear keeps every chunk's account. -/
theorem accounts_updateLivenessInfo (ho : l.InSpace kAlignment o) (hacc : l.Accounts kAlignment)
    (hclear : ∀ q, l.Covers kAlignment o q → bitAt l.word q = false) :
    (l.updateLivenessInfo kAlignment o.1 o.2).1.Accounts kAlignment := by
  have hn1 : 1 ≤ (o.2 + kAlignment - 1) / kAlignment := one_le_words ho.size_pos
  have hlast := l.bitIndexFromAddr_last ho.begin_le ho.aligned hn1
  have hwords := ho.words_le
  have hclear' : ∀ q, l.bitIndexFromAddr kAlignment o.1 ≤ q →
      q ≤ l.bitIndexFromAddr kAlignment (o.1 + roundUp o.2 kAlignment - kAlignment) →
      bitAt l.word q = false := by
    intro q h1 h2
    rw [roundUp, hlast] at h2
    exact hclear q ((covers_iff _ ho q).2 ⟨h1, by omega⟩)
  -- the chunks the object covers whole past its first held no live word
  have hzero : ∀ j, l.bitIndexFromAddr kAlignment o.1 / 64 < j →
      64 * j + 64 < l.bitIndexFromAddr kAlignment o.1 + (o.2 + kAlignment - 1) / kAlignment →
      l.chunkInfoVec j = 0 := by
    intro j h1 h2
    rw [hacc j (by omega), liveBytesInBitmapWord_eq, toNat_cpop_eq_length_setBits,
      length_setBits_word, positions_eq_nil fun q hq1 hq2 => hclear' q (by omega) (by
        rw [roundUp, hlast]; omega), List.length_nil, Nat.zero_mul]
  intro j hj
  rw [vectorLength_updateLivenessInfo] at hj
  rw [chunkInfoVec_updateLivenessInfo _ ho.size_pos hzero, hacc j hj, liveBytesInBitmapWord_eq,
    liveBytesInBitmapWord_eq, word_updateLivenessInfo,
    l.cpop_setLiveWords (by rw [roundUp, hlast]; omega) hclear', roundUp, hlast,
    Nat.sub_add_cancel (by omega : 1 ≤ l.bitIndexFromAddr kAlignment o.1 + (o.2 + kAlignment - 1) / kAlignment)]
  ring

end Update

section Run

variable [NeZero kAlignment]

@[simp] theorem vectorLength_recordObjects :
    ∀ (l : Liveness) (objs : List (Nat × Nat)),
      (l.recordObjects kAlignment objs).1.vectorLength = l.vectorLength
  | _, [] => rfl
  | l, (b, s) :: objs => by
    rw [recordObjects, vectorLength_recordObjects _ objs, vectorLength_updateLivenessInfo]

/-- Over a run of `UpdateLivenessInfo` on objects of the space that do not overlap and whose
words were clear, every chunk keeps its account, and the bitmap gains the objects' words. By
induction on the objects: the later objects stay clear, each being apart from the first. -/
theorem recordObjects_inv : ∀ (l : Liveness) (objs : List (Nat × Nat)),
    l.Accounts kAlignment → (∀ o ∈ objs, l.InSpace kAlignment o) → objs.Pairwise Apart →
    (∀ o ∈ objs, ∀ q, l.Covers kAlignment o q → bitAt l.word q = false) →
    (l.recordObjects kAlignment objs).1.Accounts kAlignment ∧
      ∀ q, bitAt (l.recordObjects kAlignment objs).1.word q = true ↔
        bitAt l.word q = true ∨ ∃ o ∈ objs, l.Covers kAlignment o q
  | l, [], hacc, _, _, _ => ⟨hacc, fun q => by simp [recordObjects]⟩
  | l, (b, s) :: objs, hacc, hobjs, hdisj, hclear => by
    obtain ⟨ho, hobjs'⟩ := List.forall_mem_cons.1 hobjs
    obtain ⟨hapart, hdisj'⟩ := List.pairwise_cons.1 hdisj
    obtain ⟨hclear₀, hclear'⟩ := List.forall_mem_cons.1 hclear
    have hbit := l.bitAt_updateLivenessInfo ho
    have hclear₁ : ∀ o ∈ objs, ∀ q, l.Covers kAlignment o q →
        bitAt (l.updateLivenessInfo kAlignment b s).1.word q = false := by
      intro o ho' q hq
      have hout := l.not_covers_of_apart (hapart o ho') hq
      rw [← Bool.not_eq_true, hbit q, hclear' o ho' q hq]
      simpa using hout
    obtain ⟨hacc', hbits'⟩ := recordObjects_inv _ objs (l.accounts_updateLivenessInfo ho hacc hclear₀)
      (fun o ho' => (hobjs' o ho').updateLivenessInfo) hdisj' hclear₁
    refine ⟨hacc', fun q => ?_⟩
    rw [recordObjects, hbits', hbit q]
    simp [or_assoc]

/-- Marking records disjoint objects of the space, from a cleared bitmap and vector: the bitmap
then holds exactly the objects' words, and every chunk its live bytes, which are at most
`kOffsetChunkSize` (the `DCHECK` of `PrepareForCompaction`). -/
theorem recordObjects_spec (l : Liveness) (hword : ∀ j, l.word j = 0#64)
    (hinfo : ∀ j < l.vectorLength, l.chunkInfoVec j = 0) (objs : List (Nat × Nat))
    (hobjs : ∀ o ∈ objs, l.InSpace kAlignment o) (hdisj : objs.Pairwise Apart) :
    (∀ q, bitAt (l.recordObjects kAlignment objs).1.word q = true ↔
        ∃ o ∈ objs, l.Covers kAlignment o q) ∧
      ∀ j < l.vectorLength, (l.recordObjects kAlignment objs).1.chunkInfoVec j =
          (l.recordObjects kAlignment objs).1.liveBytesInBitmapWord kAlignment j ∧
        (l.recordObjects kAlignment objs).1.liveBytesInBitmapWord kAlignment j ≤
          kOffsetChunkSize kAlignment := by
  have hclear : ∀ q, bitAt l.word q = false := fun q => by simp [bitAt, hword]
  have hacc : l.Accounts kAlignment := fun j hj => by
    rw [hinfo j hj, liveBytesInBitmapWord_eq, hword]
    simp
  obtain ⟨hacc', hbits⟩ := recordObjects_inv l objs hacc hobjs hdisj fun _ _ q _ => hclear q
  refine ⟨fun q => by simpa [hclear q] using hbits q, fun j hj => ⟨hacc' j ?_, liveBytesInBitmapWord_le _ j⟩⟩
  rwa [vectorLength_recordObjects]

end Run

end Liveness

/-! ### Reading the bitmap back -/

/-- The loop over the runs of a word finds its `n`-th set bit, counted from `j`, when the fuel
covers the word's set bits. By induction on the fuel: a round consumes a run of zeros and a run
of ones, at least one set bit. -/
theorem findNthInWord_eq : ∀ (fuel : Nat) (word : BitVec 64) (j n : Nat),
    (setBits word).length ≤ fuel → findNthInWord fuel word j n = ((setBits word)[n]?).map (j + ·)
  | 0, word, j, n, hfuel => by
    rw [List.length_eq_zero_iff.1 (Nat.le_zero.1 hfuel)]
    rfl
  | fuel + 1, word, j, n, hfuel => by
    rw [findNthInWord]
    by_cases hw : word = 0#64
    · rw [if_pos hw, hw, setBits_zero]
      rfl
    rw [if_neg hw]
    dsimp only
    have hsplit := setBits_eq_map_ctz word
    have hbit0 : (word >>> word.ctz.toNat).getLsbD 0 = true := by
      rw [BitVec.getLsbD_ushiftRight, Nat.add_zero]
      exact BitVec.getLsbD_true_ctz_of_ne_zero hw
    generalize word.ctz.toNat = z at hsplit hbit0 ⊢
    generalize word >>> z = w1 at hsplit hbit0 ⊢
    have hpos := ctz_not_pos hbit0
    have hrun := setBits_eq_range_append w1
    generalize (~~~w1).ctz.toNat = o at hpos hrun ⊢
    have hlen : (setBits word).length = o + (setBits (w1 >>> o)).length := by
      rw [hsplit, hrun]
      simp
    rw [hsplit, hrun, List.getElem?_map]
    by_cases hn : n < o
    · -- the `n`-th set bit is in this run of ones
      rw [if_pos hn, List.getElem?_append_left (by simpa using hn), List.getElem?_range hn]
      simp only [Option.map_some]
      rw [Nat.add_assoc]
    · rw [if_neg hn, findNthInWord_eq fuel _ _ _ (by omega),
        List.getElem?_append_right (by simpa using hn), List.length_range, List.getElem?_map,
        Option.map_map, Option.map_map]
      congr 1
      funext t
      simp only [Function.comp_apply]
      omega

namespace Liveness

variable (l : Liveness)

/-- `FindNthLiveWordOffset(chunk_idx, n)` is the `n`-th set bit of the chunk's word, lowest
first, and fails past the last. -/
theorem findNthLiveWordOffset_eq (chunkIdx n : Nat) :
    l.findNthLiveWordOffset chunkIdx n = (setBits (l.word chunkIdx))[n]? := by
  rw [findNthLiveWordOffset, kBitmapWordsPerVectorWord, Nat.mul_one]
  split
  · next hones =>
    -- a word of all ones: its set bits are `0, …, 63`
    have hall : setBits (l.word chunkIdx) = List.range 64 := by
      rw [setBits, List.filter_eq_self]
      intro i hi
      have h := congrArg (·.getLsbD i) hones
      simp only [BitVec.getLsbD_not, BitVec.getLsbD_zero, List.mem_range.1 hi, decide_true,
        Bool.true_and, Bool.not_eq_false'] at h
      exact h
    rw [hall]
    split
    · next hn => rw [List.getElem?_range hn]
    · next hn => rw [List.getElem?_eq_none (by simpa using hn)]
  · rw [findNthInWord_eq 64 _ 0 n (length_setBits_le _)]
    simp

/-- `CountLiveWordsUpto(bit_idx)` counts the set bits of the chunk of `bit_idx` below it. -/
theorem countLiveWordsUpto_eq (bitIdx : Nat) :
    l.countLiveWordsUpto bitIdx = (positions (bitAt l.word) (64 * (bitIdx / 64)) bitIdx).length := by
  have h := (holdsRange_word l.word (bitIdx / 64)).and
    (fun s _ => getLsbD_lowMask_iff (Nat.mod_lt bitIdx (by decide : 0 < 64)) s)
  rw [Nat.add_zero, Nat.max_self, Nat.min_eq_right (by omega), Nat.div_add_mod] at h
  rw [countLiveWordsUpto, toNat_cpop_eq_length_setBits, ← h.map_setBits (le_refl _) (by omega),
    List.length_map]

end Liveness

end MarkCompact

end Art
