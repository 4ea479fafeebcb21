import Art.Lib.BitScan
import Art.Lib.Trace

/-!
# The space bitmap (`runtime/gc/accounting/space_bitmap.h`, `space_bitmap-inl.h`)

A `SpaceBitmap<kAlignment>` marks the objects of a heap: bit `p % 64` of word `p / 64` marks
the address `heap_begin_ + p * kAlignment` (`OffsetToIndex`, `OffsetBitIndex`; `test_addr`).
The structure carries what `Create` establishes: the words of the bitmap cover
`[HeapBegin(), HeapLimit())`.

`VisitMarkedRange` walks a range a word at a time: the left edge word masked below the first
bit, the full words in between, and the right edge word masked from the last bit on, each word's
set bits lowest first. Its run is written as the list of its loads of bitmap words and its calls
of the visitor (`Event`), in `Except` for the return of `VisitMarkedRange<true>` after its first
call (`Art.Lib.Trace`).

* The visitor is called exactly on the marked addresses of the range, in increasing order, as by
  the loop kept under `#if 0` (`visits_visitMarkedRange`); with `kVisitOnce`, on the first of
  them only (`visits_visitMarkedRange_once`).
* Every word loaded lies in the bitmap when the range starts below `HeapLimit()`
  (`loads_visitMarkedRange_lt`). The left edge is loaded even for an empty range: at
  `HeapLimit()` of a bitmap whose heap fills its last word, the word loaded is the one past the
  bitmap (`loads_visitMarkedRange_heapLimit`).
* `FindPrecedingObject` returns the highest marked address of its range, or none
  (`findPrecedingObject_eq`), and loads only words of the bitmap
  (`loads_findPrecedingObject_lt`).
-/

namespace Art

open BitStream BitScan

namespace SpaceBitmap

section Layout

variable (kAlignment : Nat)

/-- `OffsetToIndex`, with 64 bits a word (`kBitsPerIntPtrT`). -/
def offsetToIndex (offset : Nat) : Nat := offset / kAlignment / 64

/-- `IndexToOffset`. -/
def indexToOffset (index : Nat) : Nat := index * kAlignment * 64

/-- `OffsetBitIndex`. -/
def offsetBitIndex (offset : Nat) : Nat := offset / kAlignment % 64

/-- `OffsetToMask`. -/
def offsetToMask (offset : Nat) : BitVec 64 := 1#64 <<< offsetBitIndex kAlignment offset

/-- `RoundUp(x, n)`, `(x + n - 1) & -n` for a power of two `n`. -/
def roundUp (x n : Nat) : Nat := (x + n - 1) / n * n

/-- `ComputeBitmapSize`: the bytes of the words that cover `capacity` bytes of heap. -/
def computeBitmapSize (capacity : Nat) : Nat :=
  let kBytesCoveredPerWord := kAlignment * 64
  roundUp capacity kBytesCoveredPerWord / kBytesCoveredPerWord * 8

end Layout

end SpaceBitmap

/-- A `SpaceBitmap<kAlignment>` on a 64-bit target. `word j` is what a load of
`bitmap_begin_[j]` reads, also past the `bitmap_size_` bytes of the bitmap. The heap begins at an
aligned address, and the bitmap covers the heap. -/
structure SpaceBitmap (kAlignment : Nat) where
  heapBegin : Nat
  heapLimit : Nat
  bitmapSize : Nat
  word : Nat → BitVec 64
  alignment_pos : 0 < kAlignment
  heapBegin_aligned : heapBegin % kAlignment = 0
  heapBegin_le : heapBegin ≤ heapLimit
  covers : heapLimit - heapBegin ≤ SpaceBitmap.indexToOffset kAlignment (bitmapSize / 8)

namespace SpaceBitmap

variable {kAlignment : Nat}

theorem roundUp_div {x n : Nat} (hn : 0 < n) : roundUp x n / n = (x + n - 1) / n := by
  rw [roundUp, Nat.mul_div_cancel _ hn]

/-- `SpaceBitmap::Create(name, heap_begin, heap_capacity)`, over the memory `word`. -/
def create (heapBegin heapCapacity : Nat) (word : Nat → BitVec 64) (hA : 0 < kAlignment)
    (hbegin : heapBegin % kAlignment = 0) : SpaceBitmap kAlignment where
  heapBegin := heapBegin
  heapLimit := heapBegin + heapCapacity
  bitmapSize := computeBitmapSize kAlignment heapCapacity
  word := word
  alignment_pos := hA
  heapBegin_aligned := hbegin
  heapBegin_le := Nat.le_add_right _ _
  covers := by
    have hk : 0 < kAlignment * 64 := by omega
    have hwords : computeBitmapSize kAlignment heapCapacity / 8 =
        (heapCapacity + kAlignment * 64 - 1) / (kAlignment * 64) := by
      rw [computeBitmapSize, roundUp_div hk, Nat.mul_div_cancel _ (by omega)]
    rw [hwords, indexToOffset, Nat.add_sub_cancel_left, Nat.mul_assoc]
    generalize kAlignment * 64 = k at hk ⊢
    -- rounding up to a multiple of `k` does not go below `heapCapacity`
    have hdiv := Nat.div_add_mod' (heapCapacity + k - 1) k
    have hmod := Nat.mod_lt (heapCapacity + k - 1) hk
    omega

/-- What a run of `VisitMarkedRange` does that can be seen from outside: a load of
`bitmap_begin_[index]`, and a call of the visitor. -/
inductive Event
  | load (index : Nat)
  | visit (obj : Nat)
  deriving DecidableEq, Repr

namespace Event

def isVisit : Event → Bool
  | visit _ => true
  | load _ => false

def visited : Event → Option Nat
  | visit obj => some obj
  | load _ => none

def loaded : Event → Option Nat
  | load index => some index
  | visit _ => none

theorem isVisit_eq (e : Event) : e.isVisit = e.visited.isSome := by
  cases e <;> rfl

end Event

/-- The objects visited by a run. -/
def visits (es : List Event) : List Nat := es.filterMap Event.visited

/-- The words loaded by a run. -/
def loads (es : List Event) : List Nat := es.filterMap Event.loaded

variable (b : SpaceBitmap kAlignment)

/-- `Test(obj)`. -/
def test (obj : Nat) : Bool :=
  let offset := obj - b.heapBegin
  b.word (offsetToIndex kAlignment offset) &&& offsetToMask kAlignment offset != 0#64

/-- The address that bit `p` of the bitmap marks. -/
def addr (p : Nat) : Nat := b.heapBegin + p * kAlignment

/-- `IndexToOffset(index) + heap_begin_`, the address of bit 0 of word `index`. -/
def ptrBase (index : Nat) : Nat := indexToOffset kAlignment index + b.heapBegin

/-! ### `VisitMarkedRange` -/

/-- The loop over the set bits of the word `w` loaded from `index`, lowest first:
`do { shift = CTZ(w); visitor(ptr_base + shift * kAlignment); if (kVisitOnce) return;
w ^= 1 << shift; } while (w != 0)`, under `if (w != 0)`. -/
def visitWord (kVisitOnce : Bool) (index : Nat) (es : List Event) (w : BitVec 64) :
    Except (List Event) (List Event) :=
  foldSetBits (fun r shift => r >>= fun es =>
      Trace.emit Event.isVisit kVisitOnce es (.visit (b.ptrBase index + shift * kAlignment)))
    (.ok es) w

/-- The middle, full words: `for (i = index_start + 1; i < index_end; ++i)`. -/
def visitMiddle (kVisitOnce : Bool) (indexStart indexEnd : Nat) (es : List Event) :
    Except (List Event) (List Event) :=
  (List.range' (indexStart + 1) (indexEnd - (indexStart + 1))).foldlM
    (fun es i => b.visitWord kVisitOnce i (es ++ [.load i]) (b.word i)) es

/-- `VisitMarkedRange` once the words and bits of the two ends of the range are known. -/
def visitEdges (kVisitOnce : Bool) (indexStart indexEnd bitStart bitEnd : Nat) :
    Except (List Event) (List Event) :=
  -- the left edge is loaded whatever the range
  let leftEdge := b.word indexStart &&& ~~~((1#64 <<< bitStart) - 1#64)
  let es := [Event.load indexStart]
  let visitRightEdge (es : List Event) (rightEdge : BitVec 64) :=
    b.visitWord kVisitOnce indexEnd es (rightEdge &&& ((1#64 <<< bitEnd) - 1#64))
  if indexStart < indexEnd then do
    let es ← b.visitWord kVisitOnce indexStart es leftEdge
    let es ← b.visitMiddle kVisitOnce indexStart indexEnd es
    -- `bit_end == 0`: the right edge is not read, it may lie after the end of the bitmap
    if bitEnd = 0 then visitRightEdge es 0#64
    else visitRightEdge (es ++ [.load indexEnd]) (b.word indexEnd)
  else
    visitRightEdge es leftEdge

/-- `VisitMarkedRange<kVisitOnce>(visit_begin, visit_end, visitor)`: its loads and calls. -/
def visitMarkedRange (kVisitOnce : Bool) (visitBegin visitEnd : Nat) : List Event :=
  let offsetStart := visitBegin - b.heapBegin
  let offsetEnd := visitEnd - b.heapBegin
  Trace.result (b.visitEdges kVisitOnce (offsetToIndex kAlignment offsetStart)
    (offsetToIndex kAlignment offsetEnd) (offsetStart / kAlignment % 64)
    (offsetEnd / kAlignment % 64))

/-- The loop kept under `#if 0`:
`for (i = visit_begin; i < visit_end; i += kAlignment) if (Test(i)) visitor(i);`. -/
def visitMarkedRangeNaive (visitBegin visitEnd : Nat) : List Nat :=
  (List.range' visitBegin ((visitEnd - visitBegin + kAlignment - 1) / kAlignment) kAlignment).filter
    b.test

/-! ### `FindPrecedingObject` -/

/-- The loop `while (index_start > index_end)` of `FindPrecedingObject`, `n = index_start -
index_end` times at most, from `word`, the part of word `indexStart` still to search; then the
left edge, masked with `maskEnd`. The object found, and the words loaded. -/
def findPrecedingLoop (indexEnd : Nat) (maskEnd : BitVec 64) :
    Nat → Nat → BitVec 64 → List Nat → Option Nat × List Nat
  | n + 1, indexStart, word, loaded =>
    if word ≠ 0#64 then
      (some (b.ptrBase indexStart + (64 - word.clz.toNat - 1) * kAlignment), loaded)
    else
      findPrecedingLoop indexEnd maskEnd n (indexStart - 1) (b.word (indexStart - 1))
        (loaded ++ [indexStart - 1])
  | 0, _, word, loaded =>
    let word := word &&& maskEnd
    if word ≠ 0#64 then
      (some (b.ptrBase indexEnd + (64 - word.clz.toNat - 1) * kAlignment), loaded)
    else (none, loaded)

/-- `FindPrecedingObject(visit_begin, visit_end)`: the object found in
`[max(heap_begin_, visit_end), visit_begin]`, and the words loaded. -/
def findPrecedingObject (visitBegin visitEnd : Nat) : Option Nat × List Nat :=
  let visitEnd := max b.heapBegin visitEnd
  let offsetStart := visitBegin - b.heapBegin
  let offsetEnd := visitEnd - b.heapBegin
  let indexStart := offsetToIndex kAlignment offsetStart
  let indexEnd := offsetToIndex kAlignment offsetEnd
  -- `visit_begin` could be the first word of the object looked for
  let rightEdgeMask := offsetToMask kAlignment offsetStart
  let word := b.word indexStart &&& (rightEdgeMask ||| (rightEdgeMask - 1#64))
  b.findPrecedingLoop indexEnd (~~~(offsetToMask kAlignment offsetEnd - 1#64))
    (indexStart - indexEnd) indexStart word [indexStart]

/-! ### Addresses and words -/

theorem ptrBase_add (index s : Nat) :
    b.ptrBase index + s * kAlignment = b.addr (64 * index + s) := by
  simp only [ptrBase, addr, indexToOffset]
  ring

/-- `Test` reads the bit of the address it is given. -/
theorem test_addr (p : Nat) : b.test (b.addr p) = bitAt b.word p := by
  have hA := b.alignment_pos
  have hoff : b.addr p - b.heapBegin = p * kAlignment := by rw [addr]; omega
  simp only [test, hoff, offsetToIndex, offsetToMask, offsetBitIndex, Nat.mul_div_cancel _ hA]
  exact and_shiftLeft_one_ne_zero _ (Nat.mod_lt _ (by omega))

theorem addr_div {a : Nat} (ha : b.heapBegin ≤ a) (haA : a % kAlignment = 0) :
    b.addr ((a - b.heapBegin) / kAlignment) = a := by
  have hdvd : kAlignment ∣ a - b.heapBegin :=
    Nat.dvd_of_mod_eq_zero (Nat.sub_mod_eq_zero_of_mod_eq (by rw [haA, b.heapBegin_aligned]))
  rw [addr, Nat.div_mul_cancel hdvd]
  omega

section Bounds

variable {off n : Nat}

theorem offsetToIndex_lt (hA : 0 < kAlignment) (h : off < indexToOffset kAlignment n) :
    offsetToIndex kAlignment off < n := by
  rw [offsetToIndex, Nat.div_lt_iff_lt_mul (by omega), Nat.div_lt_iff_lt_mul hA]
  rw [indexToOffset] at h
  rwa [Nat.mul_right_comm]

theorem offsetToIndex_le (h : off ≤ indexToOffset kAlignment n) :
    offsetToIndex kAlignment off ≤ n := by
  have hle : off / kAlignment ≤ n * 64 :=
    Nat.div_le_of_le_mul (by rw [indexToOffset, Nat.mul_right_comm] at h; rwa [Nat.mul_comm])
  rw [offsetToIndex]
  omega

/-- An offset within the bitmap's words that is not the first bit of a word lies in a word
before word `n`. -/
theorem offsetToIndex_lt_of_bit (h : off ≤ indexToOffset kAlignment n)
    (hbit : off / kAlignment % 64 ≠ 0) : offsetToIndex kAlignment off < n := by
  have hle : off / kAlignment ≤ n * 64 :=
    Nat.div_le_of_le_mul (by rw [indexToOffset, Nat.mul_right_comm] at h; rwa [Nat.mul_comm])
  rw [offsetToIndex]
  omega

end Bounds

/-! ### The run of `VisitMarkedRange` -/

/-- The calls made by the loop over the word `w` loaded from `index`. -/
def wordEvents (index : Nat) (w : BitVec 64) : List Event :=
  (setBits w).map fun shift => .visit (b.ptrBase index + shift * kAlignment)

/-- The loads and calls of `VisitMarkedRange<false>`, once the two ends are known. -/
def edgesTrace (indexStart indexEnd bitStart bitEnd : Nat) : List Event :=
  let leftEdge := b.word indexStart &&& ~~~((1#64 <<< bitStart) - 1#64)
  let rightMask := (1#64 <<< bitEnd) - 1#64
  if indexStart < indexEnd then
    .load indexStart :: b.wordEvents indexStart leftEdge ++
      (List.range' (indexStart + 1) (indexEnd - (indexStart + 1))).flatMap
        (fun i => .load i :: b.wordEvents i (b.word i)) ++
      (if bitEnd = 0 then []
        else .load indexEnd :: b.wordEvents indexEnd (b.word indexEnd &&& rightMask))
  else .load indexStart :: b.wordEvents indexEnd (leftEdge &&& rightMask)

/-- The loads and calls of `VisitMarkedRange<false>(visit_begin, visit_end)`. -/
def visitMarkedRangeTrace (visitBegin visitEnd : Nat) : List Event :=
  let offsetStart := visitBegin - b.heapBegin
  let offsetEnd := visitEnd - b.heapBegin
  b.edgesTrace (offsetToIndex kAlignment offsetStart) (offsetToIndex kAlignment offsetEnd)
    (offsetStart / kAlignment % 64) (offsetEnd / kAlignment % 64)

section Run

variable {k : Bool}

theorem logs_visitWord (index : Nat) (w : BitVec 64) :
    Trace.Logs Event.isVisit k (b.visitWord k index · w) (b.wordEvents index w) := by
  have hfun : (b.visitWord k index · w) = fun es => (setBits w).foldlM
      (fun es shift => Trace.emit Event.isVisit k es (.visit (b.ptrBase index + shift * kAlignment)))
      es := by
    funext es
    rw [visitWord, foldSetBits_eq, Trace.foldl_bind_eq_foldlM]
    rfl
  rw [hfun, wordEvents, List.map_eq_flatMap]
  exact Trace.logs_foldlM (fun _ => Trace.logs_emit _) _

theorem logs_load_visitWord (i : Nat) (w : BitVec 64) :
    Trace.Logs Event.isVisit k (fun es => b.visitWord k i (es ++ [.load i]) w)
      (.load i :: b.wordEvents i w) := by
  have h := (Trace.logs_append (rfl : [Event.load i].any Event.isVisit = false)).bind
    (b.logs_visitWord (k := k) i w)
  simpa only [pure_bind, List.singleton_append] using h

theorem logs_visitMiddle (indexStart indexEnd : Nat) :
    Trace.Logs Event.isVisit k (b.visitMiddle k indexStart indexEnd)
      ((List.range' (indexStart + 1) (indexEnd - (indexStart + 1))).flatMap
        (fun i => .load i :: b.wordEvents i (b.word i))) :=
  Trace.logs_foldlM (fun i => b.logs_load_visitWord i (b.word i)) _

/-- The run of `VisitMarkedRange` is its full trace, cut after the first call with
`kVisitOnce`. -/
theorem visitEdges_eq (iS iE bS bE : Nat) :
    b.visitEdges k iS iE bS bE = Trace.logged Event.isVisit k (b.edgesTrace iS iE bS bE) := by
  have hload : Trace.Logs Event.isVisit k (fun es => pure (es ++ [Event.load iS]))
      [Event.load iS] := Trace.logs_append rfl
  unfold visitEdges edgesTrace
  by_cases hlt : iS < iE
  · simp only [hlt, if_true]
    by_cases h0 : bE = 0
    · have h := (hload.bind
        ((b.logs_visitWord iS (b.word iS &&& ~~~((1#64 <<< bS) - 1#64))).bind
        ((b.logs_visitMiddle iS iE).bind
        (b.logs_visitWord iE (0#64 &&& ((1#64 <<< bE) - 1#64)))))).run
      simp only [pure_bind, List.nil_append] at h
      simp only [h0, ↓reduceIte] at h ⊢
      rw [h]
      -- the right edge is not read, and no bit of it is visited
      simp only [wordEvents, BitVec.zero_and, setBits_zero, List.map_nil, List.append_nil,
        List.cons_append, List.nil_append]
    · have h := (hload.bind
        ((b.logs_visitWord iS (b.word iS &&& ~~~((1#64 <<< bS) - 1#64))).bind
        ((b.logs_visitMiddle iS iE).bind
        (b.logs_load_visitWord iE (b.word iE &&& ((1#64 <<< bE) - 1#64)))))).run
      simp only [pure_bind, List.nil_append] at h
      simp only [h0, ↓reduceIte, h, List.cons_append, List.nil_append, List.append_assoc]
  · simp only [hlt, if_false]
    have h := (hload.bind (b.logs_visitWord iE
      (b.word iS &&& ~~~((1#64 <<< bS) - 1#64) &&& ((1#64 <<< bE) - 1#64)))).run
    simpa only [pure_bind, List.nil_append, List.singleton_append] using h

theorem visitMarkedRange_eq (visitBegin visitEnd : Nat) :
    b.visitMarkedRange k visitBegin visitEnd =
      if k then Trace.cutAfter Event.isVisit (b.visitMarkedRangeTrace visitBegin visitEnd)
      else b.visitMarkedRangeTrace visitBegin visitEnd := by
  rw [visitMarkedRange, visitEdges_eq, Trace.result_logged, visitMarkedRangeTrace]

end Run

/-! ### What `VisitMarkedRange` visits -/

theorem visits_wordEvents (i : Nat) (w : BitVec 64) :
    visits (b.wordEvents i w) = ((setBits w).map (64 * i + ·)).map b.addr := by
  rw [visits, wordEvents, List.filterMap_map, List.map_map]
  have hf : (Event.visited ∘ fun shift => Event.visit (b.ptrBase i + shift * kAlignment)) =
      some ∘ (b.addr ∘ (64 * i + ·)) := by
    funext shift
    simp only [Function.comp, Event.visited, ptrBase_add]
  rw [hf, List.filterMap_eq_map]

theorem visits_load_cons (i : Nat) (es : List Event) : visits (.load i :: es) = visits es := rfl

theorem visits_append (es es' : List Event) : visits (es ++ es') = visits es ++ visits es' :=
  List.filterMap_append

/-- The set bits of a word that holds `[lo, hi)` of word `i`, visited from word `i`. -/
theorem visits_wordEvents_of_holdsRange {i lo hi : Nat} {w : BitVec 64}
    (hw : HoldsRange b.word i lo hi w) (hlo : 64 * i ≤ lo) (hhi : hi ≤ 64 * i + 64) :
    visits (b.wordEvents i w) = (positions (bitAt b.word) lo hi).map b.addr := by
  rw [visits_wordEvents, hw.map_setBits hlo hhi]

/-- The left edge holds the bits of its word from `bit_start` on. -/
theorem holdsRange_leftEdge {i bS : Nat} (hbS : bS < 64) :
    HoldsRange b.word i (64 * i + bS) (64 * i + 64) (b.word i &&& ~~~((1#64 <<< bS) - 1#64)) := by
  have h := (holdsRange_word b.word i).and (fun s hs => getLsbD_not_lowMask_iff hbS hs)
  rwa [Nat.max_eq_right (by omega), Nat.min_self] at h

/-- The trace visits the marked positions from `64 * index_start + bit_start` to
`64 * index_end + bit_end`, in order. -/
theorem visits_edgesTrace {iS iE bS bE : Nat} (hbS : bS < 64) (hbE : bE < 64) (hle : iS ≤ iE)
    (hsame : iS = iE → bS ≤ bE) :
    visits (b.edgesTrace iS iE bS bE) =
      (positions (bitAt b.word) (64 * iS + bS) (64 * iE + bE)).map b.addr := by
  unfold edgesTrace
  by_cases hlt : iS < iE
  · simp only [hlt, if_true, List.cons_append, visits_load_cons, visits_append]
    have hleft := b.visits_wordEvents_of_holdsRange (holdsRange_leftEdge b (i := iS) hbS)
      (by omega) (le_refl _)
    -- the middle words, each whole
    have hmiddle : visits ((List.range' (iS + 1) (iE - (iS + 1))).flatMap
        (fun i => .load i :: b.wordEvents i (b.word i))) =
        (positions (bitAt b.word) (64 * iS + 64) (64 * iE)).map b.addr := by
      rw [visits, List.filterMap_flatMap]
      have hword : ∀ i, (Event.load i :: b.wordEvents i (b.word i)).filterMap Event.visited =
          (positions (bitAt b.word) (64 * i) (64 * i + 64)).map b.addr := fun i =>
        b.visits_wordEvents_of_holdsRange (holdsRange_word b.word i) (le_refl _) (le_refl _)
      simp only [hword, ← List.map_flatMap, positions_words]
      rw [show 64 * (iS + 1) = 64 * iS + 64 by ring, show iS + 1 + (iE - (iS + 1)) = iE by omega]
    have hright : visits (if bE = 0 then [] else .load iE :: b.wordEvents iE
        (b.word iE &&& ((1#64 <<< bE) - 1#64))) =
        (positions (bitAt b.word) (64 * iE) (64 * iE + bE)).map b.addr := by
      by_cases h0 : bE = 0
      · simp [h0, visits, positions_self]
      · have h := (holdsRange_word b.word iE).and (fun s _ => getLsbD_lowMask_iff hbE s)
        rw [Nat.add_zero, Nat.max_self, Nat.min_eq_right (by omega)] at h
        simp only [h0, if_false, visits_load_cons]
        exact b.visits_wordEvents_of_holdsRange h (le_refl _) (by omega)
    rw [hleft, hmiddle, hright, ← List.map_append, ← List.map_append,
      positions_append (by omega) (by omega), positions_append (by omega) (by omega)]
  · have hiS : iS = iE := by omega
    subst hiS
    have h := (holdsRange_leftEdge b (i := iS) hbS).and (fun s _ => getLsbD_lowMask_iff hbE s)
    rw [Nat.add_zero, Nat.max_eq_left (by omega), Nat.min_eq_right (by omega)] at h
    simp only [hlt, if_false, visits_load_cons]
    exact b.visits_wordEvents_of_holdsRange h (by omega) (by omega)

theorem range'_addr (p n : Nat) :
    List.range' (b.addr p) n kAlignment = (List.range' p n).map b.addr := by
  induction n generalizing p with
  | zero => rfl
  | succ n ih =>
    rw [List.range'_succ, List.range'_succ, List.map_cons, ← ih (p + 1)]
    congr 2
    rw [addr, addr, Nat.succ_mul, Nat.add_assoc]

/-- The naive loop from an aligned address tests the positions from that address's on, one
for each address below `visit_end`. -/
theorem visitMarkedRangeNaive_eq {visitBegin : Nat} (visitEnd : Nat)
    (hvb : b.heapBegin ≤ visitBegin) (hvbA : visitBegin % kAlignment = 0) :
    b.visitMarkedRangeNaive visitBegin visitEnd =
      (positions (bitAt b.word) ((visitBegin - b.heapBegin) / kAlignment)
        ((visitBegin - b.heapBegin) / kAlignment +
          (visitEnd - visitBegin + kAlignment - 1) / kAlignment)).map b.addr := by
  have htest : b.test ∘ b.addr = bitAt b.word := funext b.test_addr
  rw [visitMarkedRangeNaive]
  generalize (visitEnd - visitBegin + kAlignment - 1) / kAlignment = n
  nth_rewrite 1 [← b.addr_div hvb hvbA]
  rw [range'_addr, List.filter_map, htest, positions, Nat.add_sub_cancel_left]

/-- An aligned address is a whole number of alignment units past the heap's beginning. -/
theorem sub_heapBegin_eq {a : Nat} (ha : b.heapBegin ≤ a) (haA : a % kAlignment = 0) :
    a - b.heapBegin = (a - b.heapBegin) / kAlignment * kAlignment := by
  have h := b.addr_div ha haA
  rw [addr] at h
  omega

/-- The naive loop over an aligned range runs once for each position of the range. -/
theorem div_add_count {vb ve : Nat} (hvb : b.heapBegin ≤ vb) (hle : vb ≤ ve)
    (hvbA : vb % kAlignment = 0) (hveA : ve % kAlignment = 0) :
    (vb - b.heapBegin) / kAlignment + (ve - vb + kAlignment - 1) / kAlignment =
      (ve - b.heapBegin) / kAlignment := by
  have hA := b.alignment_pos
  have hs := b.sub_heapBegin_eq hvb hvbA
  have he := b.sub_heapBegin_eq (le_trans hvb hle) hveA
  generalize (vb - b.heapBegin) / kAlignment = pS at hs ⊢
  generalize (ve - b.heapBegin) / kAlignment = pE at he ⊢
  have hmono : pS ≤ pE := Nat.le_of_mul_le_mul_right (by omega : pS * kAlignment ≤ pE * kAlignment) hA
  have hdiff : ve - vb + kAlignment - 1 = kAlignment - 1 + (pE - pS) * kAlignment := by
    rw [Nat.sub_mul]
    omega
  rw [hdiff, Nat.add_mul_div_right _ _ hA, Nat.div_eq_of_lt (by omega), Nat.zero_add]
  omega

/-- The full trace visits what the naive loop visits. -/
theorem visits_visitMarkedRangeTrace {vb ve : Nat} (hvb : b.heapBegin ≤ vb) (hle : vb ≤ ve)
    (hvbA : vb % kAlignment = 0) (hveA : ve % kAlignment = 0) :
    visits (b.visitMarkedRangeTrace vb ve) = b.visitMarkedRangeNaive vb ve := by
  have hA := b.alignment_pos
  have hmono : (vb - b.heapBegin) / kAlignment ≤ (ve - b.heapBegin) / kAlignment :=
    Nat.div_le_div_right (by omega)
  have hidx : offsetToIndex kAlignment (vb - b.heapBegin) ≤
      offsetToIndex kAlignment (ve - b.heapBegin) := Nat.div_le_div_right hmono
  rw [visitMarkedRangeTrace, b.visits_edgesTrace (Nat.mod_lt _ (by omega)) (Nat.mod_lt _ (by omega))
    hidx (fun h => by simp only [offsetToIndex] at h; omega),
    b.visitMarkedRangeNaive_eq ve hvb hvbA, b.div_add_count hvb hle hvbA hveA]
  simp only [offsetToIndex, Nat.div_add_mod]

/-- `VisitMarkedRange<false>` calls the visitor on the marked addresses of the range, in
increasing order, as the loop under `#if 0` does. -/
theorem visits_visitMarkedRange {vb ve : Nat} (hvb : b.heapBegin ≤ vb) (hle : vb ≤ ve)
    (hvbA : vb % kAlignment = 0) (hveA : ve % kAlignment = 0) :
    visits (b.visitMarkedRange false vb ve) = b.visitMarkedRangeNaive vb ve := by
  rw [visitMarkedRange_eq, if_neg Bool.false_ne_true]
  exact b.visits_visitMarkedRangeTrace hvb hle hvbA hveA

/-- `VisitMarkedRange<true>` calls it on the first of them only. -/
theorem visits_visitMarkedRange_once {vb ve : Nat} (hvb : b.heapBegin ≤ vb) (hle : vb ≤ ve)
    (hvbA : vb % kAlignment = 0) (hveA : ve % kAlignment = 0) :
    visits (b.visitMarkedRange true vb ve) = (b.visitMarkedRangeNaive vb ve).take 1 := by
  rw [visitMarkedRange_eq, if_pos rfl, visits, Trace.filterMap_cutAfter Event.isVisit_eq,
    ← visits, b.visits_visitMarkedRangeTrace hvb hle hvbA hveA]

/-! ### What `VisitMarkedRange` loads -/

theorem loads_wordEvents (i : Nat) (w : BitVec 64) : loads (b.wordEvents i w) = [] := by
  simp [loads, wordEvents, Event.loaded]

theorem loads_load_cons (i : Nat) (es : List Event) : loads (.load i :: es) = i :: loads es := rfl

theorem loads_append (es es' : List Event) : loads (es ++ es') = loads es ++ loads es' :=
  List.filterMap_append

theorem loads_flatMap (l : List Nat) (f : Nat → BitVec 64) :
    loads (l.flatMap fun i => .load i :: b.wordEvents i (f i)) = l := by
  induction l with
  | nil => rfl
  | cons i l ih => rw [List.flatMap_cons, loads_append, loads_load_cons, loads_wordEvents, ih]; rfl

/-- The trace loads the left edge, the middle words, and the right edge unless `bit_end` is
`0`. -/
theorem mem_loads_edgesTrace {iS iE bS bE j : Nat} (hj : j ∈ loads (b.edgesTrace iS iE bS bE)) :
    j = iS ∨ iS < j ∧ j < iE ∨ j = iE ∧ bE ≠ 0 := by
  unfold edgesTrace at hj
  by_cases hlt : iS < iE
  · simp only [hlt, if_true, List.cons_append, loads_load_cons, loads_append, loads_wordEvents,
      loads_flatMap, List.nil_append, List.mem_cons, List.mem_append, List.mem_range'_1] at hj
    by_cases h0 : bE = 0
    · simp only [h0, if_true, loads, List.filterMap_nil, List.not_mem_nil, or_false] at hj
      omega
    · simp only [h0, if_false, loads_load_cons, loads_wordEvents, List.mem_singleton] at hj
      omega
  · simp only [hlt, if_false, loads_load_cons, loads_wordEvents, List.mem_singleton] at hj
    exact .inl hj

theorem loads_visitMarkedRange_subset (k : Bool) (vb ve : Nat) :
    loads (b.visitMarkedRange k vb ve) ⊆ loads (b.visitMarkedRangeTrace vb ve) := by
  rw [visitMarkedRange_eq]
  cases k with
  | false => exact List.Subset.refl _
  | true => exact ((Trace.cutAfter_sublist _).filterMap _).subset

/-- A range that starts below `HeapLimit()` is read only from the words of the bitmap. -/
theorem loads_visitMarkedRange_lt (k : Bool) {vb ve : Nat} (hvb : b.heapBegin ≤ vb)
    (hle : vb ≤ ve) (hve : ve ≤ b.heapLimit) (hlt : vb < b.heapLimit) :
    ∀ j ∈ loads (b.visitMarkedRange k vb ve), j < b.bitmapSize / 8 := by
  have hA := b.alignment_pos
  have hcov := b.covers
  intro j hj
  rcases b.mem_loads_edgesTrace (b.loads_visitMarkedRange_subset k vb ve hj) with
    rfl | ⟨-, hjE⟩ | ⟨rfl, hbit⟩
  · exact offsetToIndex_lt hA (by omega)
  · exact lt_of_lt_of_le hjE (offsetToIndex_le (by omega))
  · exact offsetToIndex_lt_of_bit (by omega) hbit

/-- The empty range at `HeapLimit()` of a bitmap whose heap ends at the end of its last word
loads the word after the bitmap. -/
theorem loads_visitMarkedRange_heapLimit (k : Bool)
    (hfull : b.heapLimit - b.heapBegin = indexToOffset kAlignment (b.bitmapSize / 8)) :
    loads (b.visitMarkedRange k b.heapLimit b.heapLimit) = [b.bitmapSize / 8] := by
  have hA := b.alignment_pos
  have hunits : (b.heapLimit - b.heapBegin) / kAlignment = b.bitmapSize / 8 * 64 := by
    rw [hfull, indexToOffset, Nat.mul_right_comm, Nat.mul_div_cancel _ hA]
  have hidx : offsetToIndex kAlignment (b.heapLimit - b.heapBegin) = b.bitmapSize / 8 := by
    rw [offsetToIndex, hunits, Nat.mul_div_cancel _ (by omega)]
  have hbit : (b.heapLimit - b.heapBegin) / kAlignment % 64 = 0 := by
    rw [hunits, Nat.mul_mod_left]
  -- the left edge is loaded, and masked to nothing by `bit_end == 0`
  have htrace : b.visitMarkedRangeTrace b.heapLimit b.heapLimit = [.load (b.bitmapSize / 8)] := by
    simp only [visitMarkedRangeTrace, edgesTrace, hidx, hbit, lt_irrefl, if_false,
      show (1#64 <<< 0) - 1#64 = 0#64 by decide, BitVec.and_zero, wordEvents, setBits_zero,
      List.map_nil]
  rw [visitMarkedRange_eq, htrace]
  cases k <;> rfl

/-- A heap of one page with 8-byte alignment: the bitmap has 8 words, and the empty range at
the heap's end loads word 8. -/
theorem loads_visitMarkedRange_heapLimit_page :
    loads ((create 0 4096 (fun _ => 0#64) (by decide) (by decide) : SpaceBitmap 8).visitMarkedRange
      false 4096 4096) = [8] :=
  loads_visitMarkedRange_heapLimit _ false (by decide)

/-! ### `FindPrecedingObject` -/

theorem clz_sub_eq_highestBit (x : BitVec 64) : 64 - x.clz.toNat - 1 = highestBit x := by
  unfold highestBit
  omega

section FindPreceding

variable {iE bE : Nat} {maskEnd : BitVec 64}

/-- The loop finds the highest marked position of `[64 * index_end + bit_end, top)`, when the
word in hand holds `[64 * index_start, hi)` and nothing of `[hi, top)` is marked. By induction on
the words left, `index_start - index_end`. -/
theorem findPrecedingLoop_fst (hbE : bE < 64)
    (hmask : ∀ s < 64, maskEnd.getLsbD s = true ↔ bE ≤ s ∧ s < 64) {top : Nat} :
    ∀ (n : Nat) {word : BitVec 64} {hi : Nat} (loaded : List Nat),
      HoldsRange b.word (iE + n) (64 * (iE + n)) hi word → 64 * (iE + n) ≤ hi →
      hi ≤ 64 * (iE + n) + 64 → hi ≤ top → (∀ q, hi ≤ q → q < top → bitAt b.word q = false) →
      (b.findPrecedingLoop iE maskEnd n (iE + n) word loaded).1 =
        ((positions (bitAt b.word) (64 * iE + bE) top).getLast?).map b.addr
  | 0, word, hi, loaded, hw, hlo, hhi, htop, hclear => by
    rw [Nat.add_zero] at hw hlo hhi
    -- the left edge: the bits from `bit_end` on
    have hw' := hw.and hmask
    rw [Nat.max_eq_right (by omega), Nat.min_eq_left (by omega)] at hw'
    simp only [findPrecedingLoop]
    split
    · next hne =>
      rw [clz_sub_eq_highestBit, ptrBase_add, getLast?_positions
        (hw'.isHighest (by omega) hne (by omega) (le_refl _) htop hclear)]
      rfl
    · next hzero =>
      have hclear' : ∀ q, 64 * iE + bE ≤ q → q < top → bitAt b.word q = false := by
        intro q hq hqtop
        by_cases hqhi : q < hi
        · exact hw'.bit_eq_false (not_not.1 hzero) (by omega) (by omega) hq hqhi
        · exact hclear q (by omega) hqtop
      rw [positions_eq_nil hclear']
      rfl
  | n + 1, word, hi, loaded, hw, hlo, hhi, htop, hclear => by
    simp only [findPrecedingLoop]
    split
    · next hne =>
      rw [clz_sub_eq_highestBit, ptrBase_add, getLast?_positions
        (hw.isHighest (by omega) hne (by omega) (by omega) htop hclear)]
      rfl
    · next hzero =>
      -- word `index_start - 1`, whole; nothing from word `index_start` on is marked
      rw [Nat.add_succ_sub_one]
      refine findPrecedingLoop_fst hbE hmask n _ (holdsRange_word b.word (iE + n)) (by omega)
        (le_refl _) (by omega) fun q hq hqtop => ?_
      by_cases hqhi : q < hi
      · exact hw.bit_eq_false (not_not.1 hzero) (le_refl _) hhi (by omega) hqhi
      · exact hclear q (by omega) hqtop

/-- The loop loads words from `index_start - 1` down to `index_end`. -/
theorem findPrecedingLoop_snd :
    ∀ (n : Nat) {word : BitVec 64} {loaded : List Nat},
      ∀ j ∈ (b.findPrecedingLoop iE maskEnd n (iE + n) word loaded).2,
        j ∈ loaded ∨ iE ≤ j ∧ j < iE + n
  | 0, word, loaded, j, hj => by
    simp only [findPrecedingLoop] at hj
    split at hj <;> exact .inl hj
  | n + 1, word, loaded, j, hj => by
    simp only [findPrecedingLoop] at hj
    split at hj
    · exact .inl hj
    · rw [Nat.add_succ_sub_one] at hj
      rcases findPrecedingLoop_snd n j hj with hj | hj
      · rcases List.mem_append.1 hj with hj | hj
        · exact .inl hj
        · exact .inr (by rw [List.mem_singleton.1 hj]; omega)
      · exact .inr (by omega)

end FindPreceding

/-- `FindPrecedingObject(visit_begin, visit_end)` finds the highest marked position from the
position of `max(visit_end, HeapBegin())` up to that of `visit_begin`, or none. -/
theorem findPrecedingObject_eq {vb ve : Nat} (hle : max b.heapBegin ve ≤ vb) :
    (b.findPrecedingObject vb ve).1 =
      ((positions (bitAt b.word) ((max b.heapBegin ve - b.heapBegin) / kAlignment)
        ((vb - b.heapBegin) / kAlignment + 1)).getLast?).map b.addr := by
  have hA := b.alignment_pos
  have hmono : (max b.heapBegin ve - b.heapBegin) / kAlignment ≤ (vb - b.heapBegin) / kAlignment :=
    Nat.div_le_div_right (by omega)
  simp only [findPrecedingObject, offsetToIndex, offsetToMask, offsetBitIndex]
  generalize (vb - b.heapBegin) / kAlignment = pB at hmono ⊢
  generalize (max b.heapBegin ve - b.heapBegin) / kAlignment = pE at hmono ⊢
  obtain ⟨n, hn⟩ : ∃ n, pB / 64 = pE / 64 + n := ⟨pB / 64 - pE / 64, by omega⟩
  -- the right edge: the bits of word `index_start` up to `visit_begin`'s
  have hright : ∀ s < 64, ((1#64 <<< (pB % 64)) ||| ((1#64 <<< (pB % 64)) - 1#64)).getLsbD s = true ↔
      0 ≤ s ∧ s < pB % 64 + 1 := fun s _ => by
    rw [getLsbD_or_lowMask (Nat.mod_lt _ (by omega))]
    simp only [decide_eq_true_eq]
    omega
  have hw := (holdsRange_word b.word (pB / 64)).and hright
  rw [Nat.add_zero, Nat.max_self, Nat.min_eq_right (by omega),
    show 64 * (pB / 64) + (pB % 64 + 1) = pB + 1 by omega, hn] at hw
  rw [hn, Nat.add_sub_cancel_left]
  have h := b.findPrecedingLoop_fst (Nat.mod_lt pE (by omega))
    (fun s hs => getLsbD_not_lowMask_iff (Nat.mod_lt pE (by omega)) hs) n [pE / 64 + n] hw
    (by omega) (by omega) (le_refl _) (fun q h1 h2 => absurd h2 (by omega))
  rwa [Nat.div_add_mod] at h

/-- For an aligned `max(visit_end, HeapBegin())`, it finds the highest marked address of
`[max(visit_end, HeapBegin()), visit_begin]`, as the last call of the naive loop over it. -/
theorem findPrecedingObject_eq_naive {vb ve : Nat} (hle : max b.heapBegin ve ≤ vb)
    (hveA : max b.heapBegin ve % kAlignment = 0) :
    (b.findPrecedingObject vb ve).1 =
      (b.visitMarkedRangeNaive (max b.heapBegin ve) (vb + 1)).getLast? := by
  have hA := b.alignment_pos
  have he := b.sub_heapBegin_eq (le_max_left _ _) hveA
  rw [b.findPrecedingObject_eq hle, b.visitMarkedRangeNaive_eq _ (le_max_left _ _) hveA,
    List.getLast?_map]
  -- the naive loop runs once for each position up to `visit_begin`'s
  have hcount : (max b.heapBegin ve - b.heapBegin) / kAlignment +
      (vb + 1 - max b.heapBegin ve + kAlignment - 1) / kAlignment =
        (vb - b.heapBegin) / kAlignment + 1 := by
    have hvb := Nat.div_add_mod (vb - b.heapBegin) kAlignment
    have hr := Nat.mod_lt (vb - b.heapBegin) hA
    generalize (max b.heapBegin ve - b.heapBegin) / kAlignment = pE at he ⊢
    generalize (vb - b.heapBegin) / kAlignment = pB at hvb ⊢
    generalize (vb - b.heapBegin) % kAlignment = r at hvb hr
    have hmono : pE ≤ pB := by
      by_contra hlt
      have : (pB + 1) * kAlignment ≤ pE * kAlignment := Nat.mul_le_mul_right _ (by omega)
      rw [Nat.succ_mul] at this
      rw [Nat.mul_comm] at hvb
      omega
    have hsum : vb + 1 - max b.heapBegin ve + kAlignment - 1 = r + (pB - pE + 1) * kAlignment := by
      rw [Nat.mul_comm] at hvb
      rw [Nat.add_mul, Nat.sub_mul, Nat.one_mul]
      have : pE * kAlignment ≤ pB * kAlignment := Nat.mul_le_mul_right _ hmono
      omega
    rw [hsum, Nat.add_mul_div_right _ _ hA, Nat.div_eq_of_lt hr, Nat.zero_add]
    omega
  rw [hcount]

/-- A search that starts below `HeapLimit()` loads only words of the bitmap. -/
theorem loads_findPrecedingObject_lt {vb ve : Nat} (hle : max b.heapBegin ve ≤ vb)
    (hlt : vb < b.heapLimit) : ∀ j ∈ (b.findPrecedingObject vb ve).2, j < b.bitmapSize / 8 := by
  have hA := b.alignment_pos
  have hcov := b.covers
  have hS : offsetToIndex kAlignment (vb - b.heapBegin) < b.bitmapSize / 8 :=
    offsetToIndex_lt hA (by omega)
  have hmono : offsetToIndex kAlignment (max b.heapBegin ve - b.heapBegin) ≤
      offsetToIndex kAlignment (vb - b.heapBegin) :=
    Nat.div_le_div_right (Nat.div_le_div_right (by omega))
  intro j hj
  simp only [findPrecedingObject] at hj
  obtain ⟨n, hn⟩ : ∃ n, offsetToIndex kAlignment (vb - b.heapBegin) =
      offsetToIndex kAlignment (max b.heapBegin ve - b.heapBegin) + n := ⟨_, (Nat.add_sub_cancel' hmono).symm⟩
  rw [hn, Nat.add_sub_cancel_left] at hj
  rcases b.findPrecedingLoop_snd n j hj with hj | hj
  · rw [List.mem_singleton.1 hj, ← hn]
    exact hS
  · omega

end SpaceBitmap

end Art
