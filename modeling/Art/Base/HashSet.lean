import Art.Lib.LinearProbe
import Mathlib.Data.Rat.Floor
import Mathlib.Tactic.NormNum

/-!
# `HashSet`

`libartbase/base/hash_set.h`: a set stored in an array of slots with linear probing. An empty
slot holds the value `EmptyFn` makes, `none` here; an element is looked for from the slot
`IndexForHash` picks for its hash, slot after slot around the array, up to the first empty slot.
`erase` deletes with a backward shift, and the array is resized by the load factors: it grows
when `num_elements_` reaches `elements_until_expand_`, to `size() / min_load_factor_` slots and
never fewer than `kMinBuckets`.

The load factors are doubles in the source; the model computes with them as the rationals they
are, and a `static_cast<size_t>` of a nonnegative double is `Nat.floor`. The probe loops run
`while (true)`: the model looks at `NumBuckets()` slots, once around the array, and gives `none`
where the source loops forever.
-/

namespace Art

/-- The load factors of a `HashSet`, with the bounds its constructors and `SetLoadFactor`
check: `DCHECK_GT(min_load_factor, 0.0)`, `DCHECK_LT(min_load_factor, max_load_factor)` and
`DCHECK_LT(max_load_factor, 1.0)`. -/
structure LoadFactors where
  minLoadFactor : ℚ
  maxLoadFactor : ℚ
  minLoadFactor_pos : 0 < minLoadFactor
  minLoadFactor_lt : minLoadFactor < maxLoadFactor
  maxLoadFactor_lt_one : maxLoadFactor < 1

namespace LoadFactors

/-- `kDefaultMinLoadFactor` and `kDefaultMaxLoadFactor`. -/
def kDefault : LoadFactors := ⟨2 / 5, 7 / 10, by norm_num, by norm_num, by norm_num⟩

theorem maxLoadFactor_pos (lf : LoadFactors) : 0 < lf.maxLoadFactor :=
  lf.minLoadFactor_pos.trans lf.minLoadFactor_lt

end LoadFactors

/-- `HashSet<T>`: the slots `data_[0, num_buckets_)`, an empty slot being `none`;
`num_elements_`, `elements_until_expand_` and the load factors. The hash function `HashFn` and the
predicate `Pred` are parameters of the operations. -/
structure HashSet (α : Type) where
  data : List (Option α)
  numElements : Nat
  elementsUntilExpand : Nat
  loadFactors : LoadFactors

namespace HashSet

open LinearProbe

variable {α : Type}

def kMinBuckets : Nat := 1000

def numBuckets (s : HashSet α) : Nat := s.data.length

theorem numBuckets_eq (s : HashSet α) : s.numBuckets = s.data.length := rfl

def size (s : HashSet α) : Nat := s.numElements

/-- `IndexForHash(hash)`: `0` for an array of no slots, against a division by zero. -/
def indexForHash (s : HashSet α) (hash : Nat) : Nat :=
  if s.numBuckets = 0 then 0 else hash % s.numBuckets

def nextIndex (s : HashSet α) (index : Nat) : Nat :=
  if index + 1 ≥ s.numBuckets then 0 else index + 1

def elementForIndex (s : HashSet α) (index : Nat) : Option α := s.data.getD index none

def isFreeSlot (s : HashSet α) (index : Nat) : Bool := (s.elementForIndex index).isNone

/-- `CalculateLoadFactor()`: `size() / NumBuckets()`; `0` where there are no slots, which
compares as the double `NaN` does. -/
def calculateLoadFactor (s : HashSet α) : ℚ := (s.size : ℚ) / s.numBuckets

section Operations

variable (hashfn : α → Nat) (pred : α → α → Bool)

/-- The loop of `FindIndexImpl<kCanFind>` from `index`: the slot and `true` at an element equal to
`element` (looked for when `kCanFind`), the slot and `false` at an empty slot (`fail_fn`). -/
def findIndexLoop (s : HashSet α) (kCanFind : Bool) (element : α) (index : Nat) :
    Nat → Option (Nat × Bool)
  | 0 => none
  | fuel + 1 =>
    match s.elementForIndex index with
    | none => some (index, false)
    | some slot =>
      if kCanFind && pred slot element then some (index, true)
      else s.findIndexLoop kCanFind element (s.nextIndex index) fuel

/-- `FindIndexImpl<kCanFind>(element, hash, fail_fn)`. -/
def findIndexImpl (s : HashSet α) (kCanFind : Bool) (element : α) (hash : Nat) :
    Option (Nat × Bool) :=
  s.findIndexLoop pred kCanFind element (s.indexForHash hash) s.numBuckets

/-- `FindIndex(element, hash)`: the slot of an element equal to `element`, or `NumBuckets()`. -/
def findIndex (s : HashSet α) (element : α) (hash : Nat) : Option Nat :=
  if s.numBuckets = 0 then some 0
  else (s.findIndexImpl pred true element hash).map fun r => if r.2 then r.1 else s.numBuckets

/-- `find(key)`. -/
def find (s : HashSet α) (key : α) : Option Nat := s.findIndex pred key (hashfn key)

/-- The loop of `FirstAvailableSlot(index)`. -/
def firstAvailableSlotLoop (s : HashSet α) (index : Nat) : Nat → Option Nat
  | 0 => none
  | fuel + 1 =>
    match s.elementForIndex index with
    | none => some index
    | some _ => s.firstAvailableSlotLoop (s.nextIndex index) fuel

/-- `FirstAvailableSlot(index)`: the first empty slot from `index` on. -/
def firstAvailableSlot (s : HashSet α) (index : Nat) : Option Nat :=
  s.firstAvailableSlotLoop index s.numBuckets

/-- `AllocateStorage(num_buckets)`: `num_buckets` empty slots. -/
def allocateStorage (s : HashSet α) (numBuckets : Nat) : HashSet α :=
  { s with data := List.replicate numBuckets none }

/-- The loop of `Resize` over the old slots: each element goes to the first available slot from
its hash's slot in the new array. -/
def moveElements (s : HashSet α) : List (Option α) → Option (HashSet α)
  | [] => some s
  | none :: rest => s.moveElements rest
  | some element :: rest =>
    (s.firstAvailableSlot (s.indexForHash (hashfn element))).bind fun index =>
      { s with data := s.data.set index (some element) }.moveElements rest

/-- `Resize(new_size)`, to `kMinBuckets` slots at least. -/
def resize (s : HashSet α) (newSize : Nat) : Option (HashSet α) :=
  let newSize := if newSize < kMinBuckets then kMinBuckets else newSize
  ((s.allocateStorage newSize).moveElements hashfn s.data).map fun s' =>
    { s' with
      elementsUntilExpand := ⌊(s'.numBuckets : ℚ) * s'.loadFactors.maxLoadFactor⌋₊ }

/-- `Expand()`: resize by the minimum load factor. -/
def expand (s : HashSet α) : Option (HashSet α) :=
  s.resize hashfn ⌊(s.size : ℚ) / s.loadFactors.minLoadFactor⌋₊

/-- The array before an insertion: expanded where `num_elements_` reached
`elements_until_expand_`. -/
def expandIfFull (s : HashSet α) : Option (HashSet α) :=
  if s.numElements ≥ s.elementsUntilExpand then s.expand hashfn else some s

/-- `InsertWithHash(element, hash)`: the set, the slot of the element and whether it was
inserted. -/
def insertWithHash (s : HashSet α) (element : α) (hash : Nat) : Option (HashSet α × Nat × Bool) :=
  (s.expandIfFull hashfn).bind fun s =>
    (s.findIndexImpl pred true element hash).map fun r =>
      if r.2 then (s, r.1, false)
      else ({ s with data := s.data.set r.1 (some element), numElements := s.numElements + 1 },
        r.1, true)

/-- `insert(element)`. -/
def insert (s : HashSet α) (element : α) : Option (HashSet α × Nat × Bool) :=
  s.insertWithHash hashfn pred element (hashfn element)

/-- `PutWithHash(element, hash)`: an element known not to be in the set goes to the first empty
slot of its probe. -/
def putWithHash (s : HashSet α) (element : α) (hash : Nat) : Option (HashSet α) :=
  (s.expandIfFull hashfn).bind fun s =>
    (s.findIndexImpl pred false element hash).map fun r =>
      { s with data := s.data.set r.1 (some element), numElements := s.numElements + 1 }

/-- `Put(element)`. -/
def put (s : HashSet α) (element : α) : Option (HashSet α) :=
  s.putWithHash hashfn pred element (hashfn element)

/-- `NextNonEmptySlot(index)`: the iterator's `++`. -/
def nextNonEmptySlot (s : HashSet α) (index : Nat) : Nat :=
  if index + 1 < s.numBuckets ∧ s.isFreeSlot (index + 1) then s.nextNonEmptySlot (index + 1)
  else index + 1
termination_by s.numBuckets - index

/-- The test of `erase`: the element at `nextIndex`, whose ideal slot is `nextIdealIndex`, fills
`emptyIndex` where its ideal slot does not lie after `emptyIndex` up to `nextIndex`; both are
unwrapped to count from `emptyIndex`. -/
def fillsEmptyIndex (s : HashSet α) (emptyIndex nextIndex nextIdealIndex : Nat) : Bool :=
  let unwrappedNextIndex := if nextIndex < emptyIndex then nextIndex + s.numBuckets else nextIndex
  let unwrappedNextIdealIndex :=
    if nextIdealIndex < emptyIndex then nextIdealIndex + s.numBuckets else nextIdealIndex
  decide (unwrappedNextIdealIndex ≤ emptyIndex ∨ unwrappedNextIdealIndex > unwrappedNextIndex)

/-- The loop of `erase`: the slot `emptyIndex` is to become empty; the element at the next slot
fills it where `fillsEmptyIndex`, and its old slot is then the one to become empty. The loop ends
at an empty slot, emptying `emptyIndex`; it gives the set and whether an element filled the
erased slot. -/
def eraseLoop (s : HashSet α) (emptyIndex nextIndex : Nat) (filled : Bool) :
    Nat → Option (HashSet α × Bool)
  | 0 => none
  | fuel + 1 =>
    let nextIndex := s.nextIndex nextIndex
    match s.elementForIndex nextIndex with
    | none => some ({ s with data := s.data.set emptyIndex none }, filled)
    | some nextElement =>
      if s.fillsEmptyIndex emptyIndex nextIndex (s.indexForHash (hashfn nextElement)) then
        { s with data := s.data.set emptyIndex (some nextElement) }.eraseLoop nextIndex nextIndex
          true fuel
      else s.eraseLoop emptyIndex nextIndex filled fuel

/-- `erase(it)` for the iterator at slot `index`: the set and the slot of the iterator it
returns. -/
def erase (s : HashSet α) (index : Nat) : Option (HashSet α × Nat) :=
  (s.eraseLoop hashfn index index false s.numBuckets).map fun r =>
    ({ r.1 with numElements := r.1.numElements - 1 },
      if r.2 then index else r.1.nextNonEmptySlot index)

/-- `clear()`: the storage is freed. -/
def clear (s : HashSet α) : HashSet α :=
  { s with data := [], numElements := 0, elementsUntilExpand := 0 }

/-- `HashSet(min_load_factor, max_load_factor)`, and `HashSet()` with the default load factors. -/
def create (lf : LoadFactors) : HashSet α := ⟨[], 0, 0, lf⟩

/-- `HashSet(min_load_factor, max_load_factor, buffer, buffer_size)`: the buffer's slots, made
empty. -/
def ofBuffer (lf : LoadFactors) (bufferSize : Nat) : HashSet α :=
  ⟨List.replicate bufferSize none, 0, ⌊(bufferSize : ℚ) * lf.maxLoadFactor⌋₊, lf⟩

/-- `ShrinkToMaximumLoad()`. -/
def shrinkToMaximumLoad (s : HashSet α) : Option (HashSet α) :=
  s.resize hashfn ⌊(s.size : ℚ) / s.loadFactors.maxLoadFactor⌋₊

/-- The loop of `reserve`: `num_buckets` grows until `num_buckets * max_load_factor_` exceeds
`num_elements + 1`. -/
def reserveLoop (lf : LoadFactors) (numElements numBuckets : Nat) : Nat :=
  if ⌊(numBuckets : ℚ) * lf.maxLoadFactor⌋₊ ≤ numElements + 1 then
    reserveLoop lf numElements (numBuckets + 1)
  else numBuckets
termination_by ⌈((numElements : ℚ) + 2) / lf.maxLoadFactor⌉₊ + 1 - numBuckets
decreasing_by
  have hmax := lf.maxLoadFactor_pos
  have hlt : (numBuckets : ℚ) * lf.maxLoadFactor < (numElements : ℚ) + 2 := by
    have := Nat.lt_floor_add_one ((numBuckets : ℚ) * lf.maxLoadFactor)
    have h2 : ((⌊(numBuckets : ℚ) * lf.maxLoadFactor⌋₊ : Nat) : ℚ) ≤ (numElements : ℚ) + 1 := by
      exact_mod_cast ‹_›
    linarith
  have hb : (numBuckets : ℚ) < ((numElements : ℚ) + 2) / lf.maxLoadFactor := by
    rwa [lt_div_iff₀ hmax]
  have hc := Nat.le_ceil (((numElements : ℚ) + 2) / lf.maxLoadFactor)
  have : numBuckets < ⌈((numElements : ℚ) + 2) / lf.maxLoadFactor⌉₊ := by
    exact_mod_cast hb.trans_le hc
  omega

/-- `reserve(num_elements)`: room for `num_elements` without growing. -/
def reserve (s : HashSet α) (numElements : Nat) : Option (HashSet α) :=
  let numBuckets := reserveLoop s.loadFactors numElements
    ⌊(numElements : ℚ) / s.loadFactors.maxLoadFactor⌋₊
  if numBuckets > s.numBuckets then s.resize hashfn numBuckets else some s

/-- `SetLoadFactor(min_load_factor, max_load_factor)`: where the load is above the new maximum,
the array is resized to the mean of the two. -/
def setLoadFactor (s : HashSet α) (lf : LoadFactors) : Option (HashSet α) :=
  let s := { s with
    loadFactors := lf,
    elementsUntilExpand := ⌊(s.numBuckets : ℚ) * lf.maxLoadFactor⌋₊ }
  if s.calculateLoadFactor > lf.maxLoadFactor then
    s.resize hashfn ⌊(s.size : ℚ) / ((lf.minLoadFactor + lf.maxLoadFactor) * (1 / 2))⌋₊
  else some s

/-- `Verify()`: the number of elements not in the slot `FirstAvailableSlot` finds for them once
their own slot is emptied. -/
def verify (s : HashSet α) : Nat :=
  ((List.range s.numBuckets).filter fun i =>
    match s.elementForIndex i with
    | none => false
    | some element =>
      { s with data := s.data.set i none }.firstAvailableSlot (s.indexForHash (hashfn element)) !=
        some i).length

end Operations

/-! ### The probe loops -/

section Probe

variable {hashfn : α → Nat} {pred : α → α → Bool} {s : HashSet α}

theorem indexForHash_eq (hn : 0 < s.numBuckets) (hash : Nat) :
    s.indexForHash hash = hash % s.numBuckets := by
  rw [indexForHash, if_neg (Nat.pos_iff_ne_zero.1 hn)]

theorem indexForHash_lt (hn : 0 < s.numBuckets) (hash : Nat) :
    s.indexForHash hash < s.numBuckets := by
  rw [indexForHash_eq hn]
  exact Nat.mod_lt _ hn

theorem nextIndex_eq {index : Nat} (hi : index < s.numBuckets) :
    s.nextIndex index = (index + 1) % s.numBuckets := by
  unfold nextIndex
  split_ifs with h
  · rw [show index + 1 = s.numBuckets by omega, Nat.mod_self]
  · rw [Nat.mod_eq_of_lt (by omega)]

variable (pred) in
/-- Where the probe for `element` stops: at an empty slot or, when `kCanFind`, at an element equal
to it. -/
def probeStop (s : HashSet α) (kCanFind : Bool) (element : α) (i : Nat) : Bool :=
  match s.elementForIndex i with
  | none => true
  | some slot => kCanFind && pred slot element

/-- The loop of `FindIndexImpl` is `scan` for `probeStop`. -/
theorem findIndexLoop_eq (kCanFind : Bool) (element : α) :
    ∀ fuel index, index < s.numBuckets →
      s.findIndexLoop pred kCanFind element index fuel =
        (scan s.numBuckets (s.probeStop pred kCanFind element) index fuel).map fun i =>
          (i, (s.elementForIndex i).isSome)
  | 0, _, _ => rfl
  | fuel + 1, index, hi => by
    rw [findIndexLoop, scan, probeStop]
    cases hslot : s.elementForIndex index with
    | none => simp [hslot]
    | some slot =>
      dsimp only
      by_cases hstop : (kCanFind && pred slot element) = true
      · simp [hstop, hslot]
      · rw [if_neg hstop, if_neg hstop, nextIndex_eq hi,
          findIndexLoop_eq kCanFind element fuel _ (Nat.mod_lt _ (by omega))]

/-- The loop of `FirstAvailableSlot` is `scan` for an empty slot. -/
theorem firstAvailableSlotLoop_eq :
    ∀ fuel index, index < s.numBuckets →
      s.firstAvailableSlotLoop index fuel = scan s.numBuckets (s.isFreeSlot ·) index fuel
  | 0, _, _ => rfl
  | fuel + 1, index, hi => by
    rw [firstAvailableSlotLoop, scan, isFreeSlot]
    cases hslot : s.elementForIndex index with
    | none => rfl
    | some slot =>
      rw [Option.isNone_some, if_neg (by decide), nextIndex_eq hi,
        firstAvailableSlotLoop_eq fuel _ (Nat.mod_lt _ (by omega))]

/-- A probe that found an element equal to `element`. -/
theorem findIndexImpl_found {kCanFind : Bool} {element : α} {hash index : Nat}
    (hn : 0 < s.numBuckets) (h : s.findIndexImpl pred kCanFind element hash = some (index, true)) :
    ∃ slot, s.data.getD index none = some slot ∧ pred slot element = true := by
  rw [findIndexImpl, findIndexLoop_eq _ _ _ _ (indexForHash_lt hn hash), Option.map_eq_some_iff] at h
  obtain ⟨i, hscan, hi⟩ := h
  simp only [Prod.mk.injEq] at hi
  obtain ⟨rfl, hsome⟩ := hi
  obtain ⟨k, -, -, hstop, -⟩ := scan_eq_some (indexForHash_lt hn hash) hscan
  unfold probeStop at hstop
  cases hslot : s.elementForIndex i with
  | none => rw [hslot] at hsome; cases hsome
  | some slot =>
    rw [hslot] at hstop
    exact ⟨slot, hslot, by simp at hstop; exact hstop.2⟩

/-- A probe that ended at an empty slot: every slot on the way holds an element, and none equal
to `element` where `kCanFind`. -/
theorem findIndexImpl_not_found {kCanFind : Bool} {element : α} {hash index : Nat}
    (hn : 0 < s.numBuckets)
    (h : s.findIndexImpl pred kCanFind element hash = some (index, false)) :
    index < s.numBuckets ∧ s.data.getD index none = none ∧
      ∀ k < dist s.numBuckets (hash % s.numBuckets) index, ∃ slot,
        s.data.getD ((hash % s.numBuckets + k) % s.numBuckets) none = some slot ∧
          (kCanFind && pred slot element) = false := by
  rw [findIndexImpl, findIndexLoop_eq _ _ _ _ (indexForHash_lt hn hash), Option.map_eq_some_iff] at h
  obtain ⟨i, hscan, hi⟩ := h
  simp only [Prod.mk.injEq] at hi
  obtain ⟨rfl, hfree⟩ := hi
  have hstart := indexForHash_lt hn hash
  obtain ⟨k, hk, rfl, -, hbefore⟩ := scan_eq_some hstart hscan
  rw [indexForHash_eq hn] at hbefore hfree ⊢
  refine ⟨Nat.mod_lt _ hn, by simpa [elementForIndex] using hfree, fun j hj => ?_⟩
  · rw [dist_add_mod (Nat.mod_lt _ hn) hk] at hj
    have hstop := hbefore j hj
    unfold probeStop at hstop
    cases hslot : s.elementForIndex ((hash % s.numBuckets + j) % s.numBuckets) with
    | none => rw [hslot] at hstop; cases hstop
    | some slot =>
      rw [hslot] at hstop
      exact ⟨slot, hslot, hstop⟩

/-- A probe stops where the array has an empty slot. -/
theorem findIndexImpl_isSome {kCanFind : Bool} {element : α} {hash z : Nat}
    (hz : s.data.getD z none = none) (hzlt : z < s.numBuckets) :
    (s.findIndexImpl pred kCanFind element hash).isSome := by
  have hn : 0 < s.numBuckets := Nat.lt_of_le_of_lt (Nat.zero_le _) hzlt
  have hstart := indexForHash_lt hn hash
  rw [findIndexImpl, findIndexLoop_eq _ _ _ _ hstart, Option.isSome_map]
  refine scan_isSome hstart (dist_lt hstart hzlt) ?_
  rw [add_dist_mod hstart hzlt, probeStop]
  rw [elementForIndex, hz]

/-- `FirstAvailableSlot` finds the first empty slot. -/
theorem firstAvailableSlot_eq_some {index i : Nat} (hi : index < s.numBuckets)
    (h : s.firstAvailableSlot index = some i) :
    i < s.numBuckets ∧ s.data.getD i none = none ∧ Reach s.data index i := by
  rw [firstAvailableSlot, firstAvailableSlotLoop_eq _ _ hi] at h
  obtain ⟨k, hk, rfl, hfree, hbefore⟩ := scan_eq_some hi h
  have hn : 0 < s.numBuckets := Nat.lt_of_le_of_lt (Nat.zero_le _) hi
  refine ⟨Nat.mod_lt _ hn, by simpa [isFreeSlot, elementForIndex] using hfree, fun j hj => ?_⟩
  rw [show s.data.length = s.numBuckets from rfl, dist_add_mod hi hk] at hj
  have := hbefore j hj
  simpa [isFreeSlot, elementForIndex, Occupied, numBuckets] using this

theorem firstAvailableSlot_isSome {index z : Nat} (hi : index < s.numBuckets)
    (hz : s.data.getD z none = none) (hzlt : z < s.numBuckets) :
    (s.firstAvailableSlot index).isSome := by
  rw [firstAvailableSlot, firstAvailableSlotLoop_eq _ _ hi]
  refine scan_isSome hi (dist_lt hi hzlt) ?_
  rw [add_dist_mod hi hzlt, isFreeSlot, elementForIndex, hz]
  rfl

/-- `FirstAvailableSlot` from the start of an occupied run ends at the empty slot after it. -/
theorem firstAvailableSlot_of_reach {index i : Nat} (hindex : index < s.numBuckets)
    (hi : i < s.numBuckets) (hfree : s.data.getD i none = none) (hreach : Reach s.data index i) :
    s.firstAvailableSlot index = some i := by
  have hscan : scan s.numBuckets (s.isFreeSlot ·) index s.numBuckets =
      some ((index + dist s.numBuckets index i) % s.numBuckets) := scan_eq_of_first hindex
    (dist_lt hindex hi) (by rw [add_dist_mod hindex hi, isFreeSlot, elementForIndex, hfree]; rfl)
    fun j hj => by
      have hocc := hreach j hj
      rw [Occupied] at hocc
      rw [isFreeSlot, elementForIndex, Option.isNone_eq_false_iff]
      exact hocc
  rw [firstAvailableSlot, firstAvailableSlotLoop_eq _ _ hindex, hscan, add_dist_mod hindex hi]

/-- A probe whose first slot is empty stops there. -/
theorem firstAvailableSlot_of_free {i : Nat} (hi : i < s.numBuckets)
    (hfree : s.data.getD i none = none) : s.firstAvailableSlot i = some i := by
  obtain ⟨m, hm⟩ : ∃ m, s.numBuckets = m + 1 := ⟨s.numBuckets - 1, by omega⟩
  rw [firstAvailableSlot, hm, firstAvailableSlotLoop, elementForIndex, hfree]

theorem findIndexImpl_of_free {kCanFind : Bool} {element : α} {hash : Nat}
    (hn : 0 < s.numBuckets) (hfree : s.data.getD (s.indexForHash hash) none = none) :
    s.findIndexImpl pred kCanFind element hash = some (s.indexForHash hash, false) := by
  obtain ⟨m, hm⟩ : ∃ m, s.numBuckets = m + 1 := ⟨s.numBuckets - 1, by omega⟩
  rw [findIndexImpl, hm, findIndexLoop, elementForIndex, hfree]

/-- A probe through an array with no empty slot, none of whose elements it looks for, never
stops. -/
theorem findIndexImpl_full {kCanFind : Bool} {element : α} {hash : Nat} (hn : 0 < s.numBuckets)
    (hfull : ∀ i < s.numBuckets, ∃ x, s.data.getD i none = some x ∧ pred x element = false) :
    s.findIndexImpl pred kCanFind element hash = none := by
  have hstart := indexForHash_lt hn hash
  have hscan : scan s.numBuckets (s.probeStop pred kCanFind element) (s.indexForHash hash)
      s.numBuckets = none := scan_eq_none hstart fun k _ => by
    obtain ⟨x, hx, hpx⟩ := hfull _ (Nat.mod_lt _ hn)
    rw [probeStop, elementForIndex, hx]
    dsimp only
    rw [hpx, Bool.and_false]
  rw [findIndexImpl, findIndexLoop_eq _ _ _ _ hstart, hscan, Option.map_none]

end Probe

/-! ### Resizing -/

section Resize

variable {hashfn : α → Nat}

/-- The loop of `Resize` puts every old element into the new array and keeps it clustered, where
the new array has room for them all. -/
theorem moveElements_spec : ∀ (old : List (Option α)) (s : HashSet α), 0 < s.numBuckets →
    Clustered hashfn s.data → (elems s.data).length + (elems old).length ≤ s.numBuckets →
    ∃ d, s.moveElements hashfn old = some { s with data := d } ∧ d.length = s.data.length ∧
      Clustered hashfn d ∧ (elems d).Perm (elems s.data ++ elems old)
  | [], s, _, hc, _ => ⟨s.data, rfl, rfl, hc, by simp [elems]⟩
  | none :: rest, s, hn, hc, hroom => by
    rw [moveElements]
    exact moveElements_spec rest s hn hc (by simpa [elems] using hroom)
  | some e :: rest, s, hn, hc, hroom => by
    have hroom' : (elems s.data).length + 1 + (elems rest).length ≤ s.data.length := by
      simpa [elems, numBuckets, Nat.add_assoc, Nat.add_comm 1] using hroom
    -- the new array has an empty slot left for `e`
    obtain ⟨z, hz, hzlt⟩ := exists_empty_of_length_lt (t := s.data) (by omega)
    obtain ⟨i, hi⟩ := Option.isSome_iff_exists.1
      (firstAvailableSlot_isSome (indexForHash_lt hn (hashfn e)) hz hzlt)
    obtain ⟨hilt, hifree, hreach⟩ := firstAvailableSlot_eq_some (indexForHash_lt hn _) hi
    rw [indexForHash_eq hn] at hreach
    have hperm := elems_set_some_perm (e := e) hifree hilt
    obtain ⟨d, hd, hdlen, hdc, hdperm⟩ := moveElements_spec rest
      { s with data := s.data.set i (some e) } (by simpa [numBuckets] using hn)
      (hc.set_some hifree hreach)
      (by simp only [numBuckets, List.length_set]; rw [hperm.length_eq]; simpa using hroom')
    refine ⟨d, ?_, by simpa using hdlen, hdc, ?_⟩
    · rw [moveElements, hi, Option.bind_some]
      exact hd
    · simp only [elems, id] at hdperm ⊢
      exact hdperm.trans ((hperm.append_right _).trans List.perm_middle.symm)

/-- `Resize(new_size)` moves every element into the new array, clustered, where it has room for
them. -/
theorem resize_spec (s : HashSet α) (newSize : Nat)
    (hroom : (elems s.data).length ≤ if newSize < kMinBuckets then kMinBuckets else newSize) :
    ∃ d, s.resize hashfn newSize =
        some ⟨d, s.numElements, ⌊(d.length : ℚ) * s.loadFactors.maxLoadFactor⌋₊, s.loadFactors⟩ ∧
      d.length = (if newSize < kMinBuckets then kMinBuckets else newSize) ∧
      Clustered hashfn d ∧ (elems d).Perm (elems s.data) := by
  have hpos : 0 < (if newSize < kMinBuckets then kMinBuckets else newSize) := by
    unfold kMinBuckets
    split_ifs <;> omega
  obtain ⟨d, hd, hdlen, hdc, hdperm⟩ := moveElements_spec s.data
    (s.allocateStorage (if newSize < kMinBuckets then kMinBuckets else newSize))
    (by simpa [allocateStorage, numBuckets] using hpos) (clustered_replicate_none hashfn _)
    (by simpa [allocateStorage, numBuckets] using hroom)
  refine ⟨d, ?_, by simpa [allocateStorage] using hdlen, hdc, by simpa [allocateStorage] using hdperm⟩
  rw [resize, hd]
  rfl

theorem moveElements_replicate_none (s : HashSet α) :
    ∀ r, s.moveElements hashfn (List.replicate r none) = some s
  | 0 => rfl
  | r + 1 => by
    rw [List.replicate_succ, moveElements]
    exact moveElements_replicate_none s r

end Resize

/-! ### Erasing -/

section Erase

variable {hashfn : α → Nat}

theorem nextIndex_lt {s : HashSet α} (hn : 0 < s.numBuckets) (index : Nat) :
    s.nextIndex index < s.numBuckets := by
  unfold nextIndex
  split_ifs <;> omega

/-- The unwrapped index of `erase`: the slot `x` counted from `emptyIndex`, around the end. -/
theorem unwrapped_eq {n hole x : Nat} (hhole : hole < n) (hx : x < n) :
    (if x < hole then x + n else x) = hole + dist n hole x := by
  rw [dist_eq hhole hx]
  split_ifs <;> omega

/-- The test of `erase` moves the next element exactly where its run from its ideal slot passes
the slot to become empty. -/
theorem fillsEmptyIndex_iff {s : HashSet α} {hole j d : Nat} (hhole : hole < s.numBuckets)
    (hj : j < s.numBuckets) (hd : d < s.numBuckets) :
    s.fillsEmptyIndex hole j d = true ↔
      ¬(0 < dist s.numBuckets hole d ∧ dist s.numBuckets hole d ≤ dist s.numBuckets hole j) := by
  rw [fillsEmptyIndex, decide_eq_true_iff, unwrapped_eq hhole hd, unwrapped_eq hhole hj]
  omega

/-- The loop of `erase` stops only at an empty slot, which was there from the start: it empties
no slot before. -/
theorem exists_empty_of_eraseLoop : ∀ {fuel : Nat} {s : HashSet α} {emptyIndex j : Nat}
    {filled : Bool} {r : HashSet α × Bool}, 0 < s.numBuckets →
    s.eraseLoop hashfn emptyIndex j filled fuel = some r →
      ∃ z, s.data.getD z none = none ∧ z < s.numBuckets
  | 0, _, _, _, _, _, _, h => by cases h
  | fuel + 1, s, emptyIndex, j, filled, r, hn, h => by
    rw [eraseLoop] at h
    cases hslot : s.elementForIndex (s.nextIndex j) with
    | none => exact ⟨s.nextIndex j, hslot, nextIndex_lt hn j⟩
    | some e =>
      rw [hslot] at h
      dsimp only at h
      split_ifs at h
      · obtain ⟨z, hz, hzlt⟩ := exists_empty_of_eraseLoop (by simpa [numBuckets] using hn) h
        rw [getD_set] at hz
        split_ifs at hz
        exact ⟨z, hz, by simpa [numBuckets] using hzlt⟩
      · exact exists_empty_of_eraseLoop hn h

/-- The loop of `erase`, from a state of the backward-shift invariant and an empty slot within
its fuel: it empties the last hole and leaves a clustered array of the elements but the
hole's. -/
theorem eraseLoop_spec : ∀ (fuel : Nat) (s : HashSet α) (emptyIndex j : Nat) (filled : Bool)
    (z : Nat), ShiftInv hashfn s.data emptyIndex j → s.data.getD z none = none →
    z < s.numBuckets → dist s.numBuckets j z ≤ fuel →
      ∃ d b, s.eraseLoop hashfn emptyIndex j filled fuel = some ({ s with data := d }, b) ∧
        d.length = s.data.length ∧ Clustered hashfn d ∧
          (elems d).Perm (elems (s.data.set emptyIndex none))
  | 0, s, emptyIndex, j, _, z, h, hz, hzlt, hfuel => by
    -- the slot looked at holds an element, so it is not the empty one
    have hne : j ≠ z := fun hjz => by
      have := h.occupied_j
      rw [Occupied, hjz, hz] at this
      cases this
    have := (dist_eq_zero_iff h.j_lt hzlt).1 (Nat.le_zero.1 hfuel)
    exact absurd this hne
  | fuel + 1, s, emptyIndex, j, filled, z, h, hz, hzlt, hfuel => by
    rw [numBuckets_eq] at hzlt hfuel
    have hn : 0 < s.data.length := Nat.lt_of_le_of_lt (Nat.zero_le _) hzlt
    have hne : j ≠ z := fun hjz => by
      have := h.occupied_j
      rw [Occupied, hjz, hz] at this
      cases this
    have hstep := dist_succ_left h.j_lt hzlt hne
    rw [eraseLoop, nextIndex_eq h.j_lt, elementForIndex, numBuckets_eq]
    cases hslot : s.data.getD ((j + 1) % s.data.length) none with
    | none =>
      exact ⟨_, filled, rfl, List.length_set, h.finish hslot, List.Perm.refl _⟩
    | some e =>
      dsimp only
      have hdlt := indexForHash_lt hn (hashfn e)
      have hj'lt : (j + 1) % s.data.length < s.data.length := Nat.mod_lt _ hn
      by_cases hkeep : 0 < dist s.data.length emptyIndex (hashfn e % s.data.length) ∧
          dist s.data.length emptyIndex (hashfn e % s.data.length) ≤
            dist s.data.length emptyIndex ((j + 1) % s.data.length)
      · -- the element stays; one more slot is looked at
        have hstay : ¬s.fillsEmptyIndex emptyIndex ((j + 1) % s.data.length)
            (s.indexForHash (hashfn e)) = true := by
          rw [fillsEmptyIndex_iff h.hole_lt hj'lt hdlt, indexForHash_eq hn]
          exact not_not.2 hkeep
        rw [if_neg hstay]
        exact eraseLoop_spec fuel s emptyIndex _ filled z (h.keep hz hzlt hslot hkeep) hz hzlt
          (by rw [numBuckets_eq]; omega)
      · -- the element moves into the hole, and its slot becomes the hole
        have hfill : s.fillsEmptyIndex emptyIndex ((j + 1) % s.data.length)
            (s.indexForHash (hashfn e)) = true := by
          rw [fillsEmptyIndex_iff h.hole_lt hj'lt hdlt, indexForHash_eq hn]
          exact hkeep
        rw [if_pos hfill]
        have hholene : emptyIndex ≠ z := fun hhz => by
          have := h.hole_occupied
          rw [Occupied, hhz, hz] at this
          cases this
        have hz' : (s.data.set emptyIndex (some e)).getD z none = none := by
          rw [getD_set, if_neg fun h' => hholene h'.1]
          exact hz
        obtain ⟨d, b, hd, hdlen, hdc, hdperm⟩ := eraseLoop_spec fuel
          { s with data := s.data.set emptyIndex (some e) } _ _ true z (h.move hz hzlt hslot hkeep)
          hz' (by simpa [numBuckets_eq] using hzlt)
          (by simp only [numBuckets_eq, List.length_set]; omega)
        refine ⟨d, b, hd, by simpa using hdlen, hdc, hdperm.trans ?_⟩
        -- the element moved from its old slot into the hole
        have hj'ne : (j + 1) % s.data.length ≠ emptyIndex := fun heq => by
          have := h.dist_lt_of_empty hz hzlt
          have hsucc := dist_succ h.hole_lt h.j_lt (by have := dist_lt h.hole_lt hzlt; omega)
          rw [heq, dist_self] at hsucc
          omega
        have hnone : (s.data.set emptyIndex none).getD ((j + 1) % s.data.length) none = some e := by
          rw [getD_set, if_neg fun h' => hj'ne h'.1.symm]
          exact hslot
        -- emptying the hole first and filling it last gives the same array
        have hswap : (s.data.set emptyIndex (some e)).set ((j + 1) % s.data.length) none =
            ((s.data.set emptyIndex none).set ((j + 1) % s.data.length) none).set emptyIndex
              (some e) := by
          rw [List.set_comm _ _ hj'ne, List.set_set]
        dsimp only
        rw [hswap]
        refine (elems_set_some_perm ?_ (by simpa using h.hole_lt)).trans (elems_set_none_perm hnone)
        rw [getD_set, if_neg fun h' => hj'ne h'.1, getD_set, if_pos ⟨rfl, h.hole_lt⟩]

/-- `erase` at an element of a clustered array with an empty slot: the element is gone and the
array stays clustered. -/
theorem erase_spec {s : HashSet α} {index : Nat} {e : α} (hc : Clustered hashfn s.data)
    (he : s.data.getD index none = some e) {z : Nat} (hz : s.data.getD z none = none)
    (hzlt : z < s.numBuckets) :
    ∃ d j, s.erase hashfn index =
        some ({ s with data := d, numElements := s.numElements - 1 }, j) ∧
      d.length = s.data.length ∧ Clustered hashfn d ∧ (e :: elems d).Perm (elems s.data) := by
  have hilt := lt_length_of_getD_eq_some he
  obtain ⟨d, b, hd, hdlen, hdc, hdperm⟩ := eraseLoop_spec s.numBuckets s index index false z
    (ShiftInv.start hc hilt (occupied_of_getD_eq_some he)) hz hzlt
    (Nat.le_of_lt (dist_lt hilt hzlt))
  refine ⟨d, if b then index else ({ s with data := d } : HashSet α).nextNonEmptySlot index, ?_,
    hdlen, hdc, (hdperm.cons e).trans (elems_set_none_perm he)⟩
  rw [erase, hd]
  rfl

/-- The loop of `erase` on an array with no empty slot never stops: a moved element leaves its
slot full until the loop ends. -/
theorem eraseLoop_full : ∀ (fuel : Nat) (s : HashSet α) (emptyIndex j : Nat) (filled : Bool),
    0 < s.numBuckets → (∀ i < s.numBuckets, Occupied s.data i) →
      s.eraseLoop hashfn emptyIndex j filled fuel = none
  | 0, _, _, _, _, _, _ => rfl
  | fuel + 1, s, emptyIndex, j, filled, hn, hfull => by
    obtain ⟨e, he⟩ := Option.isSome_iff_exists.1 (hfull _ (nextIndex_lt hn j))
    rw [eraseLoop, elementForIndex, he]
    dsimp only
    split_ifs
    · refine eraseLoop_full fuel _ _ _ true (by simpa [numBuckets_eq] using hn) fun i hi => ?_
      rw [numBuckets_eq, List.length_set] at hi
      unfold Occupied
      rw [getD_set]
      split_ifs
      · rfl
      · exact hfull i hi
    · exact eraseLoop_full fuel s emptyIndex _ filled hn hfull

end Erase

/-! ### The representation invariant -/

/-- `Resize` never makes fewer slots than it is asked for. -/
theorem le_clamp (newSize : Nat) :
    newSize ≤ if newSize < kMinBuckets then kMinBuckets else newSize := by
  split_ifs <;> omega

/-- Dividing by a load factor below one never gives fewer slots than elements. -/
theorem le_floor_div (n : Nat) {q : ℚ} (hq : 0 < q) (hq1 : q < 1) : n ≤ ⌊(n : ℚ) / q⌋₊ := by
  apply Nat.le_floor
  rw [le_div_iff₀ hq]
  have hn : (0 : ℚ) ≤ n := Nat.cast_nonneg n
  nlinarith

section Invariant

variable (hashfn : α → Nat) (pred : α → α → Bool)

/-- The representation invariant: `num_elements_` counts the elements; every element is reached
from the slot of its hash with no empty slot between, as `Verify()` checks; no two elements are
equal under `Pred`; and `elements_until_expand_` is `NumBuckets() * max_load_factor_`. -/
structure Inv (s : HashSet α) : Prop where
  numElements_eq : s.numElements = (elems s.data).length
  clustered : Clustered hashfn s.data
  distinct : (elems s.data).Pairwise fun a b => pred a b = false
  elementsUntilExpand_eq :
    s.elementsUntilExpand = ⌊(s.numBuckets : ℚ) * s.loadFactors.maxLoadFactor⌋₊

theorem inv_create (lf : LoadFactors) : Inv hashfn pred (create lf : HashSet α) := by
  refine ⟨rfl, fun i e h => ?_, List.Pairwise.nil, ?_⟩
  · rw [create, List.getD_nil] at h
    cases h
  · simp [create, numBuckets]

theorem inv_ofBuffer (lf : LoadFactors) (bufferSize : Nat) :
    Inv hashfn pred (ofBuffer lf bufferSize : HashSet α) :=
  ⟨by simp [ofBuffer], clustered_replicate_none hashfn _, by simp [ofBuffer],
    by simp [ofBuffer, numBuckets]⟩

theorem inv_clear (s : HashSet α) : Inv hashfn pred s.clear := by
  refine ⟨rfl, fun i e h => ?_, List.Pairwise.nil, ?_⟩
  · rw [clear, List.getD_nil] at h
    cases h
  · simp [clear, numBuckets]

variable {hashfn pred}

/-- Distinctness under a symmetric `Pred` does not depend on the order of the elements. -/
theorem distinct_symm (hsymm : ∀ a b, pred a b = pred b a) {a b : α} (hab : pred a b = false) :
    pred b a = false := by
  rw [hsymm]
  exact hab

/-- What `Resize` keeps of the invariant: the same elements, clustered in the new array. -/
theorem Inv.resize (hsymm : ∀ a b, pred a b = pred b a) {s s' : HashSet α} {newSize : Nat}
    (hi : Inv hashfn pred s)
    (hroom : s.numElements ≤ if newSize < kMinBuckets then kMinBuckets else newSize)
    (h : s.resize hashfn newSize = some s') : Inv hashfn pred s' := by
  obtain ⟨d, hd, -, hdc, hdperm⟩ := @resize_spec _ hashfn s newSize
    (hi.numElements_eq ▸ hroom)
  rw [hd, Option.some.injEq] at h
  subst h
  exact ⟨by rw [hdperm.length_eq, hi.numElements_eq], hdc,
    (hdperm.pairwise_iff (distinct_symm hsymm)).2 hi.distinct, rfl⟩

/-- `Expand()` resizes to no fewer slots than elements. -/
theorem numElements_le_expand (s : HashSet α) :
    s.numElements ≤ if ⌊(s.size : ℚ) / s.loadFactors.minLoadFactor⌋₊ < kMinBuckets then kMinBuckets
      else ⌊(s.size : ℚ) / s.loadFactors.minLoadFactor⌋₊ :=
  (le_floor_div _ s.loadFactors.minLoadFactor_pos
    (s.loadFactors.minLoadFactor_lt.trans s.loadFactors.maxLoadFactor_lt_one)).trans (le_clamp _)

theorem Inv.expandIfFull (hsymm : ∀ a b, pred a b = pred b a) {s s' : HashSet α}
    (hi : Inv hashfn pred s) (h : s.expandIfFull hashfn = some s') : Inv hashfn pred s' := by
  rw [HashSet.expandIfFull] at h
  split_ifs at h
  · exact hi.resize hsymm (numElements_le_expand s) h
  · cases h
    exact hi

/-- The expansion before an insertion keeps the elements. -/
theorem Inv.expandIfFull_perm {s s' : HashSet α} (hi : Inv hashfn pred s)
    (h : s.expandIfFull hashfn = some s') : (elems s'.data).Perm (elems s.data) := by
  rw [HashSet.expandIfFull] at h
  split_ifs at h
  · obtain ⟨d, hd, -, -, hdperm⟩ := @resize_spec _ hashfn s _
      (hi.numElements_eq ▸ numElements_le_expand s)
    rw [expand, hd, Option.some.injEq] at h
    rw [← h]
    exact hdperm
  · cases h
    exact List.Perm.refl _

theorem numBuckets_pos_of_findIndexImpl {s : HashSet α} {kCanFind : Bool} {element : α}
    {hash : Nat} {r : Nat × Bool} (h : s.findIndexImpl pred kCanFind element hash = some r) :
    0 < s.numBuckets := by
  rw [Nat.pos_iff_ne_zero]
  intro h0
  rw [findIndexImpl, h0] at h
  cases h

/-- The probe of `Put` finds no element: it ends at an empty slot. -/
theorem findIndexImpl_cannot_find {s : HashSet α} {element : α} {hash index : Nat}
    {found : Bool} (h : s.findIndexImpl pred false element hash = some (index, found)) :
    found = false := by
  have hn := numBuckets_pos_of_findIndexImpl h
  rw [findIndexImpl, findIndexLoop_eq _ _ _ _ (indexForHash_lt hn hash), Option.map_eq_some_iff] at h
  obtain ⟨i, hscan, hi⟩ := h
  simp only [Prod.mk.injEq] at hi
  obtain ⟨rfl, rfl⟩ := hi
  obtain ⟨k, -, -, hstop, -⟩ := scan_eq_some (indexForHash_lt hn hash) hscan
  unfold probeStop at hstop
  cases hslot : s.elementForIndex i with
  | none => rfl
  | some slot =>
    rw [hslot] at hstop
    cases hstop

/-- A probe of `insert` that ended at an empty slot passed every element equal to the one looked
for: there is none. -/
theorem fresh_of_not_found (hhash : ∀ a b, pred a b = true → hashfn a = hashfn b)
    {s : HashSet α} {e : α} {i : Nat} (hc : Clustered hashfn s.data)
    (hfind : s.findIndexImpl pred true e (hashfn e) = some (i, false)) :
    ∀ x ∈ elems s.data, pred x e = false := by
  have hn := numBuckets_pos_of_findIndexImpl hfind
  obtain ⟨hilt, hifree, hscan⟩ := findIndexImpl_not_found hn hfind
  intro x hx
  obtain ⟨p, hp⟩ := mem_elems_iff.1 hx
  by_contra hpx
  have hxe : pred x e = true := by simpa using hpx
  -- an element equal to `e` has its hash, so the probe would have passed it
  refine hc.not_of_scanned (P := fun b => pred b e = true) (Nat.mod_lt _ hn) hifree hilt ?_ hp
    (by rw [hhash x e hxe]) hxe
  intro k hk b hb
  obtain ⟨slot, hslot, hne⟩ := hscan k hk
  have hsb : some slot = some b := hslot.symm.trans hb
  cases hsb
  simpa using hne

/-- An element placed in the empty slot its probe ended at, where no element equal to it is in the
set. -/
theorem Inv.place (hsymm : ∀ a b, pred a b = pred b a) {s : HashSet α} {kCanFind : Bool}
    {e : α} {i : Nat} (hi : Inv hashfn pred s)
    (hfind : s.findIndexImpl pred kCanFind e (hashfn e) = some (i, false))
    (hfresh : ∀ x ∈ elems s.data, pred x e = false) :
    Inv hashfn pred
      { s with data := s.data.set i (some e), numElements := s.numElements + 1 } := by
  have hn := numBuckets_pos_of_findIndexImpl hfind
  obtain ⟨hilt, hifree, hscan⟩ := findIndexImpl_not_found hn hfind
  have hperm := elems_set_some_perm (e := e) hifree hilt
  refine ⟨?_, hi.clustered.set_some hifree fun k hk => ?_, ?_, ?_⟩
  · rw [hperm.length_eq, List.length_cons, hi.numElements_eq]
  · -- the probe passed only occupied slots
    obtain ⟨slot, hslot, -⟩ := hscan k hk
    exact occupied_of_getD_eq_some hslot
  · rw [hperm.pairwise_iff (distinct_symm hsymm), List.pairwise_cons]
    exact ⟨fun x hx => distinct_symm hsymm (hfresh x hx), hi.distinct⟩
  · simpa [numBuckets] using hi.elementsUntilExpand_eq

theorem insert_eq_some {s : HashSet α} {e : α} {r : HashSet α × Nat × Bool}
    (h : s.insert hashfn pred e = some r) :
    ∃ s₁ i, s.expandIfFull hashfn = some s₁ ∧
      ((s₁.findIndexImpl pred true e (hashfn e) = some (i, true) ∧ r = (s₁, i, false)) ∨
        (s₁.findIndexImpl pred true e (hashfn e) = some (i, false) ∧
          r = ({ s₁ with data := s₁.data.set i (some e), numElements := s₁.numElements + 1 },
            i, true))) := by
  rw [insert, insertWithHash, Option.bind_eq_some_iff] at h
  obtain ⟨s₁, hexp, h⟩ := h
  obtain ⟨⟨i, found⟩, hfind, rfl⟩ := Option.map_eq_some_iff.1 h
  cases found with
  | false => exact ⟨s₁, i, hexp, .inr ⟨hfind, rfl⟩⟩
  | true => exact ⟨s₁, i, hexp, .inl ⟨hfind, rfl⟩⟩

theorem put_eq_some {s s' : HashSet α} {e : α} (h : s.put hashfn pred e = some s') :
    ∃ s₁ i, s.expandIfFull hashfn = some s₁ ∧
      s₁.findIndexImpl pred false e (hashfn e) = some (i, false) ∧
      s' = { s₁ with data := s₁.data.set i (some e), numElements := s₁.numElements + 1 } := by
  rw [put, putWithHash, Option.bind_eq_some_iff] at h
  obtain ⟨s₁, hexp, h⟩ := h
  obtain ⟨⟨i, found⟩, hfind, rfl⟩ := Option.map_eq_some_iff.1 h
  obtain rfl := findIndexImpl_cannot_find hfind
  exact ⟨s₁, i, hexp, hfind, rfl⟩

theorem Inv.insert (hsymm : ∀ a b, pred a b = pred b a)
    (hhash : ∀ a b, pred a b = true → hashfn a = hashfn b) {s s' : HashSet α} {e : α} {i : Nat}
    {inserted : Bool} (hi : Inv hashfn pred s)
    (h : s.insert hashfn pred e = some (s', i, inserted)) : Inv hashfn pred s' := by
  obtain ⟨s₁, j, hexp, ⟨-, hr⟩ | ⟨hfind, hr⟩⟩ := insert_eq_some h
  · -- an element equal to `e` is there: the set is the expanded one
    obtain ⟨rfl, -⟩ := Prod.mk.inj hr
    exact hi.expandIfFull hsymm hexp
  · obtain ⟨rfl, -⟩ := Prod.mk.inj hr
    have hi₁ := hi.expandIfFull hsymm hexp
    exact hi₁.place hsymm hfind (fresh_of_not_found hhash hi₁.clustered hfind)

theorem Inv.put (hsymm : ∀ a b, pred a b = pred b a) {s s' : HashSet α} {e : α}
    (hi : Inv hashfn pred s) (hnew : ∀ x ∈ elems s.data, pred x e = false)
    (h : s.put hashfn pred e = some s') : Inv hashfn pred s' := by
  obtain ⟨s₁, i, hexp, hfind, rfl⟩ := put_eq_some h
  have hperm := hi.expandIfFull_perm hexp
  exact (hi.expandIfFull hsymm hexp).place hsymm hfind fun x hx => hnew x (hperm.subset hx)

theorem Inv.erase (hsymm : ∀ a b, pred a b = pred b a) {s s' : HashSet α} {index j : Nat}
    (hi : Inv hashfn pred s) (hocc : Occupied s.data index)
    (h : s.erase hashfn index = some (s', j)) : Inv hashfn pred s' := by
  obtain ⟨e, he⟩ := Option.isSome_iff_exists.1 hocc
  have hn : 0 < s.numBuckets := Nat.lt_of_le_of_lt (Nat.zero_le _) (lt_length_of_getD_eq_some he)
  -- the loop of `erase` returned, so it met an empty slot
  obtain ⟨r, hr, -⟩ := Option.map_eq_some_iff.1 h
  obtain ⟨z, hz, hzlt⟩ := exists_empty_of_eraseLoop hn hr
  obtain ⟨d, j', hd, hdlen, hdc, hdperm⟩ := erase_spec hi.clustered he hz hzlt
  rw [hd, Option.some.injEq, Prod.mk.injEq] at h
  obtain ⟨rfl, -⟩ := h
  refine ⟨?_, hdc, ((hdperm.pairwise_iff (distinct_symm hsymm)).2 hi.distinct).of_cons, ?_⟩
  · rw [hi.numElements_eq, ← hdperm.length_eq, List.length_cons, Nat.add_sub_cancel]
  · simpa [numBuckets, hdlen] using hi.elementsUntilExpand_eq

theorem Inv.reserve (hsymm : ∀ a b, pred a b = pred b a) {s s' : HashSet α} {numElements : Nat}
    (hi : Inv hashfn pred s) (h : s.reserve hashfn numElements = some s') : Inv hashfn pred s' := by
  rw [HashSet.reserve] at h
  split_ifs at h with hgt
  · -- the new array has more slots than the old one, which has room for every element
    refine hi.resize hsymm ?_ h
    rw [hi.numElements_eq]
    exact ((length_elems_le _).trans (Nat.le_of_lt hgt)).trans (le_clamp _)
  · cases h
    exact hi

theorem Inv.shrinkToMaximumLoad (hsymm : ∀ a b, pred a b = pred b a) {s s' : HashSet α}
    (hi : Inv hashfn pred s) (h : s.shrinkToMaximumLoad hashfn = some s') : Inv hashfn pred s' :=
  hi.resize hsymm ((le_floor_div _ s.loadFactors.maxLoadFactor_pos
    s.loadFactors.maxLoadFactor_lt_one).trans (le_clamp _)) h

theorem Inv.setLoadFactor (hsymm : ∀ a b, pred a b = pred b a) {s s' : HashSet α}
    {lf : LoadFactors} (hi : Inv hashfn pred s) (h : s.setLoadFactor hashfn lf = some s') :
    Inv hashfn pred s' := by
  have hi₁ : Inv hashfn pred { s with
      loadFactors := lf,
      elementsUntilExpand := ⌊(s.numBuckets : ℚ) * lf.maxLoadFactor⌋₊ } :=
    ⟨hi.numElements_eq, hi.clustered, hi.distinct, rfl⟩
  rw [HashSet.setLoadFactor] at h
  split_ifs at h
  · -- the mean of the load factors is below one too
    have hmean : 0 < (lf.minLoadFactor + lf.maxLoadFactor) * (1 / 2) := by
      have := lf.minLoadFactor_pos
      have := lf.maxLoadFactor_pos
      positivity
    have hmean1 : (lf.minLoadFactor + lf.maxLoadFactor) * (1 / 2) < 1 := by
      have := lf.minLoadFactor_lt
      have := lf.maxLoadFactor_lt_one
      linarith
    exact hi₁.resize hsymm ((le_floor_div _ hmean hmean1).trans (le_clamp _)) h
  · cases h
    exact hi₁

end Invariant

/-! ### `Verify()` -/

section Verify

variable {hashfn : α → Nat}

/-- `Verify()` finds no error exactly where every element is reached from the slot of its hash
with no empty slot between. -/
theorem verify_eq_zero_iff (s : HashSet α) : s.verify hashfn = 0 ↔ Clustered hashfn s.data := by
  rw [verify, List.length_eq_zero_iff, List.filter_eq_nil_iff]
  constructor
  · intro h i e he
    have hi := lt_length_of_getD_eq_some he
    have hn : 0 < s.numBuckets := Nat.lt_of_le_of_lt (Nat.zero_le _) hi
    have hslot := h i (List.mem_range.2 hi)
    rw [elementForIndex, he] at hslot
    simp only [bne_iff_ne, ne_eq, not_not] at hslot
    -- with its slot emptied, the element's probe ends at its slot: the run from its hash's slot
    -- reaches it, in the array with the slot emptied and so in the array itself
    obtain ⟨-, -, hreach⟩ := firstAvailableSlot_eq_some
      (by simpa [numBuckets_eq] using indexForHash_lt hn (hashfn e)) hslot
    rw [indexForHash_eq hn] at hreach
    refine Reach.mono List.length_set.symm (fun j hj => ?_) hreach
    unfold Occupied at hj ⊢
    rw [getD_set] at hj
    split_ifs at hj
    · cases hj
    · exact hj
  · intro hc i hi
    have hi' : i < s.numBuckets := List.mem_range.1 hi
    have hn : 0 < s.numBuckets := Nat.lt_of_le_of_lt (Nat.zero_le _) hi'
    cases he : s.elementForIndex i with
    | none => simp
    | some e =>
      simp only [bne_iff_ne, ne_eq, not_not]
      rw [indexForHash_eq hn]
      refine firstAvailableSlot_of_reach (by simpa [numBuckets_eq] using Nat.mod_lt (hashfn e) hn)
        (by simpa [numBuckets_eq] using hi') ?_ ((hc i e he).set_end (Nat.mod_lt _ hn) hi' none)
      rw [getD_set, if_pos ⟨rfl, hi'⟩]

end Verify

/-! ### Reachable sets -/

/-- The public operations that change a `HashSet`. -/
inductive Op (α : Type) where
  | insert (element : α)
  | put (element : α)
  | erase (index : Nat)
  | clear
  | reserve (numElements : Nat)
  | shrinkToMaximumLoad
  | setLoadFactor (lf : LoadFactors)

namespace Op

variable (hashfn : α → Nat) (pred : α → α → Bool)

/-- An operation on a set: the set after it, or `none` where it loops forever. -/
def exec (s : HashSet α) : Op α → Option (HashSet α)
  | insert element => (s.insert hashfn pred element).map Prod.fst
  | put element => s.put hashfn pred element
  | erase index => (s.erase hashfn index).map Prod.fst
  | clear => some s.clear
  | reserve numElements => s.reserve hashfn numElements
  | shrinkToMaximumLoad => s.shrinkToMaximumLoad hashfn
  | setLoadFactor lf => s.setLoadFactor hashfn lf

/-- What the source asks of a caller: `Put` an element known not to be in the set, and `erase` at
an iterator to an element (`DCHECK(!IsFreeSlot(empty_index))`). -/
def Allowed (s : HashSet α) : Op α → Prop
  | put element => ∀ x ∈ elems s.data, pred x element = false
  | erase index => Occupied s.data index
  | _ => True

end Op

/-- The sets a program can make: by a constructor, then by operations it may call that
return. -/
inductive Reachable (hashfn : α → Nat) (pred : α → α → Bool) : HashSet α → Prop where
  | create (lf : LoadFactors) : Reachable hashfn pred (HashSet.create lf)
  | ofBuffer (lf : LoadFactors) (bufferSize : Nat) :
      Reachable hashfn pred (HashSet.ofBuffer lf bufferSize)
  | step {s s' : HashSet α} {op : Op α} : Reachable hashfn pred s → op.Allowed pred s →
      op.exec hashfn pred s = some s' → Reachable hashfn pred s'

section Reachable

variable {hashfn : α → Nat} {pred : α → α → Bool}

theorem Inv.step (hsymm : ∀ a b, pred a b = pred b a)
    (hhash : ∀ a b, pred a b = true → hashfn a = hashfn b) {s s' : HashSet α} {op : Op α}
    (hi : Inv hashfn pred s) (hallowed : op.Allowed pred s) (h : op.exec hashfn pred s = some s') :
    Inv hashfn pred s' := by
  cases op with
  | insert e =>
    obtain ⟨⟨s₁, i, inserted⟩, hins, rfl⟩ := Option.map_eq_some_iff.1 h
    exact hi.insert hsymm hhash hins
  | put e => exact hi.put hsymm hallowed h
  | erase index =>
    obtain ⟨⟨s₁, j⟩, her, rfl⟩ := Option.map_eq_some_iff.1 h
    exact hi.erase hsymm hallowed her
  | clear =>
    cases h
    exact inv_clear hashfn pred s
  | reserve numElements => exact hi.reserve hsymm h
  | shrinkToMaximumLoad => exact hi.shrinkToMaximumLoad hsymm h
  | setLoadFactor lf => exact hi.setLoadFactor hsymm h

/-- Every set a program can make keeps the representation invariant, for a `Pred` that is
symmetric and a `HashFn` that agrees on equal elements. -/
theorem inv_of_reachable (hsymm : ∀ a b, pred a b = pred b a)
    (hhash : ∀ a b, pred a b = true → hashfn a = hashfn b) {s : HashSet α}
    (h : Reachable hashfn pred s) : Inv hashfn pred s := by
  induction h with
  | create lf => exact inv_create hashfn pred lf
  | ofBuffer lf bufferSize => exact inv_ofBuffer hashfn pred lf bufferSize
  | step _ hallowed hexec ih => exact ih.step hsymm hhash hallowed hexec

/-- `Verify()` finds no error in a set a program can make. -/
theorem verify_eq_zero_of_reachable (hsymm : ∀ a b, pred a b = pred b a)
    (hhash : ∀ a b, pred a b = true → hashfn a = hashfn b) {s : HashSet α}
    (h : Reachable hashfn pred s) : s.verify hashfn = 0 :=
  (verify_eq_zero_iff s).2 (inv_of_reachable hsymm hhash h).clustered

theorem verify_eq_zero_of_reachable_create :
    (create LoadFactors.kDefault : HashSet Nat).verify id = 0 :=
  @verify_eq_zero_of_reachable Nat id (· == ·) (fun _ _ => Bool.beq_comm)
    (fun _ _ h => by simpa using h) _ (Reachable.create LoadFactors.kDefault)

end Reachable

/-! ### A full array

A minimum load factor above `1000 / 1001` lets `Expand()` resize a set of up to `kMinBuckets`
elements to `kMinBuckets` slots: `size() / min_load_factor_` stays below `kMinBuckets + 1`. The
elements `0, …, 999` inserted in order, with the identity as the hash, then fill every slot. -/

section FullTable

variable {lf : LoadFactors}

/-- The array of `n` slots after the elements `0, …, k - 1` were inserted in order with the
identity as the hash: each in its own slot. -/
def inOrder (n k : Nat) : List (Option Nat) :=
  (List.range k).map some ++ List.replicate (n - k) none

theorem length_inOrder {n k : Nat} (hk : k ≤ n) : (inOrder n k).length = n := by
  simp only [inOrder, List.length_append, List.length_map, List.length_range, List.length_replicate]
  omega

theorem getD_inOrder (n k i : Nat) :
    (inOrder n k).getD i none = if i < k then some i else none := by
  rw [inOrder, List.getD_eq_getElem?_getD]
  by_cases hi : i < k
  · rw [List.getElem?_append_left (by simpa using hi), if_pos hi]
    simp [hi]
  · rw [List.getElem?_append_right (by simpa using hi), if_neg hi, List.getElem?_replicate]
    split_ifs <;> rfl

theorem set_inOrder {n k : Nat} (hk : k < n) :
    (inOrder n k).set k (some k) = inOrder n (k + 1) := by
  obtain ⟨m, hm⟩ : ∃ m, n - k = m + 1 := ⟨n - k - 1, by omega⟩
  rw [inOrder, inOrder, hm, List.set_append_right _ _ (by simp), List.length_map, List.length_range,
    Nat.sub_self, List.replicate_succ, List.set_cons_zero, List.range_succ, List.map_append,
    List.append_assoc, show n - (k + 1) = m by omega]
  rfl

/-- The loop of `Resize` moves the elements `j, …, j + c - 1` in order into slots of their
own. -/
theorem moveElements_inOrder (n : Nat) : ∀ (c j r : Nat) (s : HashSet Nat), s.data = inOrder n j →
    j + c ≤ n → s.moveElements id ((List.range' j c).map some ++ List.replicate r none) =
      some { s with data := inOrder n (j + c) }
  | 0, j, r, s, hs, _ => by
    rw [List.range'_zero, List.map_nil, List.nil_append, moveElements_replicate_none, Nat.add_zero,
      ← hs]
  | c + 1, j, r, s, hs, hjc => by
    have hj : j < s.numBuckets := by
      rw [numBuckets_eq, hs, length_inOrder (by omega)]
      omega
    have hfree : s.data.getD j none = none := by rw [hs, getD_inOrder, if_neg (Nat.lt_irrefl j)]
    rw [List.range'_succ, List.map_cons, List.cons_append, moveElements, id_eq,
      indexForHash_eq (Nat.zero_lt_of_lt hj), Nat.mod_eq_of_lt hj, firstAvailableSlot_of_free hj hfree,
      Option.bind_some, moveElements_inOrder n c (j + 1) r _ (by rw [hs, set_inOrder (by omega)])
        (by omega), show j + 1 + c = j + (c + 1) by omega]

theorem resize_inOrder {n m k e : Nat} (newSize : Nat)
    (hn : (if newSize < kMinBuckets then kMinBuckets else newSize) = n) (hk : k ≤ n) (hkm : k ≤ m) :
    resize id ⟨inOrder m k, k, e, lf⟩ newSize =
      some ⟨inOrder n k, k, ⌊(n : ℚ) * lf.maxLoadFactor⌋₊, lf⟩ := by
  have hold : inOrder m k = (List.range' 0 k).map some ++ List.replicate (m - k) none := by
    rw [inOrder, List.range_eq_range']
  rw [resize]
  dsimp only
  rw [hn, allocateStorage, hold, moveElements_inOrder n k 0 (m - k) _ (by simp [inOrder]) (by omega),
    Nat.zero_add, Option.map_some, numBuckets_eq, length_inOrder hk]

/-- Under the bound on the minimum load factor, `Expand()` of up to `kMinBuckets` elements makes
`kMinBuckets` slots. -/
theorem expand_clamp_eq (hmin : 1000 / 1001 < lf.minLoadFactor) {k : Nat} (hk : k ≤ kMinBuckets) :
    (if ⌊(k : ℚ) / lf.minLoadFactor⌋₊ < kMinBuckets then kMinBuckets
      else ⌊(k : ℚ) / lf.minLoadFactor⌋₊) = kMinBuckets := by
  have hpos := lf.minLoadFactor_pos
  have hk' : (k : ℚ) ≤ 1000 := by
    unfold kMinBuckets at hk
    exact_mod_cast hk
  have hlt : (k : ℚ) / lf.minLoadFactor < ((1001 : Nat) : ℚ) := by
    rw [div_lt_iff₀ hpos]
    push_cast
    linarith
  have hfloor := (Nat.floor_lt (div_nonneg (Nat.cast_nonneg k) hpos.le)).2 hlt
  unfold kMinBuckets
  split_ifs <;> omega

theorem expandIfFull_inOrder (hmin : 1000 / 1001 < lf.minLoadFactor) {m k e : Nat}
    (hk : k ≤ kMinBuckets) (hkm : k ≤ m)
    (he : e ≤ k ∨ (m = kMinBuckets ∧ e = ⌊(kMinBuckets : ℚ) * lf.maxLoadFactor⌋₊)) :
    expandIfFull id ⟨inOrder m k, k, e, lf⟩ =
      some ⟨inOrder kMinBuckets k, k, ⌊(kMinBuckets : ℚ) * lf.maxLoadFactor⌋₊, lf⟩ := by
  rw [expandIfFull]
  split_ifs with hfull
  · exact resize_inOrder _ (expand_clamp_eq hmin hk) hk hkm
  · -- no expansion: the array is already the one of `kMinBuckets` slots
    obtain ⟨rfl, rfl⟩ := he.resolve_left hfull
    rfl

theorem insert_inOrder (hmin : 1000 / 1001 < lf.minLoadFactor) {m k e : Nat}
    (hk : k < kMinBuckets) (hkm : k ≤ m)
    (he : e ≤ k ∨ (m = kMinBuckets ∧ e = ⌊(kMinBuckets : ℚ) * lf.maxLoadFactor⌋₊)) :
    insert id (· == ·) ⟨inOrder m k, k, e, lf⟩ k =
      some (⟨inOrder kMinBuckets (k + 1), k + 1, ⌊(kMinBuckets : ℚ) * lf.maxLoadFactor⌋₊, lf⟩,
        k, true) := by
  have hn : k < (⟨inOrder kMinBuckets k, k, ⌊(kMinBuckets : ℚ) * lf.maxLoadFactor⌋₊, lf⟩ :
      HashSet Nat).numBuckets := by
    rw [numBuckets_eq, length_inOrder hk.le]
    exact hk
  have hidx : (⟨inOrder kMinBuckets k, k, ⌊(kMinBuckets : ℚ) * lf.maxLoadFactor⌋₊, lf⟩ :
      HashSet Nat).indexForHash k = k := by
    rw [indexForHash_eq (Nat.zero_lt_of_lt hn), Nat.mod_eq_of_lt hn]
  have hfree : (inOrder kMinBuckets k).getD k none = none := by
    rw [getD_inOrder, if_neg (Nat.lt_irrefl k)]
  rw [insert, insertWithHash, expandIfFull_inOrder hmin hk.le hkm he, Option.bind_some, id_eq,
    findIndexImpl_of_free (Nat.zero_lt_of_lt hn) (by rw [hidx]; exact hfree), hidx, Option.map_some]
  dsimp only
  rw [if_neg Bool.false_ne_true, set_inOrder hk]

/-- Inserting `0, …, k` in order into a set made with such load factors: every element has a slot
of its own among `kMinBuckets`. -/
theorem reachable_inOrder (hmin : 1000 / 1001 < lf.minLoadFactor) :
    ∀ k, k < kMinBuckets → Reachable id (· == ·)
      (⟨inOrder kMinBuckets (k + 1), k + 1, ⌊(kMinBuckets : ℚ) * lf.maxLoadFactor⌋₊, lf⟩ :
        HashSet Nat)
  | 0, hk => @Reachable.step _ _ _ _ _ (.insert 0) (Reachable.create lf) trivial
      (by rw [Op.exec, show HashSet.create lf = ⟨inOrder 0 0, 0, 0, lf⟩ from rfl,
        insert_inOrder hmin hk (Nat.le_refl 0) (.inl (Nat.le_refl 0)), Option.map_some])
  | k + 1, hk => @Reachable.step _ _ _ _ _ (.insert (k + 1)) (reachable_inOrder hmin k (by omega))
      trivial (by rw [Op.exec, insert_inOrder hmin hk (by omega) (.inr ⟨rfl, rfl⟩), Option.map_some])

/-- Load factors just below one: `SetLoadFactor(1023.0 / 1024, 2047.0 / 2048)`. -/
def nearOneLoadFactors : LoadFactors :=
  ⟨1023 / 1024, 2047 / 2048, by norm_num, by norm_num, by norm_num⟩

end FullTable

end HashSet

end Art
