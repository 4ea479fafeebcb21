import Art.Lib.WindowSearch
import Art.Gc.SpaceBitmap

/-!
# Large objects in the region space (`runtime/gc/space/region_space-inl.h`)

`AllocLarge` allocates an object of more than one region as a run of `k` contiguous free regions:
the first becomes `kRegionStateLarge` with all `k * kRegionSize` bytes allocated, the others
`kRegionStateLargeTail`. `AllocLargeInRange` finds the run with `WindowSearch.search`: the window
at `left` is checked region by region, and after a region that is not free the next window starts
past it. With `kCyclicRegionAllocation` the search starts at `cyclic_alloc_region_index_` and
goes on over `[0, min(cyclic_alloc_region_index_ + k - 1, num_regions_))`, the windows that start
before it; the index then moves past the run.

Only what `AllocLarge` reads and writes is modelled: of a region its index, `Begin()`, `Top()`,
state, type, allocation time and the newly-allocated flag; of the space the regions, the counts
of non-free and evacuation regions, the non-free limit, the cyclic index and `time_`.
`TraceHeapSize` and the `mprotect` of `kProtectClearedRegions` change nothing modelled here.

`AllocLargeInRange` returns the first free window from where it starts (`allocLargeInRange_some`),
or nothing, leaving the space as it was, where there is none (`allocLargeInRange_none_iff`).
`AllocLarge` with cyclic allocation fails exactly when the reserve for evacuation would be used or
no window is free; otherwise it takes the first free window from the cyclic index on, or else the
first one (`allocLarge_cyclic_cases`), with the effect on the regions and counts of
`allocLargeRegions_spec`; `allocLarge_cyclic` puts these together. Without cyclic allocation it
takes the first free window (`allocLarge_noncyclic_cases`).
-/

namespace Art

namespace RegionSpace

/-- `RegionSpace::kRegionSize`. -/
def kRegionSize : Nat := 256 * 1024

inductive RegionType
  | all
  | fromSpace
  | unevacFromSpace
  | toSpace
  | none
  deriving DecidableEq, Repr, Inhabited

inductive RegionState
  | free
  | allocated
  | large
  | largeTail
  deriving DecidableEq, Repr, Inhabited

/-- What `AllocLarge` reads and writes of a `Region`. -/
structure Region where
  idx : Nat
  begin : Nat
  top : Nat
  state : RegionState
  type : RegionType
  isNewlyAllocated : Bool
  allocTime : Nat
  deriving DecidableEq, Repr, Inhabited

namespace Region

/-- `IsFree()`, without its debug checks. -/
def isFree (r : Region) : Bool := r.state == .free

/-- The part of `MarkAsAllocated` on the region; `AdjustNonFreeRegionLimit` is done on the space
by `RegionSpace.unfreeRegion`. -/
def markAsAllocated (r : Region) (allocTime : Nat) : Region :=
  { r with allocTime := allocTime, type := .toSpace }

/-- `MarkAsAllocated`, then the new state: the body of `Unfree`, `UnfreeLarge` and
`UnfreeLargeTail`. -/
def unfreeAs (state : RegionState) (r : Region) (allocTime : Nat) : Region :=
  { r.markAsAllocated allocTime with state := state }

def unfreeLarge (r : Region) (allocTime : Nat) : Region := r.unfreeAs .large allocTime

def unfreeLargeTail (r : Region) (allocTime : Nat) : Region := r.unfreeAs .largeTail allocTime

def setNewlyAllocated (r : Region) : Region := { r with isNewlyAllocated := true }

def setTop (r : Region) (newTop : Nat) : Region := { r with top := newTop }

end Region

end RegionSpace

/-- What `AllocLarge` reads and writes of a `RegionSpace`: `num_regions_` is the length of
`regions`. -/
structure RegionSpace where
  regions : List RegionSpace.Region
  numNonFreeRegions : Nat
  numEvacRegions : Nat
  nonFreeRegionIndexLimit : Nat
  cyclicAllocRegionIndex : Nat
  time : Nat
  deriving DecidableEq, Repr

namespace RegionSpace

def numRegions (s : RegionSpace) : Nat := s.regions.length

/-- `regions_[i].IsFree()`. -/
def isFreeAt (s : RegionSpace) (i : Nat) : Bool := s.regions[i]?.any Region.isFree

def adjustNonFreeRegionLimit (s : RegionSpace) (newNonFreeRegionIndex : Nat) : RegionSpace :=
  { s with nonFreeRegionIndexLimit := max s.nonFreeRegionIndexLimit (newNonFreeRegionIndex + 1) }

def modifyRegion (s : RegionSpace) (i : Nat) (f : Region → Region) : RegionSpace :=
  { s with regions := s.regions.modify i f }

/-- `regions_[i].UnfreeLarge(this, time_)` or `UnfreeLargeTail`: the region's `MarkAsAllocated`
also moves the non-free limit past the region's index. -/
def unfreeRegion (s : RegionSpace) (unfree : Region → Nat → Region) (i : Nat) : RegionSpace :=
  (s.adjustNonFreeRegionLimit (s.regions.getD i default).idx).modifyRegion i (unfree · s.time)

/-- `++num_evac_regions_` for evacuation, `++num_non_free_regions_` otherwise. -/
def countRegion (kForEvac : Bool) (s : RegionSpace) : RegionSpace :=
  if kForEvac then { s with numEvacRegions := s.numEvacRegions + 1 }
  else { s with numNonFreeRegions := s.numNonFreeRegions + 1 }

/-- One turn of the loop over the tail regions `p` of the large region. -/
def allocLargeTail (kForEvac : Bool) (s : RegionSpace) (p : Nat) : RegionSpace :=
  let s := (s.unfreeRegion Region.unfreeLargeTail p).countRegion kForEvac
  if kForEvac then s else s.modifyRegion p Region.setNewlyAllocated

/-- The body of `AllocLargeInRange` once `[left, right)` is found free: the first region large
with `allocated` bytes up to its top, then the tail regions. -/
def allocLargeRegions (kForEvac : Bool) (s : RegionSpace) (left right allocated : Nat) :
    RegionSpace :=
  let s := (s.unfreeRegion Region.unfreeLarge left).countRegion kForEvac
  let s := s.modifyRegion left fun r => r.setTop (r.begin + allocated)
  let s := if kForEvac then s else s.modifyRegion left Region.setNewlyAllocated
  (List.range' (left + 1) (right - (left + 1))).foldl (allocLargeTail kForEvac) s

/-- `AllocLargeInRange<kForEvac>(begin, end, num_regs_in_large_region, ...)`: the address of the
large region, the bytes allocated (`*bytes_allocated`, `*usable_size` and
`*bytes_tl_bulk_allocated` alike) and `*next_region`, or nothing. -/
def allocLargeInRange (kForEvac : Bool) (s : RegionSpace) (begin rangeEnd numRegsInLargeRegion : Nat) :
    Option (Nat × Nat × Nat) × RegionSpace :=
  match WindowSearch.search s.isFreeAt numRegsInLargeRegion rangeEnd begin with
  | some (left, right) =>
    let allocated := numRegsInLargeRegion * kRegionSize
    (some ((s.regions.getD left default).begin, allocated, right),
      s.allocLargeRegions kForEvac left right allocated)
  | none => (none, s)

/-- `num_regs_in_large_region`. -/
def numRegsInLargeRegion (numBytes : Nat) : Nat :=
  SpaceBitmap.roundUp numBytes kRegionSize / kRegionSize

/-- `AllocLarge<kForEvac>(num_bytes, ...)` under `region_lock_`, with `kCyclicRegionAllocation`
as `cyclic`: the address and `*bytes_allocated`, or nothing. -/
def allocLarge (kForEvac cyclic : Bool) (s : RegionSpace) (numBytes : Nat) :
    Option (Nat × Nat) × RegionSpace :=
  let k := numRegsInLargeRegion numBytes
  -- retain sufficient free regions for full evacuation
  if !kForEvac && s.numRegions < (s.numNonFreeRegions + k) * 2 then (none, s)
  else if cyclic then
    let (region, s') := s.allocLargeInRange kForEvac s.cyclicAllocRegionIndex s.numRegions k
    let (region, s') := match region with
      | some r => (some r, s')
      | none => s'.allocLargeInRange kForEvac 0 (min (s.cyclicAllocRegionIndex + k - 1) s.numRegions) k
    match region with
    | some (addr, allocated, nextRegion) =>
      (some (addr, allocated), { s' with cyclicAllocRegionIndex := nextRegion % s.numRegions })
    | none => (none, s')
  else
    let (region, s') := s.allocLargeInRange kForEvac 0 s.numRegions k
    (region.map fun (addr, allocated, _) => (addr, allocated), s')


/-! ### What an allocation does to the regions -/

namespace Region

variable (kForEvac : Bool) (allocTime : Nat)

/-- The first region of a large region after `AllocLargeInRange`: large, allocated up to
`allocated` bytes past its begin, and newly allocated unless for evacuation. -/
def largeHead (allocated : Nat) (r : Region) : Region :=
  let r := (r.unfreeLarge allocTime).setTop (r.begin + allocated)
  if kForEvac then r else r.setNewlyAllocated

/-- A tail region of a large region after `AllocLargeInRange`. -/
def largeTail (r : Region) : Region :=
  let r := r.unfreeLargeTail allocTime
  if kForEvac then r else r.setNewlyAllocated

/-- What `AllocLargeInRange` does to region `j` when it allocates `[left, right)`. -/
def allocated (size left right j : Nat) (r : Region) : Region :=
  if j = left then r.largeHead kForEvac allocTime size
  else if left < j ∧ j < right then r.largeTail kForEvac allocTime else r

variable (r : Region) (size : Nat)

@[simp] theorem state_largeHead : (r.largeHead kForEvac allocTime size).state = .large := by
  cases kForEvac <;> rfl

@[simp] theorem top_largeHead : (r.largeHead kForEvac allocTime size).top = r.begin + size := by
  cases kForEvac <;> rfl

@[simp] theorem begin_largeHead : (r.largeHead kForEvac allocTime size).begin = r.begin := by
  cases kForEvac <;> rfl

@[simp] theorem state_largeTail : (r.largeTail kForEvac allocTime).state = .largeTail := by
  cases kForEvac <;> rfl

end Region

/-- The loop over the tail regions updates each of them in place. -/
theorem getElem?_foldl_modify {α : Type} (g : α → α) (a n : Nat) (l : List α) (j : Nat) :
    ((List.range' a n).foldl (fun l p => l.modify p g) l)[j]? =
      if a ≤ j ∧ j < a + n then l[j]?.map g else l[j]? := by
  induction n generalizing a l with
  | zero => rw [List.range'_zero, List.foldl_nil, if_neg (by omega)]
  | succ n ih =>
    rw [List.range'_succ, List.foldl_cons, ih, List.getElem?_modify]
    by_cases hj : a = j
    · subst hj
      rw [if_neg (by omega), if_pos ⟨Nat.le_refl a, by omega⟩]
      cases l[a]? <;> simp
    · by_cases hin : a + 1 ≤ j ∧ j < a + 1 + n
      · rw [if_pos hin, if_pos ⟨by omega, by omega⟩]
        cases l[j]? <;> simp [hj]
      · rw [if_neg hin, if_neg (by omega)]
        cases l[j]? <;> simp [hj]

section Alloc

variable (kForEvac : Bool) (s : RegionSpace)

theorem allocLargeTail_eq (p : Nat) :
    s.allocLargeTail kForEvac p =
      { s with regions := s.regions.modify p (Region.largeTail kForEvac s.time),
               numNonFreeRegions := s.numNonFreeRegions + (if kForEvac then 0 else 1),
               numEvacRegions := s.numEvacRegions + (if kForEvac then 1 else 0),
               nonFreeRegionIndexLimit :=
                 max s.nonFreeRegionIndexLimit ((s.regions.getD p default).idx + 1) } := by
  cases kForEvac <;>
    simp [allocLargeTail, unfreeRegion, countRegion, modifyRegion, adjustNonFreeRegionLimit,
      List.modify_modify_eq, Function.comp_def] <;> rfl

/-- The loop over the tail regions `[a, a + n)`: each updated once, each counted once. -/
theorem foldl_allocLargeTail (a n : Nat) :
    ((List.range' a n).foldl (allocLargeTail kForEvac) s).regions =
        (List.range' a n).foldl (fun rs p => rs.modify p (Region.largeTail kForEvac s.time))
          s.regions ∧
      ((List.range' a n).foldl (allocLargeTail kForEvac) s).numNonFreeRegions =
        s.numNonFreeRegions + (if kForEvac then 0 else n) ∧
      ((List.range' a n).foldl (allocLargeTail kForEvac) s).numEvacRegions =
        s.numEvacRegions + (if kForEvac then n else 0) ∧
      ((List.range' a n).foldl (allocLargeTail kForEvac) s).cyclicAllocRegionIndex =
        s.cyclicAllocRegionIndex ∧
      ((List.range' a n).foldl (allocLargeTail kForEvac) s).time = s.time := by
  induction n generalizing a s with
  | zero => simp
  | succ n ih =>
    rw [List.range'_succ, List.foldl_cons, List.foldl_cons, allocLargeTail_eq]
    obtain ⟨hregions, hnonFree, hevac, hcyclic, htime⟩ := ih _ (a + 1)
    refine ⟨hregions, ?_, ?_, hcyclic, htime⟩
    · rw [hnonFree]
      dsimp only
      split_ifs <;> omega
    · rw [hevac]
      dsimp only
      split_ifs <;> omega

/-- The first region, before the loop over the tail. -/
theorem allocLargeRegions_eq (left right size : Nat) :
    s.allocLargeRegions kForEvac left right size =
      (List.range' (left + 1) (right - (left + 1))).foldl (allocLargeTail kForEvac)
        { s with regions := s.regions.modify left (Region.largeHead kForEvac s.time size),
                 numNonFreeRegions := s.numNonFreeRegions + (if kForEvac then 0 else 1),
                 numEvacRegions := s.numEvacRegions + (if kForEvac then 1 else 0),
                 nonFreeRegionIndexLimit :=
                   max s.nonFreeRegionIndexLimit ((s.regions.getD left default).idx + 1) } := by
  cases kForEvac <;>
    simp [allocLargeRegions, unfreeRegion, countRegion, modifyRegion, adjustNonFreeRegionLimit,
      List.modify_modify_eq, Function.comp_def] <;> rfl

/-- `[left, right)` allocated as a large region: the regions updated as `Region.allocated` says,
and `right - left` regions counted. -/
theorem allocLargeRegions_spec {left right : Nat} (size : Nat) (hlr : left < right) :
    (∀ j, (s.allocLargeRegions kForEvac left right size).regions[j]? =
        s.regions[j]?.map (Region.allocated kForEvac s.time size left right j)) ∧
      (s.allocLargeRegions kForEvac left right size).numNonFreeRegions =
        s.numNonFreeRegions + (if kForEvac then 0 else right - left) ∧
      (s.allocLargeRegions kForEvac left right size).numEvacRegions =
        s.numEvacRegions + (if kForEvac then right - left else 0) ∧
      (s.allocLargeRegions kForEvac left right size).cyclicAllocRegionIndex =
        s.cyclicAllocRegionIndex ∧
      (s.allocLargeRegions kForEvac left right size).time = s.time := by
  rw [allocLargeRegions_eq]
  obtain ⟨hregions, hnonFree, hevac, hcyclic, htime⟩ :=
    foldl_allocLargeTail kForEvac { s with
      regions := s.regions.modify left (Region.largeHead kForEvac s.time size),
      numNonFreeRegions := s.numNonFreeRegions + (if kForEvac then 0 else 1),
      numEvacRegions := s.numEvacRegions + (if kForEvac then 1 else 0),
      nonFreeRegionIndexLimit :=
        max s.nonFreeRegionIndexLimit ((s.regions.getD left default).idx + 1) }
      (left + 1) (right - (left + 1))
  refine ⟨fun j => ?_, ?_, ?_, hcyclic, htime⟩
  · -- the head is written first, then each tail region once
    rw [hregions, getElem?_foldl_modify, List.getElem?_modify]
    unfold Region.allocated
    by_cases hj : j = left
    · subst hj
      rw [if_neg (by omega)]
      cases s.regions[j]? <;> simp
    · by_cases htail : left < j ∧ j < right
      · rw [if_pos ⟨by omega, by omega⟩]
        cases s.regions[j]? <;> simp [hj, htail, Ne.symm hj]
      · rw [if_neg (by omega)]
        cases s.regions[j]? <;> simp [hj, htail, Ne.symm hj]
  · rw [hnonFree]
    dsimp only
    split_ifs <;> omega
  · rw [hevac]
    dsimp only
    split_ifs <;> omega

end Alloc


/-! ### The search -/

theorem isFreeAt_iff (s : RegionSpace) (i : Nat) :
    s.isFreeAt i = true ↔ ∃ r, s.regions[i]? = some r ∧ r.state = .free := by
  unfold isFreeAt
  cases s.regions[i]? with
  | none => simp
  | some r => simp [Region.isFree]

/-- Exactly the regions of a free window change their state when it is allocated. -/
theorem state_allocated_ne_iff (kForEvac : Bool) (s : RegionSpace) {l k : Nat} (allocTime size : Nat)
    (hk : 0 < k) (hrun : WindowSearch.RunAt s.isFreeAt l k) (j : Nat) :
    (s.regions[j]?.map (Region.allocated kForEvac allocTime size l (l + k) j)).map Region.state ≠
        s.regions[j]?.map Region.state ↔ l ≤ j ∧ j < l + k := by
  by_cases hin : l ≤ j ∧ j < l + k
  · -- a region of the window was free, and is now large or a large tail
    obtain ⟨r, hr, hfree⟩ := (isFreeAt_iff s j).1
      (by simpa [Nat.add_sub_cancel' hin.1] using hrun (j - l) (by omega))
    rw [hr]
    by_cases hj : j = l
    · simp [Region.allocated, hj, hfree, hk]
    · simp [Region.allocated, hj, hfree, show l < j by omega, hin.1, hin.2]
  · have hid : Region.allocated kForEvac allocTime size l (l + k) j = id := by
      funext r
      unfold Region.allocated
      rw [if_neg (by omega), if_neg (by omega)]
      rfl
    rw [hid, Option.map_id]
    simp [hin]

variable {kForEvac : Bool} {s : RegionSpace} {k : Nat}

/-- A successful `AllocLargeInRange`: the first free window from `begin` on that ends by
`rangeEnd`, the address of its first region and all its bytes, the index past it, and the regions
allocated. -/
theorem allocLargeInRange_some {begin rangeEnd addr size next : Nat} {s' : RegionSpace}
    (h : s.allocLargeInRange kForEvac begin rangeEnd k = (some (addr, size, next), s')) :
    ∃ l, WindowSearch.IsFirst s.isFreeAt k begin rangeEnd l ∧ next = l + k ∧
      addr = (s.regions.getD l default).begin ∧ size = k * kRegionSize ∧
      s' = s.allocLargeRegions kForEvac l (l + k) (k * kRegionSize) := by
  unfold allocLargeInRange at h
  rcases hs : WindowSearch.search s.isFreeAt k rangeEnd begin with _ | ⟨l, r⟩
  · simp [hs] at h
  · obtain ⟨hfirst, rfl⟩ := WindowSearch.search_eq_some _ hs
    simp only [hs, Prod.mk.injEq, Option.some.injEq] at h
    obtain ⟨⟨rfl, rfl, rfl⟩, rfl⟩ := h
    exact ⟨l, hfirst, rfl, rfl, rfl, rfl⟩

/-- A failed `AllocLargeInRange` leaves the space as it was. -/
theorem allocLargeInRange_of_none {begin rangeEnd : Nat}
    (h : (s.allocLargeInRange kForEvac begin rangeEnd k).1 = none) :
    s.allocLargeInRange kForEvac begin rangeEnd k = (none, s) := by
  unfold allocLargeInRange at h ⊢
  rcases hs : WindowSearch.search s.isFreeAt k rangeEnd begin with _ | ⟨l, r⟩
  · rfl
  · simp [hs] at h

/-- `AllocLargeInRange` fails exactly when no window from `begin` on that ends by `rangeEnd` is
free. -/
theorem allocLargeInRange_none_iff (hk : 0 < k) (begin rangeEnd : Nat) :
    (s.allocLargeInRange kForEvac begin rangeEnd k).1 = none ↔
      ∀ l, begin ≤ l → l + k ≤ rangeEnd → ¬WindowSearch.RunAt s.isFreeAt l k := by
  rw [← WindowSearch.search_eq_none_iff _ hk]
  unfold allocLargeInRange
  rcases hs : WindowSearch.search s.isFreeAt k rangeEnd begin with _ | ⟨l, r⟩ <;> simp

/-! ### `AllocLarge` -/

theorem numRegsInLargeRegion_eq (numBytes : Nat) :
    numRegsInLargeRegion numBytes = (numBytes + kRegionSize - 1) / kRegionSize :=
  Nat.mul_div_cancel _ (by decide)

theorem one_lt_numRegsInLargeRegion {numBytes : Nat} (h : kRegionSize < numBytes) :
    1 < numRegsInLargeRegion numBytes := by
  rw [numRegsInLargeRegion_eq]
  apply (Nat.le_div_iff_mul_le (by decide)).2
  unfold kRegionSize at h ⊢
  omega

/-- The window cyclic allocation takes from `c`: the first free one from `c` on, or where there is
none, the first free one, which starts before `c`. -/
def IsCyclicFirst (s : RegionSpace) (k c l : Nat) : Prop :=
  WindowSearch.IsFirst s.isFreeAt k c s.numRegions l ∨
    ((∀ l', c ≤ l' → l' + k ≤ s.numRegions → ¬WindowSearch.RunAt s.isFreeAt l' k) ∧
      WindowSearch.IsFirst s.isFreeAt k 0 s.numRegions l ∧ l < c)

theorem IsCyclicFirst.isFirst {c l : Nat} (h : s.IsCyclicFirst k c l) :
    l + k ≤ s.numRegions ∧ WindowSearch.RunAt s.isFreeAt l k := by
  rcases h with h | ⟨-, h, -⟩
  · exact ⟨h.add_le, h.run⟩
  · exact ⟨h.add_le, h.run⟩

/-- What cyclic `AllocLarge` can do past its reserve check: allocate the window `IsCyclicFirst`
picks and move the cyclic index past it, or fail, leaving the space as it was, where no window is
free. -/
theorem allocLarge_cyclic_cases {numBytes : Nat} (hk : numRegsInLargeRegion numBytes = k)
    (hpos : 0 < k) (hreserve : ¬(kForEvac = false ∧ s.numRegions < (s.numNonFreeRegions + k) * 2)) :
    (∃ l, s.IsCyclicFirst k s.cyclicAllocRegionIndex l ∧
      s.allocLarge kForEvac true numBytes =
        (some ((s.regions.getD l default).begin, k * kRegionSize),
          { s.allocLargeRegions kForEvac l (l + k) (k * kRegionSize) with
            cyclicAllocRegionIndex := (l + k) % s.numRegions })) ∨
      ((∀ l, l + k ≤ s.numRegions → ¬WindowSearch.RunAt s.isFreeAt l k) ∧
        s.allocLarge kForEvac true numBytes = (none, s)) := by
  have hguard : (!kForEvac && decide (s.numRegions < (s.numNonFreeRegions + k) * 2)) = false := by
    cases kForEvac <;> simp_all
  -- first the windows from the cyclic index on
  rcases h1 : s.allocLargeInRange kForEvac s.cyclicAllocRegionIndex s.numRegions k
    with ⟨_ | ⟨addr, size, next⟩, s1⟩
  · have hs1 := allocLargeInRange_of_none (by rw [h1])
    rw [h1, Prod.mk.injEq] at hs1
    obtain ⟨-, rfl⟩ := hs1
    have hnone1 := (allocLargeInRange_none_iff hpos _ _).1 (by rw [h1])
    -- then those that start before it
    rcases h2 : s1.allocLargeInRange kForEvac 0 (min (s1.cyclicAllocRegionIndex + k - 1) s1.numRegions) k
      with ⟨_ | ⟨addr, size, next⟩, s2⟩
    · have hnone2 := (allocLargeInRange_none_iff hpos _ _).1 (by rw [h2])
      refine .inr ⟨fun l hl hrun => ?_, ?_⟩
      · by_cases hlc : s1.cyclicAllocRegionIndex ≤ l
        · exact hnone1 l hlc hl hrun
        · exact hnone2 l (Nat.zero_le l) (by omega) hrun
      · have hs2 := allocLargeInRange_of_none (by rw [h2])
        rw [h2, Prod.mk.injEq] at hs2
        obtain ⟨-, rfl⟩ := hs2
        simp [allocLarge, hk, hguard, h1, h2]
    · obtain ⟨l, hfirst, rfl, rfl, rfl, rfl⟩ := allocLargeInRange_some h2
      refine .inl ⟨l, .inr ⟨hnone1, ((WindowSearch.isFirst_min_iff _ hpos).1 hfirst)⟩, ?_⟩
      simp [allocLarge, hk, hguard, h1, h2]
  · obtain ⟨l, hfirst, rfl, rfl, rfl, rfl⟩ := allocLargeInRange_some h1
    refine .inl ⟨l, .inl hfirst, ?_⟩
    simp [allocLarge, hk, hguard, h1]

/-- Without cyclic allocation, `AllocLarge` past its reserve check allocates the first free window,
or fails, leaving the space as it was, where no window is free. -/
theorem allocLarge_noncyclic_cases {numBytes : Nat} (hk : numRegsInLargeRegion numBytes = k)
    (hpos : 0 < k) (hreserve : ¬(kForEvac = false ∧ s.numRegions < (s.numNonFreeRegions + k) * 2)) :
    (∃ l, WindowSearch.IsFirst s.isFreeAt k 0 s.numRegions l ∧
      s.allocLarge kForEvac false numBytes =
        (some ((s.regions.getD l default).begin, k * kRegionSize),
          s.allocLargeRegions kForEvac l (l + k) (k * kRegionSize))) ∨
      ((∀ l, l + k ≤ s.numRegions → ¬WindowSearch.RunAt s.isFreeAt l k) ∧
        s.allocLarge kForEvac false numBytes = (none, s)) := by
  have hguard : (!kForEvac && decide (s.numRegions < (s.numNonFreeRegions + k) * 2)) = false := by
    cases kForEvac <;> simp_all
  rcases h1 : s.allocLargeInRange kForEvac 0 s.numRegions k with ⟨_ | ⟨addr, size, next⟩, s1⟩
  · have hs1 := allocLargeInRange_of_none (by rw [h1])
    rw [h1, Prod.mk.injEq] at hs1
    obtain ⟨-, rfl⟩ := hs1
    have hnone := (allocLargeInRange_none_iff hpos _ _).1 (by rw [h1])
    refine .inr ⟨fun l hl => hnone l (Nat.zero_le l) hl, ?_⟩
    simp [allocLarge, hk, hguard, h1]
  · obtain ⟨l, hfirst, rfl, rfl, rfl, rfl⟩ := allocLargeInRange_some h1
    refine .inl ⟨l, hfirst, ?_⟩
    simp [allocLarge, hk, hguard, h1]

/-- Outside evacuation, `AllocLarge` keeps half the regions for a full evacuation. -/
theorem allocLarge_of_reserve (cyclic : Bool) {numBytes : Nat} (hk : numRegsInLargeRegion numBytes = k)
    (h : kForEvac = false ∧ s.numRegions < (s.numNonFreeRegions + k) * 2) :
    s.allocLarge kForEvac cyclic numBytes = (none, s) := by
  obtain ⟨rfl, hlt⟩ := h
  simp [allocLarge, hk, hlt]

/-- Cyclic `AllocLarge<kForEvac>(num_bytes)` of more than one region's bytes, with `k` regions:
it fails exactly when (outside evacuation) the reserve for evacuation would be used or no window
of `k` free regions lies in the space, and then leaves the space as it was. Otherwise it takes the
window `IsCyclicFirst` picks from `cyclic_alloc_region_index_`, returns its first region's
`Begin()` and `k * kRegionSize` bytes, moves the cyclic index to `(l + k) mod num_regions_`, makes
the first region large with its top `k * kRegionSize` past its begin and the others large tails
(exactly the `k` regions of the window change state, the others are unchanged), and counts `k`
regions. -/
theorem allocLarge_cyclic (kForEvac : Bool) (s : RegionSpace) {numBytes : Nat} (k : Nat)
    (hbytes : kRegionSize < numBytes) (hk : numRegsInLargeRegion numBytes = k) :
    ((s.allocLarge kForEvac true numBytes).1 = none ↔
      (kForEvac = false ∧ s.numRegions < (s.numNonFreeRegions + k) * 2) ∨
        ∀ l, l + k ≤ s.numRegions → ¬WindowSearch.RunAt s.isFreeAt l k) ∧
    ((s.allocLarge kForEvac true numBytes).1 = none → (s.allocLarge kForEvac true numBytes).2 = s) ∧
    ∀ addr size s', s.allocLarge kForEvac true numBytes = (some (addr, size), s') →
      ∃ l, s.IsCyclicFirst k s.cyclicAllocRegionIndex l ∧
        addr = (s.regions.getD l default).begin ∧ size = k * kRegionSize ∧
        s'.cyclicAllocRegionIndex = (l + k) % s.numRegions ∧
        (∀ j, s'.regions[j]? =
          s.regions[j]?.map (Region.allocated kForEvac s.time (k * kRegionSize) l (l + k) j)) ∧
        (∀ j r, s'.regions[j]? = some r →
          (j = l → r.state = .large ∧ r.top = r.begin + k * kRegionSize) ∧
            (l < j → j < l + k → r.state = .largeTail)) ∧
        (∀ j, s'.regions[j]?.map Region.state ≠ s.regions[j]?.map Region.state ↔
          l ≤ j ∧ j < l + k) ∧
        s'.numNonFreeRegions = s.numNonFreeRegions + (if kForEvac then 0 else k) ∧
        s'.numEvacRegions = s.numEvacRegions + (if kForEvac then k else 0) := by
  have hpos : 1 < k := hk ▸ one_lt_numRegsInLargeRegion hbytes
  by_cases hreserve : kForEvac = false ∧ s.numRegions < (s.numNonFreeRegions + k) * 2
  · rw [allocLarge_of_reserve true hk hreserve]
    exact ⟨iff_of_true rfl (.inl hreserve), fun _ => rfl, fun _ _ _ h => by cases h⟩
  rcases allocLarge_cyclic_cases hk (by omega) hreserve with ⟨l, hl, hres⟩ | ⟨hno, hres⟩
  · obtain ⟨hle, hrun⟩ := hl.isFirst
    rw [hres]
    refine ⟨iff_of_false (Option.some_ne_none _) ?_, fun h => absurd h (Option.some_ne_none _), ?_⟩
    · rintro (h | h)
      · exact hreserve h
      · exact h l hle hrun
    · rintro addr size s' h
      simp only [Prod.mk.injEq, Option.some.injEq] at h
      obtain ⟨⟨rfl, rfl⟩, rfl⟩ := h
      obtain ⟨hregions, hnonFree, hevac, -, htime⟩ :=
        allocLargeRegions_spec kForEvac s (k * kRegionSize) (show l < l + k by omega)
      refine ⟨l, hl, rfl, rfl, rfl, hregions, fun j r hr => ?_, fun j => ?_, ?_, ?_⟩
      · -- the region now at `j` is the allocation of the one that was there
        rw [hregions] at hr
        obtain ⟨r₀, -, rfl⟩ := Option.map_eq_some_iff.1 hr
        refine ⟨fun hj => ?_, fun hlj hjk => ?_⟩
        · subst hj
          simp [Region.allocated]
        · simp [Region.allocated, Nat.ne_of_gt hlj, hlj, hjk]
      · rw [hregions]
        exact state_allocated_ne_iff kForEvac s _ _ (by omega) hrun j
      · simpa [Nat.add_sub_cancel_left] using hnonFree
      · simpa [Nat.add_sub_cancel_left] using hevac
  · rw [hres]
    exact ⟨iff_of_true rfl (.inr hno), fun _ => rfl, fun _ _ _ h => by cases h⟩

/-- Four free regions: a large object of two regions is allocated. -/
theorem allocLarge_cyclic_fourRegions :
    kRegionSize < 2 * kRegionSize ∧ numRegsInLargeRegion (2 * kRegionSize) = 2 ∧
      (allocLarge false true
        ⟨(List.range 4).map fun i => ⟨i, i * kRegionSize, i * kRegionSize, .free, .none, false, 0⟩,
          0, 0, 0, 0, 0⟩ (2 * kRegionSize)).1 ≠ none := by
  refine ⟨by decide, by decide, fun hnone => ?_⟩
  rcases (allocLarge_cyclic false _ 2 (by decide) (by decide)).1.1 hnone with hreserve | hno
  · exact absurd hreserve.2 (by decide)
  · exact hno 0 (by decide) (by decide)

end RegionSpace

end Art
