import Art.Lib.IntervalList

/-!
# Live ranges of an interval (`compiler/optimizing/ssa_liveness_analysis.h`)

A `LiveInterval` keeps the positions where a value is live as a linked list of `LiveRange`s
`[start, end)`, from `first_range_` to `last_range_`. The liveness analysis builds the list
backwards, from the last block in linear order to the first: `AddRange` for a block the value is
live through, `AddLoopRange` for a loop it is live across, and `SetFrom` at its definition. The
linear-scan register allocator then asks `Covers(position)` at increasing positions, with
`range_search_start_` caching the range the last search stopped at; `CoversSlow` searches from
the first range. `SplitAt(position)` cuts an interval in two, and `FirstIntersectionWith` walks the
ranges of two intervals at once.

The model keeps the ranges as a list and `range_search_start_` as the index of its range in that
list, the length of the list standing for `nullptr`; a range changed in place keeps its index.
The safepoints are the list of their positions. Where the code dereferences a null pointer, the
result is `none`; `kNoLifetime` is `none` too.
-/

namespace Art

/-- `LiveRange`: the positions `[start_, end_)`; `next_` is the next element of the interval's
list. -/
structure LiveRange where
  start : Nat
  endPos : Nat
deriving DecidableEq, Repr

namespace LiveRange

/-- `IntersectsWith(other)`. -/
def intersectsWith (range other : LiveRange) : Bool :=
  (range.start ≥ other.start && range.start < other.endPos) ||
    (other.start ≥ range.start && other.start < range.endPos)

/-- `IsBefore(other)`. -/
def isBefore (range other : LiveRange) : Bool := range.endPos ≤ other.start

end LiveRange

/-- The ranges of a `LiveInterval` from `first_range_` to `last_range_`, the index of
`range_search_start_` among them, and the positions of its safepoints from `first_safepoint_` to
`last_safepoint_`. -/
structure LiveInterval where
  ranges : List LiveRange
  rangeSearchStart : Nat
  safepoints : List Nat
deriving Repr

namespace LiveInterval

/-- `GetStart()`: the start of `first_range_`. -/
def getStart (i : LiveInterval) : Option Nat := i.ranges.head?.map LiveRange.start

/-- `GetEnd()`: the end of `last_range_`. -/
def getEnd (i : LiveInterval) : Option Nat := i.ranges.getLast?.map LiveRange.endPos

/-! ### Building the ranges -/

/-- `AddRange(start, end)`: a block the value is live in, added before the ranges so far. -/
def addRange (i : LiveInterval) (start endPos : Nat) : LiveInterval :=
  match i.ranges with
  | [] => { i with ranges := [⟨start, endPos⟩], rangeSearchStart := 0 }
  | first :: rest =>
    if first.start = endPos then
      -- there is a use in the following block: `first_range_` is extended in place
      { i with ranges := ⟨start, first.endPos⟩ :: rest }
    else if first.start = start ∧ first.endPos = endPos then i
    else
      -- a lifetime hole: a new first range
      { i with ranges := ⟨start, endPos⟩ :: first :: rest, rangeSearchStart := 0 }

/-- The loop of `AddLoopRange`: `after_loop` walks the ranges from `first_range_` while they end
before `end`, `last_in_loop` being the last one passed. -/
def addLoopRangeLoop (endPos : Nat) (lastInLoop : Option LiveRange) :
    List LiveRange → Option LiveRange × List LiveRange
  | [] => (lastInLoop, [])
  | afterLoop :: rest =>
    if afterLoop.endPos < endPos then addLoopRangeLoop endPos (some afterLoop) rest
    else (lastInLoop, afterLoop :: rest)

/-- `AddLoopRange(start, end)`: the value is live across a loop; `none` where `last_in_loop` is
dereferenced as nullptr. -/
def addLoopRange (i : LiveInterval) (start endPos : Nat) : Option LiveInterval :=
  match addLoopRangeLoop endPos none i.ranges with
  | (_, []) =>
    -- uses are only in the loop
    some { i with ranges := [⟨start, endPos⟩], rangeSearchStart := 0 }
  | (lastInLoop, afterLoop :: rest) =>
    if afterLoop.start ≤ endPos then
      -- there are uses after the loop: `after_loop` becomes the first range
      some { i with ranges := ⟨start, afterLoop.endPos⟩ :: rest, rangeSearchStart := 0 }
    else
      -- the use after the loop is after a lifetime hole: `last_in_loop` becomes the first range
      lastInLoop.map fun _ =>
        { i with ranges := ⟨start, endPos⟩ :: afterLoop :: rest, rangeSearchStart := 0 }

/-- `SetFrom(from)`: the first range starts at the definition; an instruction without uses is live
on `[from, from + 2)`. -/
def setFrom (i : LiveInterval) (fromPos : Nat) : LiveInterval :=
  match i.ranges with
  | first :: rest => { i with ranges := ⟨fromPos, first.endPos⟩ :: rest }
  | [] => { i with ranges := [⟨fromPos, fromPos + 2⟩], rangeSearchStart := 0 }

/-! ### Searching the ranges -/

/-- The loop of `FindRangeAtOrAfter` over the ranges from the one at `index`. -/
def findRangeAtOrAfterLoop (position : Nat) (index : Nat) : List LiveRange → Nat
  | [] => index
  | range :: rest =>
    if range.endPos ≤ position then findRangeAtOrAfterLoop position (index + 1) rest else index

/-- `FindRangeAtOrAfter(position, search_start)`: the index of the first range from `searchStart`
on that ends after `position`. -/
def findRangeAtOrAfter (i : LiveInterval) (position searchStart : Nat) : Nat :=
  findRangeAtOrAfterLoop position searchStart (i.ranges.drop searchStart)

/-- `candidate != nullptr && candidate->GetStart() <= position`. -/
def startsAtOrBefore (i : LiveInterval) (candidate position : Nat) : Bool :=
  match i.ranges[candidate]? with
  | some range => decide (range.start ≤ position)
  | none => false

/-- `Covers(position)`: the answer, and the interval with `range_search_start_` moved to the
range found. -/
def covers (i : LiveInterval) (position : Nat) : Bool × LiveInterval :=
  let candidate := i.findRangeAtOrAfter position i.rangeSearchStart
  (i.startsAtOrBefore candidate position, { i with rangeSearchStart := candidate })

/-- `CoversSlow(position)`: the search from `first_range_`. -/
def coversSlow (i : LiveInterval) (position : Nat) : Bool :=
  i.startsAtOrBefore (i.findRangeAtOrAfter position 0) position

/-- `ResetSearchCache()`. -/
def resetSearchCache (i : LiveInterval) : LiveInterval := { i with rangeSearchStart := 0 }

/-- The loop of `FirstIntersectionWith`, from `my_range` and `other_range`: `none` for
`kNoLifetime`. -/
def firstIntersectionLoop (myRange : LiveRange) (myRest : List LiveRange) (otherRange : LiveRange)
    (otherRest : List LiveRange) : Option Nat :=
  if myRange.isBefore otherRange then
    match myRest with
    | [] => none
    | next :: rest => firstIntersectionLoop next rest otherRange otherRest
  else if otherRange.isBefore myRange then
    match otherRest with
    | [] => none
    | next :: rest => firstIntersectionLoop myRange myRest next rest
  else some (max myRange.start otherRange.start)
termination_by myRest.length + otherRest.length

/-- `FirstIntersectionWith(current)`: the first position both intervals cover, `none` for
`kNoLifetime`; the outer `none` where `current` has no range. The search for this interval's
first range starts at `range_search_start_`. -/
def firstIntersectionWith (i current : LiveInterval) : Option (Option Nat) :=
  match current.ranges with
  | [] => none
  | otherRange :: otherRest =>
    some <| match i.ranges.drop (i.findRangeAtOrAfter otherRange.start i.rangeSearchStart) with
      | [] => none
      | myRange :: myRest => firstIntersectionLoop myRange myRest otherRange otherRest

/-! ### Splitting -/

/-- The index of `last_safepoint_`. -/
def lastSafepoint (i : LiveInterval) : Option Nat :=
  match i.safepoints with
  | [] => none
  | _ :: _ => some (i.safepoints.length - 1)

/-- The loop of `FindSafepointJustBefore(position)` over the safepoints from the one at `index`,
`previous` being the index of the one before it. -/
def findSafepointJustBeforeLoop (position : Nat) (last previous : Option Nat) (index : Nat) :
    List Nat → Option Nat
  | [] => last
  | safepoint :: rest =>
    if safepoint ≥ position then previous
    else findSafepointJustBeforeLoop position last (some index) (index + 1) rest

/-- `FindSafepointJustBefore(position)`: the index of the safepoint before the first one at or
after `position`, or of `last_safepoint_` where there is none such. -/
def findSafepointJustBefore (i : LiveInterval) (position : Nat) : Option Nat :=
  findSafepointJustBeforeLoop position i.lastSafepoint none 0 i.safepoints

/-- The safepoints `SplitAt(position)` leaves to this interval and gives to the new one. -/
def splitSafepoints (i : LiveInterval) (position : Nat) : List Nat × List Nat :=
  match i.findSafepointJustBefore position with
  | none => ([], i.safepoints)
  | some newLast =>
    if some newLast ≠ i.lastSafepoint then
      (i.safepoints.take (newLast + 1), i.safepoints.drop (newLast + 1))
    else (i.safepoints, [])

/-- The loop of `SplitAt(position)` over the ranges from `current`, `before` being those passed:
the ranges of the two intervals, and whether `position` lies inside a range rather than in a
lifetime hole. `none` where `previous` is dereferenced as nullptr, or the loop runs off the end
(`LOG(FATAL)`). -/
def splitAtLoop (position : Nat) (before : List LiveRange) :
    List LiveRange → Option (List LiveRange × List LiveRange × Bool)
  | [] => none
  | current :: rest =>
    if position ≥ current.endPos then splitAtLoop position (before ++ [current]) rest
    else if position ≤ current.start then
      match before with
      | [] => none
      | _ :: _ => some (before, current :: rest, false)
    else
      -- `current` covers `position`: it is cut in two
      some (before ++ [⟨current.start, position⟩], ⟨position, current.endPos⟩ :: rest, true)

/-- Whether `range_search_start_` lies among the ranges given to the new interval: its range ends
no earlier than the new interval's first range. -/
def searchStartMoves (i : LiveInterval) (newRanges : List LiveRange) : Bool :=
  match i.ranges[i.rangeSearchStart]?, newRanges.head? with
  | some cached, some current => decide (cached.endPos ≥ current.endPos)
  | _, _ => false

/-- `SplitAt(position)`: this interval cut to the positions before `position`, and the new interval
with those from `position` on; no new interval where this one dies before `position`. A search
cache among the ranges given away moves to nullptr after a lifetime hole, and to the new
`last_range_` where a range was cut. -/
def splitAt (i : LiveInterval) (position : Nat) : Option (LiveInterval × Option LiveInterval) :=
  match i.getEnd with
  | none => none
  | some e =>
    if e ≤ position then some (i, none)
    else
      (splitAtLoop position [] i.ranges).map fun r =>
        let rangeSearchStart :=
          if i.searchStartMoves r.2.1 then (if r.2.2 then r.1.length - 1 else r.1.length)
          else i.rangeSearchStart
        (⟨r.1, rangeSearchStart, (i.splitSafepoints position).1⟩,
          some ⟨r.2.1, 0, (i.splitSafepoints position).2⟩)

end LiveInterval

/-! ### The ranges as positions -/

namespace LiveRange

/-- Ranges in increasing order, each non-empty, with a gap between consecutive ones: what the
`LiveRange` constructor checks of its successor. -/
abbrev Gapped (ranges : List LiveRange) : Prop :=
  IntervalList.Gapped LiveRange.start LiveRange.endPos ranges

/-- A position some range of the list holds. -/
abbrev Covered (ranges : List LiveRange) (p : Nat) : Prop :=
  IntervalList.Covered LiveRange.start LiveRange.endPos ranges p

end LiveRange

namespace LiveInterval

open LiveRange

variable {i : LiveInterval}

/-! ### Building the ranges -/

theorem addRange_spec {start endPos : Nat} (hlt : start < endPos) (hg : Gapped i.ranges)
    (hfirst : ∀ f ∈ i.ranges.head?, endPos ≤ f.start ∨ (f.start = start ∧ f.endPos = endPos)) :
    Gapped (i.addRange start endPos).ranges ∧
      ∀ p, Covered (i.addRange start endPos).ranges p ↔
        (start ≤ p ∧ p < endPos) ∨ Covered i.ranges p := by
  unfold addRange
  cases hr : i.ranges with
  | nil => exact ⟨IntervalList.gapped_singleton hlt, fun p => by simp⟩
  | cons first rest =>
    rw [hr] at hg hfirst
    have hf := hfirst first rfl
    have hfirst_lt := hg.head
    dsimp only
    split_ifs with hext hsame
    · -- `first_range_` starts where the new range ends: it is extended down to `start`
      refine ⟨hg.tail.cons (show start < first.endPos by omega) fun s hs =>
        hg.hi_lt_of_mem (List.mem_of_mem_head? hs), fun p => ?_⟩
      simp only [IntervalList.covered_cons]
      rw [← or_assoc]
      exact or_congr_left (by omega)
    · -- the range is already there
      obtain ⟨h₁, h₂⟩ := hsame
      refine ⟨hr ▸ hg, fun p => ?_⟩
      rw [hr]
      simp only [IntervalList.covered_cons]
      rw [h₁, h₂, ← or_assoc, or_self]
    · -- a lifetime hole before `first_range_`
      have hlt' : endPos < first.start := by omega
      refine ⟨hg.cons hlt fun s hs => ?_, fun p => IntervalList.covered_cons⟩
      rw [List.head?_cons, Option.mem_some_iff] at hs
      rw [← hs]
      exact hlt'

/-- The walk of `AddLoopRange` splits the ranges into those that end inside the loop and the rest,
whose first range ends at `end` or later; `last_in_loop` is nullptr only where it passed none. -/
theorem addLoopRangeLoop_spec (endPos : Nat) : ∀ (last : Option LiveRange) (l : List LiveRange),
    ∃ inLoop, l = inLoop ++ (addLoopRangeLoop endPos last l).2 ∧
      (∀ r ∈ inLoop, r.endPos < endPos) ∧
      (∀ r ∈ (addLoopRangeLoop endPos last l).2.head?, endPos ≤ r.endPos) ∧
      ((addLoopRangeLoop endPos last l).1 = none → inLoop = [] ∧ last = none)
  | last, [] => ⟨[], rfl, fun _ h => (by cases h), fun _ h => (by cases h), fun h => ⟨rfl, h⟩⟩
  | last, afterLoop :: rest => by
    rw [addLoopRangeLoop]
    split_ifs with hlt
    · obtain ⟨inLoop, heq, hin, hafter, hnone⟩ := addLoopRangeLoop_spec endPos (some afterLoop) rest
      refine ⟨afterLoop :: inLoop, by rw [List.cons_append, ← heq], fun r hr => ?_, hafter,
        fun h => absurd (hnone h).2 (Option.some_ne_none _)⟩
      rcases List.mem_cons.1 hr with rfl | hr
      exacts [hlt, hin r hr]
    · refine ⟨[], rfl, fun _ h => (by cases h), fun r hr => ?_, fun h => ⟨rfl, h⟩⟩
      rw [List.head?_cons, Option.mem_some_iff] at hr
      rw [← hr]
      omega

theorem addLoopRange_spec {start endPos : Nat} (hlt : start < endPos) (hg : Gapped i.ranges)
    (hfirst : ∀ f ∈ i.ranges.head?, start ≤ f.start ∧ f.start ≤ endPos) :
    ∃ i', i.addLoopRange start endPos = some i' ∧ Gapped i'.ranges ∧
      ∀ p, Covered i'.ranges p ↔ (start ≤ p ∧ p < endPos) ∨ Covered i.ranges p := by
  obtain ⟨inLoop, heq, hin, hafter, hnone⟩ := addLoopRangeLoop_spec endPos none i.ranges
  -- every range starts at `start` or later, so the ranges that end inside the loop lie in it
  have hge : ∀ r ∈ i.ranges, start ≤ r.start := by
    intro r hr
    cases hfs : i.ranges with
    | nil => rw [hfs] at hr; cases hr
    | cons f rest =>
      rw [hfs] at hr hg hfirst
      exact Nat.le_trans (hfirst f rfl).1 (hg.le_of_mem hr).1
  have hinLoop : ∀ p, Covered inLoop p → start ≤ p ∧ p < endPos := by
    rintro p ⟨r, hr, h₁, h₂⟩
    have := hge r (heq ▸ List.mem_append_left _ hr)
    have := hin r hr
    omega
  have hgAfter := (IntervalList.gapped_append.1 (heq ▸ hg)).2.1
  have hcov : ∀ p, Covered i.ranges p ↔
      Covered inLoop p ∨ Covered (addLoopRangeLoop endPos none i.ranges).2 p := fun p => by
    conv_lhs => rw [heq]
    exact IntervalList.covered_append
  unfold addLoopRange
  generalize addLoopRangeLoop endPos none i.ranges = res at heq hafter hnone hcov hgAfter
  obtain ⟨lastInLoop, after⟩ := res
  cases after with
  | nil =>
    refine ⟨_, rfl, IntervalList.gapped_singleton hlt, fun p => ?_⟩
    rw [hcov p]
    simp only [IntervalList.covered_cons, IntervalList.covered_nil, or_false]
    exact ⟨Or.inl, fun h => h.elim id (hinLoop p)⟩
  | cons afterLoop rest =>
    have hstart := hge afterLoop (heq ▸ List.mem_append_right _ List.mem_cons_self)
    have hend := hafter afterLoop rfl
    have hafterLt := hgAfter.head
    dsimp only
    split_ifs with hle
    · -- the loop range and `after_loop` overlap: one range from `start` to `after_loop`'s end
      refine ⟨_, rfl, hgAfter.tail.cons (show start < afterLoop.endPos by omega) fun s hs =>
        hgAfter.hi_lt_of_mem (List.mem_of_mem_head? hs), fun p => ?_⟩
      rw [hcov p]
      simp only [IntervalList.covered_cons]
      constructor
      · rintro (⟨h₁, h₂⟩ | hc)
        · by_cases hp : p < endPos
          · exact Or.inl ⟨h₁, hp⟩
          · exact Or.inr (Or.inr (Or.inl ⟨by omega, h₂⟩))
        · exact Or.inr (Or.inr (Or.inr hc))
      · rintro (⟨h₁, h₂⟩ | hc | ⟨h₁, h₂⟩ | hc)
        · exact Or.inl ⟨h₁, by omega⟩
        · have := hinLoop p hc
          exact Or.inl ⟨this.1, by omega⟩
        · exact Or.inl ⟨by omega, h₂⟩
        · exact Or.inr hc
    · cases lastInLoop with
      | none =>
        -- no range ends inside the loop, so `after_loop` is the first range
        obtain ⟨rfl, -⟩ := hnone rfl
        exact absurd (hfirst afterLoop (by rw [heq]; rfl)).2 hle
      | some lastInLoop =>
        refine ⟨_, rfl, hgAfter.cons hlt fun s hs => ?_, fun p => ?_⟩
        · rw [List.head?_cons, Option.mem_some_iff] at hs
          rw [← hs]
          exact Nat.lt_of_not_le hle
        · rw [hcov p]
          simp only [IntervalList.covered_cons]
          constructor
          · rintro (h | h)
            exacts [Or.inl h, Or.inr (Or.inr h)]
          · rintro (h | hc | h)
            exacts [Or.inl h, Or.inl (hinLoop p hc), Or.inr h]

theorem setFrom_spec {fromPos : Nat} (hg : Gapped i.ranges)
    (hfrom : ∃ f ∈ i.ranges.head?, f.start ≤ fromPos ∧ fromPos < f.endPos) :
    Gapped (i.setFrom fromPos).ranges ∧
      ∀ p, Covered (i.setFrom fromPos).ranges p ↔ Covered i.ranges p ∧ fromPos ≤ p := by
  obtain ⟨f, hf, h₁, h₂⟩ := hfrom
  unfold setFrom
  cases hr : i.ranges with
  | nil => rw [hr] at hf; cases hf
  | cons first rest =>
    rw [hr] at hg hf
    rw [List.head?_cons, Option.mem_some_iff] at hf
    subst hf
    refine ⟨hg.tail.cons h₂ fun s hs => hg.hi_lt_of_mem (List.mem_of_mem_head? hs), fun p => ?_⟩
    simp only [IntervalList.covered_cons]
    constructor
    · rintro (⟨h₃, h₄⟩ | hc)
      · exact ⟨Or.inl ⟨by omega, h₄⟩, h₃⟩
      · -- the later ranges lie after the first one, which ends after `from`
        have := hg.hi_lt_of_covered hc
        exact ⟨Or.inr hc, by omega⟩
    · rintro ⟨⟨-, h₄⟩ | hc, h₃⟩
      exacts [Or.inl ⟨h₃, h₄⟩, Or.inr hc]

end LiveInterval

/-! ### Runs of the liveness analysis -/

/-- A call `SsaLivenessAnalysis::ComputeLiveRanges` makes on an interval. -/
inductive BuildStep
  | addRange (start endPos : Nat)
  | addLoopRange (start endPos : Nat)
  | setFrom (fromPos : Nat)

namespace BuildStep

open LiveRange

/-- The call on the interval `i`. -/
def apply (i : LiveInterval) : BuildStep → Option LiveInterval
  | addRange start endPos => some (i.addRange start endPos)
  | addLoopRange start endPos => i.addLoopRange start endPos
  | setFrom fromPos => some (i.setFrom fromPos)

/-- What `ComputeLiveRanges`, visiting the blocks in decreasing linear order, ensures of a call: a
block's range ends where the ranges so far start or before, or is the first range again; a loop's
range starts at or before the first range and reaches it; the definition lies in the first
range. -/
def Allowed (i : LiveInterval) : BuildStep → Prop
  | addRange start endPos => start < endPos ∧
      ∀ f ∈ i.ranges.head?, endPos ≤ f.start ∨ (f.start = start ∧ f.endPos = endPos)
  | addLoopRange start endPos => start < endPos ∧
      ∀ f ∈ i.ranges.head?, start ≤ f.start ∧ f.start ≤ endPos
  | setFrom fromPos => ∃ f ∈ i.ranges.head?, f.start ≤ fromPos ∧ fromPos < f.endPos

/-- The positions where the value is live after the call, from those before it. -/
def positions : BuildStep → (Nat → Prop) → Nat → Prop
  | addRange start endPos, live, p => (start ≤ p ∧ p < endPos) ∨ live p
  | addLoopRange start endPos, live, p => (start ≤ p ∧ p < endPos) ∨ live p
  | setFrom fromPos, live, p => live p ∧ fromPos ≤ p

/-- An allowed call keeps the ranges gapped and adds or cuts the positions it names. -/
theorem apply_spec {i : LiveInterval} (hg : Gapped i.ranges) {step : BuildStep}
    (h : step.Allowed i) :
    ∃ i', step.apply i = some i' ∧ Gapped i'.ranges ∧
      ∀ p, Covered i'.ranges p ↔ step.positions (Covered i.ranges) p := by
  cases step with
  | addRange start endPos =>
    obtain ⟨hg', hcov⟩ := LiveInterval.addRange_spec h.1 hg h.2
    exact ⟨_, rfl, hg', hcov⟩
  | addLoopRange start endPos => exact LiveInterval.addLoopRange_spec h.1 hg h.2
  | setFrom fromPos =>
    obtain ⟨hg', hcov⟩ := LiveInterval.setFrom_spec hg h
    exact ⟨_, rfl, hg', hcov⟩

end BuildStep

namespace LiveInterval

open LiveRange

/-- The interval after a run of calls; `none` where one of them dereferences nullptr. -/
def build (i : LiveInterval) : List BuildStep → Option LiveInterval
  | [] => some i
  | step :: steps => (step.apply i).bind fun i' => i'.build steps

/-- Every call of the run is allowed on the interval it is made on. -/
def AllowedRun : LiveInterval → List BuildStep → Prop
  | _, [] => True
  | i, step :: steps => step.Allowed i ∧ ∀ i', step.apply i = some i' → AllowedRun i' steps

/-- A run of calls in the order of the liveness analysis returns, keeps the ranges in increasing
order with gaps between them, and leaves the value live exactly where the calls make it live:
the union of the ranges added, cut by `SetFrom` at the definition. -/
theorem build_spec : ∀ (steps : List BuildStep) {i : LiveInterval}, Gapped i.ranges →
    AllowedRun i steps →
    ∃ i', i.build steps = some i' ∧ Gapped i'.ranges ∧
      ∀ p, Covered i'.ranges p ↔ steps.foldl (fun live step => step.positions live) (Covered i.ranges) p
  | [], i, hg, _ => ⟨i, rfl, hg, fun _ => Iff.rfl⟩
  | step :: steps, i, hg, ⟨hstep, hrest⟩ => by
    obtain ⟨i₁, h₁, hg₁, hcov₁⟩ := BuildStep.apply_spec hg hstep
    obtain ⟨i', h', hg', hcov'⟩ := build_spec steps hg₁ (hrest i₁ h₁)
    refine ⟨i', by rw [build, h₁, Option.bind_some]; exact h', hg', fun p => ?_⟩
    -- the rest of the run starts from the positions after the first call
    have hlive : Covered i₁.ranges = step.positions (Covered i.ranges) :=
      funext fun p => propext (hcov₁ p)
    rw [hcov' p, hlive, List.foldl_cons]

theorem build_spec_loop :
    ∃ i', (⟨[], 0, []⟩ : LiveInterval).build
        [.addRange 10 20, .addRange 4 8, .addLoopRange 2 12, .setFrom 5] = some i' ∧
      Gapped i'.ranges ∧
      ∀ p, Covered i'.ranges p ↔
        [BuildStep.addRange 10 20, .addRange 4 8, .addLoopRange 2 12, .setFrom 5].foldl
          (fun live step => step.positions live) (Covered ([] : List LiveRange)) p :=
  build_spec _ IntervalList.gapped_nil (by
    simp [AllowedRun, BuildStep.Allowed, BuildStep.apply, addRange, addLoopRange, addLoopRangeLoop,
      setFrom])

end LiveInterval

end Art
