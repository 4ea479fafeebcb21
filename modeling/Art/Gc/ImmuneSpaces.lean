import Mathlib.Data.List.Sort
import Mathlib.Data.List.Chain
import Art.Gc.SpaceBitmap

/-!
# The largest immune region (`runtime/gc/collector/immune_spaces.cc`)

The collectors do not mark the objects of immune spaces, and skip the region that
`CreateLargestImmuneRegion` chooses. Each space gives an interval `(start, end, is_heap)`: its
`[Begin(), Limit())`, the end moved for an image space to the rounded-up end of its image, and
for an image space with an oat file, that file's `[Begin(), End())` as an interval with no heap.
The intervals are sorted and scanned once, keeping the current run of adjacent intervals and the
best run so far, counted in heap bytes only.

* A chain is a run of the sorted intervals, each beginning where the one before ends, that starts
  with a heap interval (`ChainOf`). Over the intervals it has read, the scan keeps an invariant
  (`Inv`): the current and the best region are chains, no chain ends past the current region,
  and none has more heap bytes than the best (`inv_scan`).
* When the intervals do not overlap and no oat file begins at address `0`, where `cur_end`
  starts, the region is covered by intervals without a gap, is empty exactly when every heap
  interval is, and otherwise is a chain with the most heap bytes, the first one winning ties
  (`createLargestImmuneRegion_largest`). An oat file at `0` extends the empty region the scan
  starts with, so the region then begins with the oat file
  (`createLargestImmuneRegion_oatFileAtNull`).
-/

namespace Art

namespace ImmuneSpaces

/-- `kElfSegmentAlignment`, which is `kMinPageSize`. -/
def kElfSegmentAlignment : Nat := 4096

/-- The oat file of an image space: `Begin()` and `End()`. -/
structure OatFile where
  begin : Nat
  stop : Nat
  begin_le : begin ≤ stop

/-- What the region reads of an image space: `GetImageEnd()` and `GetOatFile()`. -/
structure ImageSpace where
  imageEnd : Nat
  oatFile : Option OatFile

/-- An immune continuous space: `Begin()`, `Limit()`, and the image space it is, if it is one. -/
structure ContinuousSpace where
  begin : Nat
  limit : Nat
  image : Option ImageSpace
  begin_le_limit : begin ≤ limit
  begin_le_imageEnd : ∀ im ∈ image, begin ≤ im.imageEnd

/-- An `Interval`, the tuple `(start, end, is_heap)`; `stop` is its end. -/
structure Interval where
  start : Nat
  stop : Nat
  isHeap : Bool
deriving DecidableEq, Repr

namespace Interval

/-- The order of `std::tuple` that `std::sort` puts the intervals in: by start, then by end, then
`false` before `true`. -/
def Le (a b : Interval) : Prop :=
  a.start < b.start ∨ a.start = b.start ∧ (a.stop < b.stop ∨ a.stop = b.stop ∧ (a.isHeap → b.isHeap))

instance : DecidableRel Le := fun a b =>
  inferInstanceAs (Decidable (a.start < b.start ∨
    a.start = b.start ∧ (a.stop < b.stop ∨ a.stop = b.stop ∧ (a.isHeap = true → b.isHeap = true))))

instance : Std.Total Le where
  total a b := by
    obtain ⟨a1, a2, a3⟩ := a
    obtain ⟨b1, b2, b3⟩ := b
    unfold Le
    cases a3 <;> cases b3 <;> simp <;> omega

instance : IsTrans Interval Le where
  trans a b c := by
    obtain ⟨a1, a2, a3⟩ := a
    obtain ⟨b1, b2, b3⟩ := b
    obtain ⟨c1, c2, c3⟩ := c
    unfold Le
    cases a3 <;> cases b3 <;> cases c3 <;> simp <;> omega

/-- Two intervals do not overlap: one ends before the other begins. -/
def Apart (a b : Interval) : Prop := a.stop ≤ b.start ∨ b.stop ≤ a.start

instance : DecidableRel Apart := fun a b =>
  inferInstanceAs (Decidable (a.stop ≤ b.start ∨ b.stop ≤ a.start))

/-- The heap bytes of an interval: none for an oat file. -/
def heapBytes (i : Interval) : Nat := if i.isHeap then i.stop - i.start else 0

end Interval

/-- The intervals of one space, in the order `CreateLargestImmuneRegion` pushes them. -/
def spaceIntervals (space : ContinuousSpace) : List Interval :=
  match space.image with
  | none => [⟨space.begin, space.limit, true⟩]
  | some imageSpace =>
    -- the end includes the other non-heap sections of the image
    let spaceEnd := SpaceBitmap.roundUp imageSpace.imageEnd kElfSegmentAlignment
    (match imageSpace.oatFile with
      | none => []
      | some oatFile => [⟨oatFile.begin, oatFile.stop, false⟩]) ++
      [⟨space.begin, spaceEnd, true⟩]

/-- The intervals of all the spaces, before the sort. -/
def intervals (spaces : List ContinuousSpace) : List Interval := spaces.flatMap spaceIntervals

/-- The variables of the scan: `best_begin`, `best_end`, `best_heap_size`, `cur_begin`,
`cur_end`, `cur_heap_size`. -/
structure Scan where
  bestBegin : Nat
  bestEnd : Nat
  bestHeapSize : Nat
  curBegin : Nat
  curEnd : Nat
  curHeapSize : Nat

namespace Scan

/-- All six start at `0u`. -/
def init : Scan := ⟨0, 0, 0, 0, 0, 0⟩

/-- One turn of the loop over the sorted intervals. -/
def step (s : Scan) (interval : Interval) : Scan :=
  -- a new region never starts with an oat file
  if interval.start ≠ s.curEnd ∧ interval.isHeap = false then s
  else
    let s := if interval.start ≠ s.curEnd then
      { s with curBegin := interval.start, curHeapSize := 0 } else s
    let s := { s with curEnd := interval.stop }
    if interval.isHeap then
      let s := { s with curHeapSize := s.curHeapSize + (interval.stop - interval.start) }
      if s.curHeapSize > s.bestHeapSize then
        { s with bestBegin := s.curBegin, bestEnd := s.curEnd, bestHeapSize := s.curHeapSize }
      else s
    else s

end Scan

/-- `CreateLargestImmuneRegion`: the region `[best_begin, best_end)`. -/
def createLargestImmuneRegion (spaces : List ContinuousSpace) : Nat × Nat :=
  let s := ((intervals spaces).insertionSort Interval.Le).foldl Scan.step Scan.init
  (s.bestBegin, s.bestEnd)

/-! ### One turn of the loop -/

namespace Scan

variable {s : Scan} {i : Interval}

theorem step_of_skip (h : i.start ≠ s.curEnd) (hh : i.isHeap = false) : s.step i = s := by
  rw [step, if_pos ⟨h, hh⟩]

/-- The current region after an interval that is not skipped: extended, or started afresh by a
heap interval. -/
theorem step_cur (h : i.start = s.curEnd ∨ i.isHeap = true) :
    (s.step i).curBegin = (if i.start = s.curEnd then s.curBegin else i.start) ∧
    (s.step i).curEnd = i.stop ∧
    (s.step i).curHeapSize = (if i.start = s.curEnd then s.curHeapSize else 0) + i.heapBytes := by
  have hskip : ¬ (i.start ≠ s.curEnd ∧ i.isHeap = false) := by
    rintro ⟨h1, h2⟩; rcases h with h | h <;> simp_all
  unfold step Interval.heapBytes
  rw [if_neg hskip]
  by_cases hs : i.start = s.curEnd <;> cases hh : i.isHeap <;> simp [hs] <;> split_ifs <;> simp

/-- The best region after an interval that is not skipped: the current one when it is a heap
interval that brings the current region past the best. -/
theorem step_best (h : i.start = s.curEnd ∨ i.isHeap = true) :
    ((s.step i).bestBegin, (s.step i).bestEnd, (s.step i).bestHeapSize) =
      if i.isHeap = true ∧ s.bestHeapSize < (s.step i).curHeapSize then
        ((s.step i).curBegin, (s.step i).curEnd, (s.step i).curHeapSize)
      else (s.bestBegin, s.bestEnd, s.bestHeapSize) := by
  have hskip : ¬ (i.start ≠ s.curEnd ∧ i.isHeap = false) := by
    rintro ⟨h1, h2⟩; rcases h with h | h <;> simp_all
  unfold step
  rw [if_neg hskip]
  by_cases hs : i.start = s.curEnd <;> cases hh : i.isHeap <;> simp [hs] <;> split_ifs <;>
    simp_all

end Scan

/-! ### Chains -/

/-- The heap bytes of a list of intervals. -/
def heapSize (c : List Interval) : Nat := (c.map Interval.heapBytes).sum

/-- Where a list of intervals begins, and `0` for none. -/
def chainBegin (c : List Interval) : Nat := (c.head?.map Interval.start).getD 0

/-- Where a list of intervals ends, and `0` for none. -/
def chainEnd (c : List Interval) : Nat := (c.getLast?.map Interval.stop).getD 0

/-- A chain of `L`: intervals of `L` in its order, each beginning where the one before ends, the
first a heap interval. -/
structure ChainOf (L c : List Interval) : Prop where
  sublist : c.Sublist L
  adjacent : c.IsChain (fun a b => a.stop = b.start)
  head_isHeap : ∃ j ∈ c.head?, j.isHeap = true

section Chains

variable {L c d : List Interval} {i : Interval}

@[simp] theorem heapSize_nil : heapSize [] = 0 := rfl

@[simp] theorem heapSize_append_singleton : heapSize (c ++ [i]) = heapSize c + i.heapBytes := by
  simp [heapSize]

@[simp] theorem chainEnd_append_singleton : chainEnd (c ++ [i]) = i.stop := by
  simp [chainEnd]

theorem chainBegin_append_singleton :
    chainBegin (c ++ [i]) = if c = [] then i.start else chainBegin c := by
  cases c <;> simp [chainBegin]

theorem ChainOf.ne_nil (h : ChainOf L c) : c ≠ [] := by
  rintro rfl; obtain ⟨j, hj, -⟩ := h.head_isHeap; simp at hj

theorem ChainOf.mono (h : ChainOf L c) : ChainOf (L ++ [i]) c :=
  ⟨h.sublist.trans (List.sublist_append_left L [i]), h.adjacent, h.head_isHeap⟩

/-- The last interval of a chain of `L` is one of `L`. -/
theorem ChainOf.exists_last (h : ChainOf L c) : ∃ j ∈ L, chainEnd c = j.stop := by
  obtain ⟨j, hj⟩ := List.getLast?_isSome.2 h.ne_nil |> Option.isSome_iff_exists.1
  refine ⟨j, h.sublist.subset (List.mem_of_getLast? hj), ?_⟩
  simp [chainEnd, hj]

theorem ChainOf.chainEnd_le {t : Nat} (h : ChainOf L c) (hL : ∀ j ∈ L, j.stop ≤ t) :
    chainEnd c ≤ t := by
  obtain ⟨j, hj, he⟩ := h.exists_last
  exact he ▸ hL j hj

/-- The chains that end with a new interval: the interval alone when it is a heap interval, or
a chain ending where it begins, followed by it. -/
theorem chainOf_append_singleton :
    ChainOf (L ++ [i]) c ↔
      ChainOf L c ∨ ∃ d, c = d ++ [i] ∧ (d = [] ∧ i.isHeap = true ∨ ChainOf L d ∧ chainEnd d = i.start) := by
  constructor
  · rintro ⟨hsub, hadj, hhead⟩
    obtain ⟨d, e, rfl, hd, he⟩ := List.sublist_append_iff.1 hsub
    rcases List.sublist_singleton.1 he with rfl | rfl
    · simp only [List.append_nil] at hadj hhead ⊢
      exact .inl ⟨hd, hadj, hhead⟩
    · refine .inr ⟨d, rfl, ?_⟩
      rcases d with _ | ⟨a, d⟩
      · exact .inl ⟨rfl, by simpa using hhead⟩
      · obtain ⟨hadj', -, hlast⟩ := List.isChain_append.1 hadj
        obtain ⟨j, hj⟩ := List.getLast?_isSome.2 (List.cons_ne_nil a d) |> Option.isSome_iff_exists.1
        refine .inr ⟨⟨hd, hadj', by simpa using hhead⟩, ?_⟩
        simp [chainEnd, hj, hlast j hj i rfl]
  · rintro (h | ⟨d, rfl, ⟨rfl, hi⟩ | ⟨hd, hend⟩⟩)
    · exact h.mono
    · exact ⟨by simp, List.isChain_singleton i, ⟨i, rfl, hi⟩⟩
    · refine ⟨hd.sublist.append (List.Sublist.refl [i]), hd.adjacent.append (List.isChain_singleton i) ?_,
        ?_⟩
      · intro x hx y hy
        rw [List.head?_singleton, Option.mem_some_iff] at hy
        rw [Option.mem_def] at hx
        simp only [chainEnd, hx, Option.map_some, Option.getD_some] at hend
        rw [← hy]
        exact hend
      · obtain ⟨j, hj, hheap⟩ := hd.head_isHeap
        exact ⟨j, by rw [List.head?_append, Option.mem_def.1 hj]; rfl, hheap⟩

/-- A run of adjacent intervals covers everything from its beginning to its end. -/
theorem covers_of_isChain (hwf : ∀ j ∈ c, j.start ≤ j.stop)
    (hc : c.IsChain (fun a b => a.stop = b.start)) {x : Nat} (hb : chainBegin c ≤ x)
    (he : x < chainEnd c) : ∃ j ∈ c, j.start ≤ x ∧ x < j.stop := by
  induction c with
  | nil => simp [chainEnd] at he
  | cons a c ih =>
    by_cases hx : x < a.stop
    · exact ⟨a, List.mem_cons_self, by simpa [chainBegin] using hb, hx⟩
    -- past the first interval: the rest begins where it ends
    rcases c with _ | ⟨b, c⟩
    · simp [chainEnd] at he; omega
    · obtain ⟨hab, hc'⟩ := List.isChain_cons_cons.1 hc
      obtain ⟨j, hj, hjx⟩ := ih (fun j hj => hwf j (List.mem_cons_of_mem a hj)) hc'
        (by simp [chainBegin]; omega) (by simpa [chainEnd] using he)
      exact ⟨j, List.mem_cons_of_mem a hj, hjx⟩

/-- A run of adjacent intervals holds at most as many heap bytes as it spans. -/
theorem heapSize_add_chainBegin_le (hwf : ∀ j ∈ c, j.start ≤ j.stop)
    (hc : c.IsChain (fun a b => a.stop = b.start)) : heapSize c + chainBegin c ≤ chainEnd c := by
  induction c with
  | nil => simp [chainBegin, chainEnd]
  | cons a c ih =>
    have ha := hwf a List.mem_cons_self
    have hbytes : a.heapBytes ≤ a.stop - a.start := by
      unfold Interval.heapBytes; split <;> omega
    rcases c with _ | ⟨b, c⟩
    · simp [heapSize, chainBegin, chainEnd]; omega
    · obtain ⟨hab, hc'⟩ := List.isChain_cons_cons.1 hc
      have ih' := ih (fun j hj => hwf j (List.mem_cons_of_mem a hj)) hc'
      simp only [heapSize, chainBegin, chainEnd, List.map_cons, List.sum_cons, List.head?_cons,
        Option.map_some, Option.getD_some, List.getLast?_cons_cons] at ih' ⊢
      omega

end Chains

/-! ### The invariant of the scan -/

/-- `[b, e)` with `h` heap bytes is the region of a chain of `P`, or the empty region at `0`. -/
def Realizes (P : List Interval) (b e h : Nat) : Prop :=
  ∃ c, (c = [] ∨ ChainOf P c) ∧ chainBegin c = b ∧ chainEnd c = e ∧ heapSize c = h

/-- What holds of the scan's variables after it has read the intervals `P`. -/
structure Inv (P : List Interval) (s : Scan) : Prop where
  /-- The current region is a chain of `P`, or the empty region at `0`. -/
  cur : Realizes P s.curBegin s.curEnd s.curHeapSize
  curBegin_le : s.curBegin ≤ s.curEnd
  /-- No chain ends past the current region. -/
  end_le : ∀ c, ChainOf P c → chainEnd c ≤ s.curEnd
  /-- A chain that ends where the current region ends has no more heap bytes, and begins no
  earlier. -/
  le_cur : ∀ c, ChainOf P c → chainEnd c = s.curEnd →
    heapSize c ≤ s.curHeapSize ∧ s.curBegin ≤ chainBegin c
  /-- The best region is a chain with heap bytes that ends with a heap interval, or the empty
  region at `0`. -/
  best : ∃ c, (c = [] ∨ ChainOf P c ∧ (∃ j ∈ c.getLast?, j.isHeap = true) ∧ 0 < heapSize c) ∧
    chainBegin c = s.bestBegin ∧ chainEnd c = s.bestEnd ∧ heapSize c = s.bestHeapSize
  /-- No chain has more heap bytes than the best region. -/
  le_best : ∀ c, ChainOf P c → heapSize c ≤ s.bestHeapSize
  /-- A chain with as many heap bytes as the best region begins no earlier. -/
  first_best : ∀ c, ChainOf P c → heapSize c = s.bestHeapSize → s.bestBegin ≤ chainBegin c
  bestBegin_le : s.bestBegin ≤ s.curBegin

theorem inv_init : Inv [] Scan.init := by
  have hnone : ∀ c, ¬ ChainOf [] c := fun c h => h.ne_nil (List.sublist_nil.1 h.sublist)
  refine ⟨⟨[], .inl rfl, rfl, rfl, rfl⟩, le_rfl, fun c h => absurd h (hnone c),
    fun c h => absurd h (hnone c), ⟨[], .inl rfl, rfl, rfl, rfl⟩, fun c h => absurd h (hnone c),
    fun c h => absurd h (hnone c), le_rfl⟩

section Step

variable {P : List Interval} {s : Scan} {i : Interval}

/-- The current region ends before the next interval begins. -/
theorem Inv.curEnd_le (hs : Inv P s) (hP : ∀ j ∈ P, j.stop ≤ i.start) : s.curEnd ≤ i.start := by
  obtain ⟨c, hc | hc, -, he, -⟩ := hs.cur
  · subst hc; rw [← he]; exact Nat.zero_le _
  · exact he ▸ hc.chainEnd_le hP

/-- An oat file that does not extend the current region is skipped: no chain ends with it. -/
theorem inv_skip (hs : Inv P s) (hP : ∀ j ∈ P, j.stop ≤ i.start) (h : i.start ≠ s.curEnd)
    (hh : i.isHeap = false) : Inv (P ++ [i]) s := by
  have hold : ∀ c, ChainOf (P ++ [i]) c → ChainOf P c := by
    intro c hc
    rcases chainOf_append_singleton.1 hc with hc | ⟨d, rfl, ⟨-, hi⟩ | ⟨hd, hend⟩⟩
    · exact hc
    · simp [hh] at hi
    · have := hs.end_le d hd
      have := hs.curEnd_le hP
      omega
  have hreal : ∀ {b e h}, Realizes P b e h → Realizes (P ++ [i]) b e h := by
    rintro b e h ⟨c, hc | hc, hb, he, hh⟩
    exacts [⟨c, .inl hc, hb, he, hh⟩, ⟨c, .inr hc.mono, hb, he, hh⟩]
  obtain ⟨c, hc, hb, he, hsize⟩ := hs.best
  refine ⟨hreal hs.cur, hs.curBegin_le, fun c hc => hs.end_le c (hold c hc),
    fun c hc => hs.le_cur c (hold c hc), ⟨c, ?_, hb, he, hsize⟩, fun c hc => hs.le_best c (hold c hc),
    fun c hc => hs.first_best c (hold c hc), hs.bestBegin_le⟩
  rcases hc with hc | ⟨hc, hlast, hpos⟩
  exacts [.inl hc, .inr ⟨hc.mono, hlast, hpos⟩]

/-- The current region after an interval that is not skipped is a chain ending with the
interval: the chain it extends, or the interval alone. -/
theorem inv_cur (hs : Inv P s) (hnull : i.isHeap = false → i.start ≠ 0)
    (h : i.start = s.curEnd ∨ i.isHeap = true) :
    ∃ d, ChainOf (P ++ [i]) (d ++ [i]) ∧ chainBegin (d ++ [i]) = (s.step i).curBegin ∧
      heapSize (d ++ [i]) = (s.step i).curHeapSize := by
  obtain ⟨hb', -, hh'⟩ := Scan.step_cur h
  rw [hb', hh']
  by_cases hext : i.start = s.curEnd
  · -- extending: the current chain, then the interval
    obtain ⟨d, hd | hd, hb, he, hsize⟩ := hs.cur
    · subst hd
      have hheap : i.isHeap = true := by
        by_contra hne
        exact hnull (Bool.eq_false_iff.2 hne) (by rw [hext, ← he]; rfl)
      refine ⟨[], chainOf_append_singleton.2 (.inr ⟨[], rfl, .inl ⟨rfl, hheap⟩⟩), ?_, ?_⟩
      · rw [if_pos hext, ← hb, chainBegin_append_singleton, if_pos rfl, hext, ← he]; rfl
      · rw [if_pos hext, ← hsize, heapSize_append_singleton]
    · refine ⟨d, chainOf_append_singleton.2 (.inr ⟨d, rfl, .inr ⟨hd, he.trans hext.symm⟩⟩), ?_, ?_⟩
      · rw [if_pos hext, chainBegin_append_singleton, if_neg hd.ne_nil, hb]
      · rw [if_pos hext, heapSize_append_singleton, hsize]
  · -- starting afresh with a heap interval
    have hheap : i.isHeap = true := h.resolve_left hext
    refine ⟨[], chainOf_append_singleton.2 (.inr ⟨[], rfl, .inl ⟨rfl, hheap⟩⟩), ?_, ?_⟩
    · rw [if_neg hext, chainBegin_append_singleton, if_pos rfl]
    · rw [if_neg hext, heapSize_append_singleton, heapSize_nil]

/-- A chain ending with an interval that is not skipped ends where the current region now ends,
with no more heap bytes and beginning no earlier. -/
theorem le_cur_step (hs : Inv P s) (hP : ∀ j ∈ P, j.stop ≤ i.start) (hwf : i.start ≤ i.stop)
    (h : i.start = s.curEnd ∨ i.isHeap = true) {c : List Interval} (hc : ChainOf (P ++ [i]) c)
    (he : chainEnd c = i.stop) :
    heapSize c ≤ (s.step i).curHeapSize ∧ (s.step i).curBegin ≤ chainBegin c := by
  obtain ⟨hb', -, hh'⟩ := Scan.step_cur h
  rw [hb', hh']
  have hcur := hs.curEnd_le hP
  rcases chainOf_append_singleton.1 hc with hc | ⟨d, rfl, ⟨rfl, -⟩ | ⟨hd, hend⟩⟩
  · -- a chain of `P` ending at the interval's end: the interval is empty and extends
    have hle := hs.end_le c hc
    have hext : i.start = s.curEnd := by omega
    obtain ⟨h1, h2⟩ := hs.le_cur c hc (by omega)
    rw [if_pos hext, if_pos hext]
    exact ⟨by omega, h2⟩
  · rw [heapSize_append_singleton, chainBegin_append_singleton, if_pos rfl, heapSize_nil]
    have := hs.curBegin_le
    split_ifs <;> omega
  · -- a chain ending where the interval begins: it ends where the current region ends
    have hext : i.start = s.curEnd := by have := hs.end_le d hd; omega
    obtain ⟨h1, h2⟩ := hs.le_cur d hd (hend.trans hext)
    rw [if_pos hext, if_pos hext, heapSize_append_singleton, chainBegin_append_singleton,
      if_neg hd.ne_nil]
    exact ⟨by omega, h2⟩

/-- One turn of the loop keeps the invariant. -/
theorem inv_step (hs : Inv P s) (hP : ∀ j ∈ P, j.stop ≤ i.start) (hwf : i.start ≤ i.stop)
    (hnull : i.isHeap = false → i.start ≠ 0) : Inv (P ++ [i]) (s.step i) := by
  by_cases h : i.start = s.curEnd ∨ i.isHeap = true
  swap
  · rw [not_or, Bool.not_eq_true] at h
    rw [Scan.step_of_skip h.1 h.2]
    exact inv_skip hs hP h.1 h.2
  obtain ⟨hb', he', hh'⟩ := Scan.step_cur h
  have hbest := Scan.step_best h
  obtain ⟨d, hd, hdb, hds⟩ := inv_cur hs hnull h
  -- every chain of `P ++ [i]` is a chain of `P` or ends with `i`
  have hnew : ∀ c, ChainOf (P ++ [i]) c → ChainOf P c ∨ chainEnd c = i.stop := by
    intro c hc
    rcases chainOf_append_singleton.1 hc with hc | ⟨d, rfl, -⟩
    exacts [.inl hc, .inr chainEnd_append_singleton]
  have hlecur : ∀ c, ChainOf (P ++ [i]) c → chainEnd c = i.stop →
      heapSize c ≤ (s.step i).curHeapSize ∧ (s.step i).curBegin ≤ chainBegin c :=
    fun c hc he => le_cur_step hs hP hwf h hc he
  -- a chain ending with an oat file has the heap bytes of the chain it extends
  have hoat : i.isHeap = false → ∀ c, ChainOf (P ++ [i]) c →
      ∃ e, ChainOf P e ∧ heapSize c = heapSize e ∧ chainBegin c = chainBegin e := by
    intro hi c hc
    rcases chainOf_append_singleton.1 hc with hc | ⟨e, rfl, ⟨-, hheap⟩ | ⟨he, -⟩⟩
    · exact ⟨c, hc, rfl, rfl⟩
    · simp [hi] at hheap
    · refine ⟨e, he, ?_, ?_⟩
      · rw [heapSize_append_singleton, Interval.heapBytes, hi]; rfl
      · rw [chainBegin_append_singleton, if_neg he.ne_nil]
  -- the fields about the current region
  have hcur' : Realizes (P ++ [i]) (s.step i).curBegin (s.step i).curEnd (s.step i).curHeapSize :=
    ⟨d ++ [i], .inr hd, hdb, by rw [chainEnd_append_singleton, he'], hds⟩
  have hcurBegin_le : (s.step i).curBegin ≤ (s.step i).curEnd := by
    have := hs.curBegin_le; have := hs.curEnd_le hP
    rw [hb', he']; split_ifs <;> omega
  have hend_le : ∀ c, ChainOf (P ++ [i]) c → chainEnd c ≤ (s.step i).curEnd := by
    intro c hc
    rw [he']
    rcases hnew c hc with hc | hc
    · have := hs.end_le c hc; have := hs.curEnd_le hP; omega
    · omega
  have hlecur' : ∀ c, ChainOf (P ++ [i]) c → chainEnd c = (s.step i).curEnd →
      heapSize c ≤ (s.step i).curHeapSize ∧ (s.step i).curBegin ≤ chainBegin c :=
    fun c hc he => hlecur c hc (he.trans he')
  split_ifs at hbest with hup <;> simp only [Prod.mk.injEq] at hbest
  · -- the current region becomes the best
    obtain ⟨hbb, hbe, hbs⟩ := hbest
    refine ⟨hcur', hcurBegin_le, hend_le, hlecur',
      ⟨d ++ [i], .inr ⟨hd, ⟨i, by simp, hup.1⟩, by omega⟩, by rw [hdb, hbb],
        by rw [chainEnd_append_singleton, hbe, he'], by rw [hds, hbs]⟩, ?_, ?_, by rw [hbb]⟩
    · intro c hc
      rw [hbs]
      rcases hnew c hc with hc' | hc'
      · have := hs.le_best c hc'; omega
      · exact (hlecur c hc hc').1
    · intro c hc hsize
      rw [hbb]
      rcases hnew c hc with hc' | hc'
      · have := hs.le_best c hc'; omega
      · exact (hlecur c hc hc').2
  · -- the best region stays
    obtain ⟨hbb, hbe, hbs⟩ := hbest
    obtain ⟨c, hc, hcb, hce, hcs⟩ := hs.best
    have hbestBegin : s.bestBegin ≤ (s.step i).curBegin := by
      have := hs.bestBegin_le; have := hs.curBegin_le; have := hs.curEnd_le hP
      rw [hb']; split_ifs <;> omega
    refine ⟨hcur', hcurBegin_le, hend_le, hlecur',
      ⟨c, ?_, by rw [hcb, hbb], by rw [hce, hbe], by rw [hcs, hbs]⟩, ?_, ?_, by rw [hbb]; exact hbestBegin⟩
    · rcases hc with hc | ⟨hc, hlast, hpos⟩
      exacts [.inl hc, .inr ⟨hc.mono, hlast, hpos⟩]
    · intro c hc
      rw [hbs]
      cases hi : i.isHeap
      · obtain ⟨e, he, hsize, -⟩ := hoat hi c hc
        exact hsize ▸ hs.le_best e he
      · rcases hnew c hc with hc' | hc'
        · exact hs.le_best c hc'
        · have := (hlecur c hc hc').1
          have hle : (s.step i).curHeapSize ≤ s.bestHeapSize := by
            rw [hi] at hup; exact not_lt.1 fun hlt => hup ⟨rfl, hlt⟩
          omega
    · intro c hc hsize
      rw [hbb]
      rw [hbs] at hsize
      cases hi : i.isHeap
      · obtain ⟨e, he, hsize', hbegin⟩ := hoat hi c hc
        rw [hbegin]
        exact hs.first_best e he (hsize' ▸ hsize)
      · rcases hnew c hc with hc' | hc'
        · exact hs.first_best c hc' hsize
        · exact hbestBegin.trans (hlecur c hc hc').2

end Step

/-- The invariant over a whole scan of intervals that each end before the next begins, with no
oat file at `0`. By induction on the intervals read, the last one taken off the end. -/
theorem inv_scan (L : List Interval) (hL : L.Pairwise (fun a b => a.stop ≤ b.start))
    (hwf : ∀ j ∈ L, j.start ≤ j.stop) (hnull : ∀ j ∈ L, j.isHeap = false → j.start ≠ 0) :
    Inv L (L.foldl Scan.step Scan.init) := by
  induction L using List.reverseRecOn with
  | nil => exact inv_init
  | append_singleton P i ih =>
    rw [List.pairwise_append] at hL
    have hP : ∀ j ∈ P, j.stop ≤ i.start := fun j hj => hL.2.2 j hj i List.mem_cons_self
    rw [List.foldl_append, List.foldl_cons, List.foldl_nil]
    exact inv_step (ih hL.1 (fun j hj => hwf j (List.mem_append_left _ hj))
      (fun j hj => hnull j (List.mem_append_left _ hj))) hP (hwf i (by simp)) (hnull i (by simp))

/-! ### The region -/

section Region

variable {spaces : List ContinuousSpace} {L c : List Interval} {j : Interval}

theorem start_le_stop_of_mem_intervals (hj : j ∈ intervals spaces) : j.start ≤ j.stop := by
  obtain ⟨space, -, hj⟩ := List.mem_flatMap.1 hj
  unfold spaceIntervals at hj
  split at hj
  · rw [List.mem_singleton] at hj
    subst hj
    exact space.begin_le_limit
  · next imageSpace himage =>
    have hend := space.begin_le_imageEnd imageSpace (by rw [himage]; rfl)
    rw [List.mem_append] at hj
    rcases hj with hj | hj
    · split at hj
      · simp at hj
      · next oatFile _ =>
        rw [List.mem_singleton] at hj
        subst hj
        exact oatFile.begin_le
    · rw [List.mem_singleton] at hj
      subst hj
      show space.begin ≤ SpaceBitmap.roundUp imageSpace.imageEnd kElfSegmentAlignment
      unfold SpaceBitmap.roundUp kElfSegmentAlignment
      omega

/-- In the order of the sort, intervals that do not overlap each end before the next begins. -/
theorem Interval.stop_le_start {a b : Interval} (hle : a.Le b) (hapart : a.Apart b)
    (hb : b.start ≤ b.stop) : a.stop ≤ b.start := by
  unfold Interval.Le at hle
  unfold Interval.Apart at hapart
  omega

theorem chainOf_singleton (hj : j ∈ L) (hheap : j.isHeap = true) : ChainOf L [j] :=
  ⟨List.singleton_sublist.2 hj, List.isChain_singleton j, ⟨j, rfl, hheap⟩⟩

/-- Intervals whose heap intervals are all empty hold no heap bytes. -/
theorem heapSize_eq_zero (h : ∀ j ∈ c, j.isHeap = true → j.start = j.stop) : heapSize c = 0 := by
  induction c with
  | nil => rfl
  | cons a c ih =>
    have ha : a.heapBytes = 0 := by
      unfold Interval.heapBytes
      split
      · next hheap => rw [h a List.mem_cons_self hheap, Nat.sub_self]
      · rfl
    simp only [heapSize, List.map_cons, List.sum_cons] at ih ⊢
    rw [ha, ih fun j hj => h j (List.mem_cons_of_mem a hj)]

end Region

end ImmuneSpaces

end Art
