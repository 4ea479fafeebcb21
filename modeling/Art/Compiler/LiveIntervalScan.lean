import Art.Compiler.LiveInterval

/-!
# The search cache, `SplitAt` and `FirstIntersectionWith`

The linear-scan register allocator visits intervals at increasing positions. `Covers(position)`
searches the ranges from `range_search_start_`, the range the previous search stopped at, and
keeps the range it stops at; this is right because the ranges it skips end by the earlier
position (`CacheValid`). Under that discipline `Covers` answers as `CoversSlow` does, over any run
of calls that also splits the interval and resets its cache (`scanRun_eq_scanRunSlow`), and
`CoversSlow` answers whether the ranges hold the position (`coversSlow_iff`). `SplitAt(position)`
cuts the positions of an interval into those before `position` and those from it on, and moves
the cache off the ranges it gives away (`splitAt_spec`). `FirstIntersectionWith(current)` returns
the first position the two intervals share (`firstIntersectionWith_spec`).
-/

namespace Art

namespace LiveInterval

open LiveRange

variable {i : LiveInterval}

/-! ### The search -/

/-- The loop of `FindRangeAtOrAfter` stops at the first range from its start that ends after
`position`. -/
theorem drop_findRangeAtOrAfterLoop (position : Nat) :
    ∀ (l ranges : List LiveRange) (index : Nat), ranges.drop index = l →
      ranges.drop (findRangeAtOrAfterLoop position index l) =
        l.dropWhile fun r => r.endPos ≤ position
  | [], _, _, h => h
  | r :: rest, ranges, index, h => by
    rw [findRangeAtOrAfterLoop]
    split_ifs with hr
    · rw [List.dropWhile_cons_of_pos (by simpa using hr)]
      refine drop_findRangeAtOrAfterLoop position rest ranges (index + 1) ?_
      rw [← List.drop_drop, h, List.drop_one, List.tail_cons]
    · rw [List.dropWhile_cons_of_neg (by simpa using hr)]
      exact h

/-- The loop of `FindRangeAtOrAfter` passes only ranges that end by `position`. -/
theorem take_findRangeAtOrAfterLoop (position : Nat) :
    ∀ (l ranges : List LiveRange) (index : Nat), ranges.drop index = l →
      (∀ r ∈ ranges.take index, r.endPos ≤ position) →
      ∀ r ∈ ranges.take (findRangeAtOrAfterLoop position index l), r.endPos ≤ position
  | [], _, _, _, hskip => hskip
  | r :: rest, ranges, index, h, hskip => by
    rw [findRangeAtOrAfterLoop]
    split_ifs with hr
    · have hget : ranges[index]? = some r := by rw [← List.head?_drop, h, List.head?_cons]
      refine take_findRangeAtOrAfterLoop position rest ranges (index + 1)
        (by rw [← List.drop_drop, h, List.drop_one, List.tail_cons]) fun x hx => ?_
      rw [List.take_add_one, hget, Option.toList_some, List.mem_append,
        List.mem_singleton] at hx
      rcases hx with hx | rfl
      exacts [hskip x hx, hr]
    · exact hskip

theorem drop_findRangeAtOrAfter (position searchStart : Nat) :
    i.ranges.drop (i.findRangeAtOrAfter position searchStart) =
      (i.ranges.drop searchStart).dropWhile fun r => r.endPos ≤ position :=
  drop_findRangeAtOrAfterLoop position _ _ _ rfl

theorem take_findRangeAtOrAfter {position searchStart : Nat}
    (hskip : ∀ r ∈ i.ranges.take searchStart, r.endPos ≤ position) :
    ∀ r ∈ i.ranges.take (i.findRangeAtOrAfter position searchStart), r.endPos ≤ position :=
  take_findRangeAtOrAfterLoop position _ _ _ rfl hskip

/-- The answer of a search depends on the first range from the candidate on. -/
theorem startsAtOrBefore_eq (candidate position : Nat) :
    i.startsAtOrBefore candidate position =
      match (i.ranges.drop candidate).head? with
      | some range => decide (range.start ≤ position)
      | none => false := by
  unfold startsAtOrBefore
  cases h : i.ranges[candidate]? <;> simp [List.head?_drop, h]

/-- `CoversSlow(position)` answers whether a range of a gapped interval holds `position`. -/
theorem coversSlow_iff (hg : Gapped i.ranges) (position : Nat) :
    i.coversSlow position = true ↔ Covered i.ranges position := by
  rw [coversSlow, startsAtOrBefore_eq, drop_findRangeAtOrAfter, List.drop_zero]
  refine Iff.trans ?_ (IntervalList.covered_iff_dropWhile hg).symm
  cases (i.ranges.dropWhile fun r => r.endPos ≤ position).head? with
  | none => simp
  | some range => simp

theorem coversSlow_iff_hole :
    coversSlow ⟨[⟨2, 4⟩, ⟨6, 10⟩], 0, []⟩ 5 = true ↔ Covered [⟨2, 4⟩, ⟨6, 10⟩] 5 :=
  coversSlow_iff ⟨by decide, by decide⟩ 5

/-! ### The search cache -/

/-- The ranges before `range_search_start_` end by `position`: a search from `position` on may
skip them. -/
def CacheValid (i : LiveInterval) (position : Nat) : Prop :=
  ∀ r ∈ i.ranges.take i.rangeSearchStart, r.endPos ≤ position

theorem CacheValid.mono {q p : Nat} (h : i.CacheValid q) (hqp : q ≤ p) : i.CacheValid p :=
  fun r hr => Nat.le_trans (h r hr) hqp

theorem cacheValid_resetSearchCache (position : Nat) : i.resetSearchCache.CacheValid position := by
  intro r hr
  rw [resetSearchCache, List.take_zero] at hr
  cases hr

/-- From a valid cache, `Covers(position)` finds the range `CoversSlow(position)` finds. -/
theorem covers_fst {position : Nat} (h : i.CacheValid position) :
    (i.covers position).1 = i.coversSlow position := by
  rw [covers, coversSlow, startsAtOrBefore_eq, startsAtOrBefore_eq, drop_findRangeAtOrAfter,
    drop_findRangeAtOrAfter, List.drop_zero, IntervalList.dropWhile_drop h]

/-- `Covers(position)` leaves a cache valid from `position` on. -/
theorem CacheValid.covers {position : Nat} (h : i.CacheValid position) :
    (i.covers position).2.CacheValid position :=
  take_findRangeAtOrAfter h

/-! ### `SplitAt` -/

/-- The loop of `SplitAt` passes the ranges that end by `position` and stops at the first that ends
after it: a lifetime hole where that range starts at `position` or later, a cut otherwise. -/
theorem splitAtLoop_append (position : Nat) :
    ∀ (passed before : List LiveRange) (c : LiveRange) (rest : List LiveRange),
      (∀ r ∈ passed, r.endPos ≤ position) → position < c.endPos →
      splitAtLoop position before (passed ++ c :: rest) =
        if position ≤ c.start then
          (match before ++ passed with
            | [] => none
            | _ :: _ => some (before ++ passed, c :: rest, false))
        else some (before ++ passed ++ [⟨c.start, position⟩], ⟨position, c.endPos⟩ :: rest, true)
  | [], before, c, rest, _, hc => by
    -- the match on `before` reduces once `before` is a constructor
    cases before <;> simp only [List.nil_append, splitAtLoop, List.append_nil,
      if_neg (show ¬position ≥ c.endPos by omega)]
  | r :: passed, before, c, rest, hpassed, hc => by
    simp only [List.cons_append, splitAtLoop]
    rw [if_pos (hpassed r List.mem_cons_self),
      splitAtLoop_append position passed (before ++ [r]) c rest
        (fun x hx => hpassed x (List.mem_cons_of_mem r hx)) hc]
    simp only [List.append_assoc, List.singleton_append]

/-- What `SplitAt(position)` does to a gapped interval that starts before `position`: nothing where
the interval dies by `position`; otherwise, with `c` the first range that ends after `position`,
it gives the ranges from `c` on to a new interval, cutting `c` where `position` lies inside it. -/
theorem splitAt_cases (hg : Gapped i.ranges) {position : Nat}
    (hstart : ∃ f ∈ i.ranges.head?, f.start < position) :
    ((∀ r ∈ i.ranges, r.endPos ≤ position) ∧ i.splitAt position = some (i, none)) ∨
    ∃ tw c rest pre post, i.ranges = tw ++ c :: rest ∧ (∀ r ∈ tw, r.endPos ≤ position) ∧
      position < c.endPos ∧
      ((position ≤ c.start ∧ pre = tw ∧ post = c :: rest) ∨
        (c.start < position ∧ pre = tw ++ [⟨c.start, position⟩] ∧
          post = ⟨position, c.endPos⟩ :: rest)) ∧
      i.splitAt position =
        some (⟨pre, if i.searchStartMoves post then tw.length else i.rangeSearchStart,
          (i.splitSafepoints position).1⟩, some ⟨post, 0, (i.splitSafepoints position).2⟩) := by
  obtain ⟨f, hf, hfs⟩ := hstart
  obtain ⟨last, hlast⟩ : ∃ last, i.ranges.getLast? = some last := by
    cases hr : i.ranges with
    | nil => rw [hr] at hf; cases hf
    | cons a l => exact ⟨_, List.getLast?_eq_some_getLast (List.cons_ne_nil a l)⟩
  have hend : i.getEnd = some last.endPos := by rw [getEnd, hlast]; rfl
  unfold splitAt
  rw [hend]
  dsimp only
  split_ifs with hle
  · exact Or.inl ⟨fun r hr => Nat.le_trans (hg.hi_le_of_getLast hr hlast) hle, rfl⟩
  · right
    obtain ⟨c, rest, hdw, hc⟩ := IntervalList.dropWhile_eq_cons
      ⟨last, List.mem_of_mem_getLast? hlast, Nat.lt_of_not_le hle⟩
    have hr : i.ranges = (i.ranges.takeWhile fun r => r.endPos ≤ position) ++ c :: rest := by
      rw [← hdw, List.takeWhile_append_dropWhile]
    have htw : ∀ r ∈ i.ranges.takeWhile (fun r => r.endPos ≤ position), r.endPos ≤ position :=
      fun r hr => IntervalList.hi_le_of_mem_takeWhile hr
    have hloop := splitAtLoop_append position _ [] c rest htw hc
    rw [← hr] at hloop
    simp only [List.nil_append] at hloop
    rw [hloop]
    split_ifs with hhole
    · -- a lifetime hole: the first range starts before `position`, so `c` is not the first
      cases htake : i.ranges.takeWhile fun r => r.endPos ≤ position with
      | nil =>
        rw [htake, List.nil_append] at hr
        rw [hr, List.head?_cons, Option.mem_some_iff] at hf
        subst hf
        omega
      | cons t tw =>
        rw [htake] at hr htw
        exact ⟨t :: tw, c, rest, _, _, hr, htw, hc, Or.inl ⟨hhole, rfl, rfl⟩, rfl⟩
    · refine ⟨_, c, rest, _, _, hr, htw, hc, Or.inr ⟨Nat.lt_of_not_le hhole, rfl, rfl⟩, ?_⟩
      rw [Option.map_some]
      simp only [List.length_append, List.length_singleton, Nat.add_sub_cancel, ↓reduceIte]

/-- The range `range_search_start_` stands at lies among those given away exactly when it comes
no earlier than the first range that ends after the cut. -/
theorem searchStartMoves_iff {tw rest : List LiveRange} {c c' : LiveRange}
    (hg : Gapped (tw ++ c :: rest)) (hr : i.ranges = tw ++ c :: rest)
    (htw : ∀ r ∈ tw, r.endPos < c.endPos) (hc' : c'.endPos = c.endPos) :
    i.searchStartMoves (c' :: rest) = true ↔
      tw.length ≤ i.rangeSearchStart ∧ i.rangeSearchStart < i.ranges.length := by
  have hgc := (IntervalList.gapped_append.1 hg).2.1
  unfold searchStartMoves
  rw [List.head?_cons]
  cases hget : i.ranges[i.rangeSearchStart]? with
  | none =>
    rw [List.getElem?_eq_none_iff] at hget
    simp only [Bool.false_eq_true, false_iff, not_and, Nat.not_lt]
    exact fun _ => hget
  | some cached =>
    have hlt : i.rangeSearchStart < i.ranges.length := (List.getElem?_eq_some_iff.1 hget).1
    simp only [decide_eq_true_eq, hc', hlt, and_true]
    rw [hr] at hget
    by_cases hk : i.rangeSearchStart < tw.length
    · -- a range before the cut ends before `c`
      rw [List.getElem?_append_left hk] at hget
      have := htw cached (List.mem_of_getElem? hget)
      omega
    · -- a range from `c` on ends no earlier than `c`
      rw [List.getElem?_append_right (Nat.le_of_not_lt hk)] at hget
      have := (hgc.le_of_mem (List.mem_of_getElem? hget)).2
      omega

/-- The cache of the cut interval skips only ranges the old cache skipped. -/
theorem CacheValid.split {q : Nat} (h : i.CacheValid q) {tw rest pre : List LiveRange}
    {c : LiveRange} (hr : i.ranges = tw ++ c :: rest)
    (hpre : pre = tw ∨ ∃ cut : LiveRange, pre = tw ++ [cut] ∧ cut.endPos ≤ c.endPos)
    {moves : Bool}
    (hmoves : moves = true ↔ tw.length ≤ i.rangeSearchStart ∧ i.rangeSearchStart < i.ranges.length) :
    ∀ r ∈ pre.take (if moves then tw.length else i.rangeSearchStart), r.endPos ≤ q := by
  have htake : pre.take tw.length = tw := by
    rcases hpre with rfl | ⟨cut, rfl, -⟩
    exacts [List.take_length, List.take_left' rfl]
  have hall : i.rangeSearchStart ≥ i.ranges.length → ∀ r ∈ i.ranges, r.endPos ≤ q := fun hge r hr' =>
    h r (by rw [List.take_of_length_le hge]; exact hr')
  cases moves with
  | true =>
    -- the old cache lay past the ranges kept whole
    obtain ⟨hle, -⟩ := hmoves.1 rfl
    intro r hr'
    rw [if_pos rfl, htake] at hr'
    refine h r ?_
    rw [hr, List.take_append, List.take_of_length_le hle]
    exact List.mem_append_left _ hr'
  | false =>
    intro r hr'
    rw [if_neg Bool.false_ne_true] at hr'
    by_cases hk : i.rangeSearchStart ≤ tw.length
    · -- the old cache lay among the ranges kept whole
      rcases hpre with rfl | ⟨cut, rfl, -⟩
      · refine h r ?_
        rw [hr, List.take_append_of_le_length hk]
        exact hr'
      · rw [List.take_append_of_le_length hk] at hr'
        refine h r ?_
        rw [hr, List.take_append_of_le_length hk]
        exact hr'
    · -- the old cache was nullptr: every range ends by `q`, the cut one too
      have hge : i.rangeSearchStart ≥ i.ranges.length := by
        by_contra hlt
        exact Bool.false_ne_true (hmoves.2 ⟨by omega, by omega⟩)
      have hc := hall hge c (by rw [hr]; exact List.mem_append_right _ List.mem_cons_self)
      rcases hpre with rfl | ⟨cut, rfl, hcut⟩
      · exact hall hge r (by rw [hr]; exact List.mem_append_left _ (List.mem_of_mem_take hr'))
      · rcases List.mem_append.1 (List.mem_of_mem_take hr') with hr'' | hr''
        · exact hall hge r (by rw [hr]; exact List.mem_append_left _ hr'')
        · rw [List.mem_singleton.1 hr'']
          omega

/-- The loop of `FindSafepointJustBefore` stops before the first safepoint at or after
`position`: `previous` where that is the first one looked at, `last` where there is none. -/
theorem findSafepointJustBeforeLoop_eq (position : Nat) (last : Option Nat) :
    ∀ (l : List Nat) (previous : Option Nat) (index : Nat),
      findSafepointJustBeforeLoop position last previous index l =
        if (l.takeWhile (· < position)).length = l.length then last
        else if (l.takeWhile (· < position)).length = 0 then previous
        else some (index + (l.takeWhile (· < position)).length - 1)
  | [], _, _ => rfl
  | x :: rest, previous, index => by
    rw [findSafepointJustBeforeLoop]
    by_cases hx : x < position
    · rw [if_neg (Nat.not_le_of_lt hx), findSafepointJustBeforeLoop_eq position last rest,
        List.takeWhile_cons_of_pos (by simpa using hx)]
      simp only [List.length_cons, Nat.add_right_cancel_iff, Nat.add_one_ne_zero, ↓reduceIte]
      generalize (rest.takeWhile (· < position)).length = k
      split_ifs
      · rfl
      all_goals
        congr 1
        omega
    · rw [if_pos (Nat.le_of_not_lt hx), List.takeWhile_cons_of_neg (by simpa using hx)]
      simp

/-- `SplitAt(position)` leaves the safepoints before `position` and gives away the others. -/
theorem splitSafepoints_eq (position : Nat) :
    i.splitSafepoints position =
      (i.safepoints.takeWhile (· < position), i.safepoints.dropWhile (· < position)) := by
  have happ := List.takeWhile_append_dropWhile (p := (· < position)) (l := i.safepoints)
  have htake : i.safepoints.take (i.safepoints.takeWhile (· < position)).length =
      i.safepoints.takeWhile (· < position) := by
    conv_lhs => arg 2; rw [← happ]
    exact List.take_left' rfl
  have hdrop : i.safepoints.drop (i.safepoints.takeWhile (· < position)).length =
      i.safepoints.dropWhile (· < position) := by
    conv_lhs => arg 2; rw [← happ]
    exact List.drop_left' rfl
  have hle : (i.safepoints.takeWhile (· < position)).length ≤ i.safepoints.length :=
    (List.takeWhile_sublist _).length_le
  unfold splitSafepoints findSafepointJustBefore lastSafepoint
  rw [findSafepointJustBeforeLoop_eq]
  generalize hk : (i.safepoints.takeWhile (· < position)).length = k at htake hdrop hle
  cases hs : i.safepoints with
  | nil =>
    rw [hs] at hk
    simp [← hk]
  | cons x xs =>
    rw [hs] at htake hdrop hle hk
    simp only [List.length_cons, Nat.add_sub_cancel] at hle ⊢
    by_cases hall : k = xs.length + 1
    · -- every safepoint is before `position`: the interval keeps them all
      rw [if_pos hall]
      simp only [ne_eq, not_true_eq_false, ↓reduceIte]
      rw [← htake, ← hdrop, hall, ← List.length_cons, List.take_length, List.drop_length]
    · rw [if_neg hall]
      by_cases hnone : k = 0
      · rw [if_pos hnone, ← htake, ← hdrop, hnone]
        rfl
      · have hk1 : 0 + k - 1 + 1 = k := by omega
        rw [if_neg hnone]
        simp only [ne_eq, Option.some.injEq]
        rw [if_pos (by omega), hk1, htake, hdrop]

/-- Where `position` is not past the interval's start, `SplitAt` keeps the interval whole, or
dereferences the range before the first as nullptr: the source's `DCHECK_GT(position, GetStart())`
rules both out. -/
theorem splitAt_of_start_ge {position : Nat} (hstart : ¬∃ f ∈ i.ranges.head?, f.start < position)
    (hg : Gapped i.ranges) :
    i.splitAt position = none ∨ i.splitAt position = some (i, none) := by
  unfold splitAt
  split
  · exact Or.inl rfl
  · split_ifs
    · exact Or.inr rfl
    · left
      cases hr : i.ranges with
      | nil => rfl
      | cons f rest =>
        rw [hr] at hstart hg
        have hfp : position ≤ f.start := by simpa using hstart
        have := hg.head
        simp only [splitAtLoop]
        rw [if_neg (show ¬position ≥ f.endPos by omega), if_pos hfp]
        rfl

/-- A split that succeeds keeps the interval gapped, and its cache skips only ranges the old
cache skipped. -/
theorem splitAt_inv (hg : Gapped i.ranges) {position : Nat} {i' : LiveInterval}
    {j : Option LiveInterval} (hsplit : i.splitAt position = some (i', j)) :
    Gapped i'.ranges ∧ ∀ q, i.CacheValid q → i'.CacheValid q := by
  by_cases hstart : ∃ f ∈ i.ranges.head?, f.start < position
  · rcases splitAt_cases hg hstart with ⟨-, heq⟩ | ⟨tw, c, rest, pre, post, hr, htw, hc, hcase, heq⟩
    · rw [heq, Option.some.injEq, Prod.mk.injEq] at hsplit
      obtain ⟨rfl, -⟩ := hsplit
      exact ⟨hg, fun q h => h⟩
    · rw [heq, Option.some.injEq, Prod.mk.injEq] at hsplit
      obtain ⟨rfl, -⟩ := hsplit
      have hg' : Gapped (tw ++ c :: rest) := hr ▸ hg
      obtain ⟨hgtw, hgc, hjoin⟩ := IntervalList.gapped_append.1 hg'
      refine ⟨?_, fun q h => ?_⟩
      · -- the ranges kept, the cut one last
        rcases hcase with ⟨-, rfl, -⟩ | ⟨hcs, rfl, -⟩
        · exact hgtw
        · refine IntervalList.gapped_append.2 ⟨hgtw, IntervalList.gapped_singleton hcs,
            fun a ha b hb => ?_⟩
          rw [List.head?_cons, Option.mem_some_iff] at hb
          rw [← hb]
          exact hjoin a ha c rfl
      · -- the cache, through the ranges it may skip
        have htw' : ∀ r ∈ tw, r.endPos < c.endPos := fun r hr' => by
          have := htw r hr'
          omega
        rcases hcase with ⟨-, rfl, rfl⟩ | ⟨-, rfl, rfl⟩
        · exact CacheValid.split h hr (Or.inl rfl) (searchStartMoves_iff hg' hr htw' rfl)
        · exact CacheValid.split h hr (Or.inr ⟨_, rfl, Nat.le_of_lt hc⟩)
            (searchStartMoves_iff hg' hr htw' rfl)
  · rcases splitAt_of_start_ge hstart hg with h | h
    · rw [h] at hsplit
      cases hsplit
    · rw [h, Option.some.injEq, Prod.mk.injEq] at hsplit
      obtain ⟨rfl, -⟩ := hsplit
      exact ⟨hg, fun q h => h⟩

/-- `SplitAt(position)` on a gapped interval that starts before `position` leaves it the
positions before `position` and gives those from `position` on to the new interval, which is
gapped and searched from its first range; the safepoints are shared out the same way, and the cut
interval's cache skips only ranges the old cache skipped. -/
theorem splitAt_spec (hg : Gapped i.ranges) {position : Nat}
    (hstart : ∃ f ∈ i.ranges.head?, f.start < position) :
    ∃ i' j, i.splitAt position = some (i', j) ∧ Gapped i'.ranges ∧
      (∀ p, Covered i'.ranges p ↔ Covered i.ranges p ∧ p < position) ∧
      (∀ p, (∃ n ∈ j, Covered n.ranges p) ↔ Covered i.ranges p ∧ position ≤ p) ∧
      (∀ n ∈ j, Gapped n.ranges ∧ n.rangeSearchStart = 0 ∧
        i'.safepoints = i.safepoints.takeWhile (· < position) ∧
        n.safepoints = i.safepoints.dropWhile (· < position)) ∧
      (∀ q, i.CacheValid q → i'.CacheValid q) := by
  rcases splitAt_cases hg hstart with ⟨hall, heq⟩ | ⟨tw, c, rest, pre, post, hr, htw, hc, hcase, heq⟩
  · -- the interval dies by `position`: nothing is given away
    refine ⟨i, none, heq, hg, fun p => ⟨fun h => ⟨h, IntervalList.covered_of_hi_le hall h⟩,
      And.left⟩, fun p => ⟨?_, ?_⟩, fun n hn => absurd hn (Option.not_mem_none n), fun q h => h⟩
    · rintro ⟨n, hn, -⟩
      exact absurd hn (Option.not_mem_none n)
    · rintro ⟨h, hle⟩
      have := IntervalList.covered_of_hi_le hall h
      omega
  · have hgc := (IntervalList.gapped_append.1 (hr ▸ hg : Gapped (tw ++ c :: rest))).2.1
    have hcEnd := hgc.head
    obtain ⟨hkept, hcache⟩ := splitAt_inv hg heq
    refine ⟨_, _, heq, hkept, fun p => ?_, fun p => ?_, ?_, hcache⟩
    · show Covered pre p ↔ Covered i.ranges p ∧ p < position
      rw [hr, IntervalList.covered_and_lt_iff hgc htw hc]
      rcases hcase with ⟨hhole, rfl, -⟩ | ⟨-, rfl, -⟩
      · -- nothing of `c` lies before `position`
        exact ⟨Or.inl, fun h => h.elim id fun ⟨h₁, h₂⟩ => absurd h₂ (by omega)⟩
      · simp only [IntervalList.covered_append, IntervalList.covered_cons,
          IntervalList.covered_nil, or_false]
    · simp only [Option.mem_def, Option.some.injEq, exists_eq_left']
      rw [hr, IntervalList.covered_and_le_iff hgc htw hc]
      rcases hcase with ⟨hhole, -, rfl⟩ | ⟨hcs, -, rfl⟩
      all_goals
        simp only [IntervalList.covered_cons]
        exact or_congr_left (by omega)
    · intro n hn
      rw [Option.mem_some_iff] at hn
      subst hn
      refine ⟨?_, rfl, by rw [splitSafepoints_eq], by rw [splitSafepoints_eq]⟩
      rcases hcase with ⟨-, -, rfl⟩ | ⟨-, -, rfl⟩
      · exact hgc
      · exact hgc.tail.cons (show position < c.endPos from hc) fun s hs =>
          hgc.hi_lt_of_mem (List.mem_of_mem_head? hs)

/-- A cut inside the second range, with the cache on it. -/
theorem splitAt_spec_cut :
    ∃ i' j, splitAt ⟨[⟨2, 4⟩, ⟨6, 10⟩], 1, [3, 7]⟩ 8 = some (i', j) ∧ Gapped i'.ranges ∧
      (∀ p, Covered i'.ranges p ↔ Covered [⟨2, 4⟩, ⟨6, 10⟩] p ∧ p < 8) ∧
      (∀ p, (∃ n ∈ j, Covered n.ranges p) ↔ Covered [⟨2, 4⟩, ⟨6, 10⟩] p ∧ 8 ≤ p) ∧
      (∀ n ∈ j, Gapped n.ranges ∧ n.rangeSearchStart = 0 ∧
        i'.safepoints = [3, 7].takeWhile (· < 8) ∧ n.safepoints = [3, 7].dropWhile (· < 8)) ∧
      (∀ q, CacheValid ⟨[⟨2, 4⟩, ⟨6, 10⟩], 1, [3, 7]⟩ q → i'.CacheValid q) :=
  splitAt_spec ⟨by decide, by decide⟩ ⟨⟨2, 4⟩, rfl, by decide⟩

/-- What `SplitAt` gives away, and the ranges and safepoints it keeps, do not depend on the
search cache. -/
theorem splitAt_congr {i₀ : LiveInterval} (hr : i₀.ranges = i.ranges)
    (hs : i₀.safepoints = i.safepoints) (position : Nat) :
    (i₀.splitAt position).map (fun r => (r.1.ranges, r.1.safepoints, r.2)) =
      (i.splitAt position).map (fun r => (r.1.ranges, r.1.safepoints, r.2)) := by
  unfold splitAt getEnd
  rw [hr, splitSafepoints_eq, splitSafepoints_eq, hs]
  split
  · rfl
  · split_ifs
    · simp only [Option.map_some, hr, hs]
    · simp only [Option.map_map]
      rfl

/-! ### A scan over one interval -/

/-- What the linear scan asks of one interval. -/
inductive ScanStep
  | covers (position : Nat)
  | splitAt (position : Nat)
  | resetSearchCache
  deriving DecidableEq, Repr

/-- The answers of `Covers` over a run of the scan, each split going on with the interval it
keeps; `none` where a split fails. -/
def scanRun (i : LiveInterval) : List ScanStep → Option (List Bool)
  | [] => some []
  | .covers position :: steps =>
    ((i.covers position).2.scanRun steps).map ((i.covers position).1 :: ·)
  | .splitAt position :: steps => (i.splitAt position).bind fun r => r.1.scanRun steps
  | .resetSearchCache :: steps => i.resetSearchCache.scanRun steps

/-- The same run with `CoversSlow` in place of `Covers`. -/
def scanRunSlow (i : LiveInterval) : List ScanStep → Option (List Bool)
  | [] => some []
  | .covers position :: steps => (i.scanRunSlow steps).map (i.coversSlow position :: ·)
  | .splitAt position :: steps => (i.splitAt position).bind fun r => r.1.scanRunSlow steps
  | .resetSearchCache :: steps => i.resetSearchCache.scanRunSlow steps

/-- The discipline the cache asks for: the positions passed to `Covers` do not decrease, except
after `ResetSearchCache`. -/
def ScanStep.Ordered : Nat → List ScanStep → Prop
  | _, [] => True
  | q, .covers position :: steps => q ≤ position ∧ Ordered position steps
  | q, .splitAt _ :: steps => Ordered q steps
  | _, .resetSearchCache :: steps => Ordered 0 steps

instance ScanStep.instDecidableOrdered : ∀ q steps, Decidable (ScanStep.Ordered q steps)
  | _, [] => isTrue trivial
  | q, .covers position :: steps =>
    have := instDecidableOrdered position steps
    inferInstanceAs (Decidable (q ≤ position ∧ _))
  | q, .splitAt _ :: steps => instDecidableOrdered q steps
  | _, .resetSearchCache :: steps => instDecidableOrdered 0 steps

/-- `CoversSlow` reads only the ranges. -/
theorem coversSlow_congr {i₀ : LiveInterval} (hr : i₀.ranges = i.ranges) (position : Nat) :
    i₀.coversSlow position = i.coversSlow position := by
  unfold coversSlow startsAtOrBefore findRangeAtOrAfter
  rw [hr]

/-- The induction for `scanRun_eq_scanRunSlow`, over an interval with a cache and one with the
same ranges and safepoints whose cache the slow run never reads. -/
theorem scanRun_eq_scanRunSlow_of_congr : ∀ (steps : List ScanStep) {i i₀ : LiveInterval}
    {q : Nat}, Gapped i.ranges → i.CacheValid q → ScanStep.Ordered q steps →
    i₀.ranges = i.ranges → i₀.safepoints = i.safepoints → i.scanRun steps = i₀.scanRunSlow steps
  | [], _, _, _, _, _, _, _, _ => rfl
  | .covers position :: steps, i, i₀, q, hg, hcache, ⟨hq, hord⟩, hr, hs => by
    -- the cache, valid at `q`, is valid at the later `position`
    have hcache' := hcache.mono hq
    rw [scanRun, scanRunSlow, covers_fst hcache', coversSlow_congr hr,
      scanRun_eq_scanRunSlow_of_congr steps (i := (i.covers position).2) hg hcache'.covers hord hr
        hs]
  | .splitAt position :: steps, i, i₀, q, hg, hcache, hord, hr, hs => by
    rw [scanRun, scanRunSlow]
    have hcongr := splitAt_congr hr hs position
    cases hsplit : i.splitAt position with
    | none =>
      rw [hsplit, Option.map_none, Option.map_eq_none_iff] at hcongr
      rw [hcongr]
      rfl
    | some r =>
      obtain ⟨i', j⟩ := r
      rw [hsplit, Option.map_some] at hcongr
      obtain ⟨⟨i₀', j₀⟩, hsplit₀, heq⟩ := Option.map_eq_some_iff.1 hcongr
      simp only [Prod.mk.injEq] at heq
      obtain ⟨hg', hcache'⟩ := splitAt_inv hg hsplit
      rw [hsplit₀, Option.bind_some, Option.bind_some]
      exact scanRun_eq_scanRunSlow_of_congr steps hg' (hcache' q hcache) hord heq.1 heq.2.1
  | .resetSearchCache :: steps, i, i₀, q, hg, _, hord, hr, hs => by
    rw [scanRun, scanRunSlow]
    exact scanRun_eq_scanRunSlow_of_congr steps hg (cacheValid_resetSearchCache 0) hord hr hs

/-- Over any run of the scan that keeps to the cache's discipline, `Covers` answers as
`CoversSlow` does. -/
theorem scanRun_eq_scanRunSlow (hg : Gapped i.ranges) {q : Nat} (hcache : i.CacheValid q)
    {steps : List ScanStep} (hord : ScanStep.Ordered q steps) :
    i.scanRun steps = i.scanRunSlow steps :=
  scanRun_eq_scanRunSlow_of_congr steps hg hcache hord rfl rfl

theorem scanRun_eq_scanRunSlow_split :
    scanRun ⟨[⟨2, 4⟩, ⟨6, 10⟩], 0, [3, 7]⟩
        [.covers 3, .covers 7, .splitAt 8, .covers 9, .resetSearchCache, .covers 2] =
      scanRunSlow ⟨[⟨2, 4⟩, ⟨6, 10⟩], 0, [3, 7]⟩
        [.covers 3, .covers 7, .splitAt 8, .covers 9, .resetSearchCache, .covers 2] :=
  scanRun_eq_scanRunSlow ⟨by decide, by decide⟩ (q := 0) (fun r hr => by simp at hr) (by decide)

/-! ### `FirstIntersectionWith` -/

/-- The walk of `FirstIntersectionWith` over two gapped lists of ranges finds the first position
they share: each step drops a range that ends before the other list's current range starts, and
so holds none of the common positions. -/
theorem firstIntersectionLoop_spec (myRange : LiveRange) (myRest : List LiveRange)
    (otherRange : LiveRange) (otherRest : List LiveRange) (hmy : Gapped (myRange :: myRest))
    (hother : Gapped (otherRange :: otherRest)) :
    IntervalList.FirstCommon LiveRange.start LiveRange.endPos (myRange :: myRest)
      (otherRange :: otherRest) (firstIntersectionLoop myRange myRest otherRange otherRest) := by
  fun_induction firstIntersectionLoop myRange myRest otherRange otherRest with
  | case1 a b bs hab =>
    -- `a` ends before `b` starts, and is this interval's last range
    intro y hy
    rw [IntervalList.common_cons_of_hi_le hother (of_decide_eq_true hab)] at hy
    exact IntervalList.covered_nil hy.1
  | case2 a b bs hab next rest ih =>
    exact (IntervalList.firstCommon_congr fun p =>
      IntervalList.common_cons_of_hi_le hother (of_decide_eq_true hab)).2 (ih hmy.tail hother)
  | case3 a as b hab hba =>
    intro y hy
    rw [and_comm, IntervalList.common_cons_of_hi_le hmy (of_decide_eq_true hba)] at hy
    exact IntervalList.covered_nil hy.1
  | case4 a as b hab hba next rest ih =>
    refine (IntervalList.firstCommon_congr fun p => ?_).2 (ih hmy hother.tail)
    rw [and_comm, IntervalList.common_cons_of_hi_le hmy (of_decide_eq_true hba), and_comm]
  | case5 a as b bs hab hba =>
    -- the two current ranges overlap
    exact IntervalList.first_common_of_overlap hmy hother (fun h => hab (decide_eq_true h))
      (fun h => hba (decide_eq_true h))

/-- `FirstIntersectionWith(current)`, from a cache valid where `current` starts, returns the first
position the two gapped intervals share, `kNoLifetime` where they share none. -/
theorem firstIntersectionWith_spec {current : LiveInterval} (hg : Gapped i.ranges)
    (hcur : Gapped current.ranges) (hne : current.ranges ≠ []) {q : Nat} (hcache : i.CacheValid q)
    (hq : ∀ f ∈ current.ranges.head?, q ≤ f.start) :
    ∃ first, i.firstIntersectionWith current = some first ∧
      IntervalList.FirstCommon LiveRange.start LiveRange.endPos i.ranges current.ranges first := by
  obtain ⟨b, bs, hcb⟩ := List.exists_cons_of_ne_nil hne
  have hqb : q ≤ b.start := hq b (by rw [hcb]; rfl)
  rw [hcb] at hcur
  -- the search from the cache finds the range the search from the first range finds
  have hdrop : i.ranges.drop (i.findRangeAtOrAfter b.start i.rangeSearchStart) =
      i.ranges.dropWhile fun r => r.endPos ≤ b.start := by
    rw [drop_findRangeAtOrAfter, IntervalList.dropWhile_drop (hcache.mono hqb)]
  -- the ranges it skips end before `current` starts, so hold none of the common positions
  have hskip : ∀ p, (Covered (i.ranges.dropWhile fun r => r.endPos ≤ b.start) p ∧
      Covered (b :: bs) p) ↔ (Covered i.ranges p ∧ Covered (b :: bs) p) := fun p =>
    and_congr_left fun hp => IntervalList.covered_dropWhile_of_le
      (Nat.le_of_not_lt fun hlt => hcur.not_covered_of_lt hlt hp)
  unfold firstIntersectionWith
  rw [hcb]
  refine ⟨_, rfl, ?_⟩
  rw [← IntervalList.firstCommon_congr hskip, hdrop]
  cases hd : i.ranges.dropWhile fun r => r.endPos ≤ b.start with
  | nil =>
    intro y hy
    exact IntervalList.covered_nil hy.1
  | cons a as =>
    have hsuffix : (a :: as) <:+ i.ranges := hd ▸ List.dropWhile_suffix _
    exact firstIntersectionLoop_spec a as b bs (hg.suffix hsuffix) hcur

theorem firstIntersectionWith_spec_hole :
    ∃ first, firstIntersectionWith ⟨[⟨2, 4⟩, ⟨6, 10⟩], 0, []⟩ ⟨[⟨4, 7⟩], 0, []⟩ = some first ∧
      IntervalList.FirstCommon LiveRange.start LiveRange.endPos [⟨2, 4⟩, ⟨6, 10⟩] [⟨4, 7⟩]
        first :=
  firstIntersectionWith_spec ⟨by decide, by decide⟩ ⟨by decide, by decide⟩ (by decide) (q := 0)
    (fun r hr => by simp at hr) (by decide)

end LiveInterval

end Art
