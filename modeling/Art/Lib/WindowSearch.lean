import Mathlib.Order.Basic

/-!
# First window of consecutive indices

A search for the first window `[l, l + k)` of `k` consecutive indices on which a test `p` holds,
among the windows that start at `lo` or later and end by `stop`. The loop `search` checks the
window at `left` index by index (`scan`); where an index fails, every window starting between
`left` and that index contains it, so the loop goes on from the index after it.

`search` returns the first such window (`search_eq_some_iff`), or nothing when there is none
(`search_eq_none_iff`). A bound `min (c + k - 1) n` keeps exactly the windows within `n` that start
before `c` (`isFirst_min_iff`), which is how a search that begins at `c` and then wraps around to
`0` covers every window once.
-/

namespace WindowSearch

variable (p : Nat → Bool)

/-- `p` holds on the window `[l, l + k)`. -/
def RunAt (l k : Nat) : Prop := ∀ i < k, p (l + i) = true

instance (l k : Nat) : Decidable (RunAt p l k) :=
  inferInstanceAs (Decidable (∀ i < k, p (l + i) = true))

/-- The first window from `lo` on that ends by `stop` and on which `p` holds starts at `l`. -/
structure IsFirst (k lo stop l : Nat) : Prop where
  le : lo ≤ l
  add_le : l + k ≤ stop
  run : RunAt p l k
  not_run : ∀ l', lo ≤ l' → l' < l → ¬RunAt p l' k

/-- `while (right < left + n && p(right)) ++right`: where the loop stopped, and whether it went
through all `n` indices. -/
def scan (right : Nat) : Nat → Nat × Bool
  | 0 => (right, true)
  | n + 1 => if p right then scan (right + 1) n else (right, false)

theorem le_scan (right n : Nat) : right ≤ (scan p right n).1 := by
  induction n generalizing right with
  | zero => exact Nat.le_refl right
  | succ n ih =>
    rw [scan]
    split
    · exact Nat.le_of_succ_le (ih (right + 1))
    · exact Nat.le_refl right

/-- The loop over the windows from `left` on: the first whose indices all pass `p`, with the end
of the window; after a failed index the next window starts past it. -/
def search (k stop left : Nat) : Option (Nat × Nat) :=
  if left + k - 1 < stop then
    match hs : scan p left k with
    | (right, true) => some (left, right)
    | (right, false) => search k stop (right + 1)
  else none
termination_by stop + 1 - left
decreasing_by
  have hle := le_scan p left k
  rw [hs] at hle
  omega

/-- A scan through all its indices: they all pass, and it stops at the end. -/
theorem scan_true {right n r : Nat} (h : scan p right n = (r, true)) :
    r = right + n ∧ RunAt p right n := by
  induction n generalizing right with
  | zero =>
    rw [scan, Prod.mk.injEq] at h
    exact ⟨h.1.symm, fun i hi => absurd hi (Nat.not_lt_zero i)⟩
  | succ n ih =>
    rw [scan] at h
    split at h
    · next hp =>
      obtain ⟨hr, hrun⟩ := ih h
      refine ⟨by omega, fun i hi => ?_⟩
      -- the first index passed here, the others in the rest of the scan
      rcases i with _ | i
      · exact hp
      · have := hrun i (by omega)
        rwa [Nat.add_right_comm, Nat.add_assoc] at this
    · cases h

/-- A scan that stops early stops at an index of its window that fails. -/
theorem scan_false {right n r : Nat} (h : scan p right n = (r, false)) :
    right ≤ r ∧ r < right + n ∧ p r = false := by
  induction n generalizing right with
  | zero => simp [scan] at h
  | succ n ih =>
    rw [scan] at h
    split at h
    · obtain ⟨hle, hlt, hp⟩ := ih h
      exact ⟨by omega, by omega, hp⟩
    · next hp =>
      rw [Prod.mk.injEq] at h
      rw [← h.1]
      exact ⟨Nat.le_refl right, by omega, by simpa using hp⟩

variable {p}

/-- An index that fails lies in no window that contains it. -/
theorem not_runAt_of_mem {l k r : Nat} (hlr : l ≤ r) (hr : r < l + k) (hp : p r = false) :
    ¬RunAt p l k := by
  intro hrun
  have := hrun (r - l) (by omega)
  rw [Nat.add_sub_cancel' hlr, hp] at this
  cases this

variable (p)

/-- The window `search` returns is the first one from `left` on, and the end it returns is the
window's end. -/
theorem search_eq_some {k stop left l r : Nat} (h : search p k stop left = some (l, r)) :
    IsFirst p k left stop l ∧ r = l + k := by
  fun_induction search p k stop left with
  | case1 left hlt right hs =>
    obtain ⟨rfl, rfl⟩ := Prod.mk.injEq .. ▸ Option.some.inj h
    obtain ⟨hr, hrun⟩ := scan_true p hs
    exact ⟨⟨Nat.le_refl _, by omega, hrun, fun l' h1 h2 => absurd h2 (by omega)⟩, hr⟩
  | case2 left hlt right hs ih =>
    obtain ⟨⟨hle, hadd, hrun, hnot⟩, hr⟩ := ih h
    -- the windows skipped over all contain the index that failed
    obtain ⟨hlr, hrl, hp⟩ := scan_false p hs
    refine ⟨⟨by omega, hadd, hrun, fun l' h1 h2 => ?_⟩, hr⟩
    by_cases hl' : l' ≤ right
    · exact not_runAt_of_mem (by omega) (by omega) hp
    · exact hnot l' (by omega) h2
  | case3 left hge => cases h

/-- Where `search` finds nothing, no window from `left` on that ends by `stop` passes. -/
theorem search_eq_none {k stop left : Nat} (hk : 0 < k) (h : search p k stop left = none) :
    ∀ l, left ≤ l → l + k ≤ stop → ¬RunAt p l k := by
  fun_induction search p k stop left with
  | case1 left hlt right hs => cases h
  | case2 left hlt right hs ih =>
    obtain ⟨hlr, hrl, hp⟩ := scan_false p hs
    intro l h1 h2
    by_cases hl : l ≤ right
    · exact not_runAt_of_mem (by omega) (by omega) hp
    · exact ih h l (by omega) h2
  | case3 left hge =>
    intro l h1 h2
    omega

theorem IsFirst.unique {k lo stop l l' : Nat} (h : IsFirst p k lo stop l)
    (h' : IsFirst p k lo stop l') : l = l' := by
  by_contra hne
  rcases Nat.lt_or_gt_of_ne hne with hlt | hlt
  · exact h'.not_run l h.le hlt h.run
  · exact h.not_run l' h'.le hlt h'.run

theorem search_eq_some_iff {k stop left l r : Nat} (hk : 0 < k) :
    search p k stop left = some (l, r) ↔ IsFirst p k left stop l ∧ r = l + k := by
  refine ⟨search_eq_some p, fun ⟨hl, hr⟩ => ?_⟩
  cases hs : search p k stop left with
  | none => exact absurd hl.run (search_eq_none p hk hs l hl.le hl.add_le)
  | some lr =>
    obtain ⟨hl', hr'⟩ := search_eq_some p hs
    rw [hr, ← hl'.unique p hl, ← hr']

theorem search_eq_none_iff {k stop left : Nat} (hk : 0 < k) :
    search p k stop left = none ↔ ∀ l, left ≤ l → l + k ≤ stop → ¬RunAt p l k := by
  refine ⟨search_eq_none p hk, fun h => ?_⟩
  cases hs : search p k stop left with
  | none => rfl
  | some lr =>
    obtain ⟨hl, -⟩ := search_eq_some p hs
    exact absurd hl.run (h _ hl.le hl.add_le)

/-- Ending by `min (c + k - 1) n` is ending by `n` and starting before `c`. -/
theorem isFirst_min_iff {k c n l : Nat} (hk : 0 < k) :
    IsFirst p k 0 (min (c + k - 1) n) l ↔ IsFirst p k 0 n l ∧ l < c := by
  constructor
  · intro h
    have hmin := h.add_le
    refine ⟨⟨h.le, by omega, h.run, h.not_run⟩, by omega⟩
  · rintro ⟨h, hlc⟩
    have hn := h.add_le
    exact ⟨h.le, by omega, h.run, h.not_run⟩

end WindowSearch
