import Mathlib.Data.List.Basic

/-!
# Loops over the words of a bitmap

`updateWords f lo hi ws` is the loop `for (idx = lo; idx < hi; ++idx) ws[idx] = f(idx, ws[idx])`
on a list of words, and `updateWordsChanged f lo hi` the same loop that also sets a flag where it
writes a word other than the one there, as the in-place set operations of a bitmap do. Words past
the list read as zero and are not written.

Each word is written once, from its own old value, so the loop updates the words pointwise
(`getD_updateWords`); the loop that records changes leaves the same words and reports whether the
pointwise update differs anywhere in `[lo, hi)` (`updateWordsChanged_eq`).
-/

namespace WordLoop

variable {w : Nat}

/-- `for (idx = lo; idx < hi; ++idx) words[idx] = f(idx, words[idx])`. -/
def updateWords (f : Nat → BitVec w → BitVec w) (lo hi : Nat) (ws : List (BitVec w)) :
    List (BitVec w) :=
  (List.range' lo (hi - lo)).foldl (fun ws idx => ws.set idx (f idx (ws.getD idx 0))) ws

/-- The loop of `updateWords` with a `changed` flag, set where the new word differs from the old
one; an unchanged word is not written. -/
def updateWordsChanged (f : Nat → BitVec w → BitVec w) (lo hi : Nat)
    (s : List (BitVec w) × Bool) : List (BitVec w) × Bool :=
  (List.range' lo (hi - lo)).foldl (fun s idx =>
    let existing := s.1.getD idx 0
    let update := f idx existing
    if existing ≠ update then (s.1.set idx update, true) else s) s

/-- Whether the pointwise update of `[lo, hi)` changes a word. -/
def changesWord (f : Nat → BitVec w → BitVec w) (lo hi : Nat) (ws : List (BitVec w)) : Bool :=
  (List.range' lo (hi - lo)).any fun idx => ws.getD idx 0 != f idx (ws.getD idx 0)

theorem getD_set (ws : List (BitVec w)) (i j : Nat) (a : BitVec w) :
    (ws.set i a).getD j 0 = if i = j ∧ j < ws.length then a else ws.getD j 0 := by
  rw [List.getD_eq_getElem?_getD, List.getElem?_set, List.getD_eq_getElem?_getD]
  by_cases hij : i = j
  · subst hij
    by_cases hi : i < ws.length
    · simp [hi]
    · simp [hi]
  · simp [hij]

/-- Writes at indices keep the length, whatever they write. -/
theorem length_foldl_set (g : List (BitVec w) → Nat → BitVec w) (is : List Nat)
    (ws : List (BitVec w)) : (is.foldl (fun ws idx => ws.set idx (g ws idx)) ws).length =
      ws.length := by
  induction is generalizing ws with
  | nil => rfl
  | cons i is ih => rw [List.foldl_cons, ih, List.length_set]

section Update

variable (f : Nat → BitVec w → BitVec w)

/-- The body of `updateWords` on the indices `lo, ..., lo + n - 1`. -/
theorem getD_foldl_range' (lo n : Nat) (ws : List (BitVec w)) (j : Nat) :
    ((List.range' lo n).foldl (fun ws idx => ws.set idx (f idx (ws.getD idx 0))) ws).getD j 0 =
      if lo ≤ j ∧ j < lo + n ∧ j < ws.length then f j (ws.getD j 0) else ws.getD j 0 := by
  induction n generalizing j with
  | zero => rw [List.range'_zero, List.foldl_nil, if_neg (by omega)]
  | succ n ih =>
    -- the last index `lo + n` reads its word before anything writes it
    rw [List.range'_concat, List.foldl_append, List.foldl_cons, List.foldl_nil, getD_set,
      length_foldl_set, ih, ih, Nat.one_mul]
    by_cases hj : lo + n = j
    · subst hj
      rw [if_neg (by omega : ¬(lo ≤ lo + n ∧ lo + n < lo + n ∧ lo + n < ws.length))]
      by_cases hl : lo + n < ws.length
      · rw [if_pos ⟨rfl, hl⟩, if_pos ⟨by omega, by omega, hl⟩]
      · rw [if_neg (by omega), if_neg (by omega)]
    · rw [if_neg (fun h => hj h.1)]
      by_cases h : lo ≤ j ∧ j < lo + n ∧ j < ws.length
      · rw [if_pos h, if_pos ⟨h.1, by omega, h.2.2⟩]
      · rw [if_neg h, if_neg (by omega)]

theorem length_updateWords (lo hi : Nat) (ws : List (BitVec w)) :
    (updateWords f lo hi ws).length = ws.length :=
  length_foldl_set _ _ ws

/-- The loop updates each word of `[lo, hi)` from its old value. -/
theorem getD_updateWords (lo hi : Nat) (ws : List (BitVec w)) (j : Nat) :
    (updateWords f lo hi ws).getD j 0 =
      if lo ≤ j ∧ j < hi ∧ j < ws.length then f j (ws.getD j 0) else ws.getD j 0 := by
  rw [updateWords, getD_foldl_range']
  by_cases h : lo ≤ j ∧ j < hi ∧ j < ws.length
  · rw [if_pos ⟨h.1, by omega, h.2.2⟩, if_pos h]
  · rw [if_neg h, if_neg (by omega)]

theorem set_getD_self (ws : List (BitVec w)) {i : Nat} (hi : i < ws.length) :
    ws.set i (ws.getD i 0) = ws := by
  rw [List.getD_eq_getElem?_getD, List.getElem?_eq_getElem hi, Option.getD_some,
    List.set_getElem_self]

/-- The flagged loop on `lo, ..., lo + n - 1` within the list: the words of `updateWords`, and
the flag set exactly where one of them changes. -/
theorem foldl_range'_changed (lo n : Nat) (ws : List (BitVec w)) (c : Bool)
    (hn : lo + n ≤ ws.length) :
    (List.range' lo n).foldl (fun s idx =>
        let existing := s.1.getD idx 0
        let update := f idx existing
        if existing ≠ update then (s.1.set idx update, true) else s) (ws, c) =
      ((List.range' lo n).foldl (fun ws idx => ws.set idx (f idx (ws.getD idx 0))) ws,
        c || (List.range' lo n).any fun idx => ws.getD idx 0 != f idx (ws.getD idx 0)) := by
  induction n with
  | zero => simp
  | succ n ih =>
    rw [List.range'_concat, List.foldl_append, List.foldl_append, ih (by omega), List.any_append,
      List.foldl_cons, List.foldl_nil, List.foldl_cons, List.foldl_nil, Nat.one_mul]
    -- the word at `lo + n` is still the old one
    have hold := getD_foldl_range' f lo n ws (lo + n)
    rw [if_neg (by omega)] at hold
    have hlen := length_foldl_set (fun ws idx => f idx (ws.getD idx 0)) (List.range' lo n) ws
    dsimp only
    rw [hold]
    by_cases hch : ws.getD (lo + n) 0 = f (lo + n) (ws.getD (lo + n) 0)
    · rw [if_neg (not_not.2 hch), ← hch, ← hold, set_getD_self _ (by omega)]
      simp only [List.any_cons, List.any_nil, ← hch, bne_self_eq_false, Bool.or_false]
    · have hb : (ws.getD (lo + n) 0 != f (lo + n) (ws.getD (lo + n) 0)) = true := bne_iff_ne.2 hch
      rw [if_pos hch]
      simp only [List.any_cons, List.any_nil, hb, Bool.or_false, Bool.or_true]

/-- The flagged loop within the list leaves the words of `updateWords` and sets the flag exactly
where a word changes. -/
theorem updateWordsChanged_eq (lo hi : Nat) (ws : List (BitVec w)) (c : Bool)
    (hhi : hi ≤ ws.length) :
    updateWordsChanged f lo hi (ws, c) = (updateWords f lo hi ws, c || changesWord f lo hi ws) := by
  by_cases h : lo ≤ hi
  · exact foldl_range'_changed f lo (hi - lo) ws c (by omega)
  · simp [updateWordsChanged, updateWords, changesWord, Nat.sub_eq_zero_of_le (Nat.le_of_not_le h)]

/-- A change of the pointwise update, at a word of `[lo, hi)`. -/
theorem changesWord_eq_true_iff (lo hi : Nat) (ws : List (BitVec w)) :
    changesWord f lo hi ws = true ↔
      ∃ idx, lo ≤ idx ∧ idx < hi ∧ ws.getD idx 0 ≠ f idx (ws.getD idx 0) := by
  simp only [changesWord, List.any_eq_true, List.mem_range'_1, bne_iff_ne, ne_eq]
  constructor
  · rintro ⟨idx, ⟨hlo, hhi⟩, hne⟩
    exact ⟨idx, hlo, by omega, hne⟩
  · rintro ⟨idx, hlo, hhi, hne⟩
    exact ⟨idx, ⟨hlo, by omega⟩, hne⟩

end Update

/-! ### Words as sets of bits -/

theorem ne_or_self_iff {x y : BitVec w} :
    x ≠ x ||| y ↔ ∃ s, y.getLsbD s = true ∧ x.getLsbD s = false := by
  constructor
  · intro hne
    by_contra hall
    push Not at hall
    apply hne
    apply BitVec.eq_of_getLsbD_eq
    intro s _
    rw [BitVec.getLsbD_or]
    cases hy : y.getLsbD s
    · simp
    · simp [hall s hy]
  · rintro ⟨s, hy, hx⟩ h
    have h' := congrArg (·.getLsbD s) h
    simp [hy, hx] at h'

/-- The or of two words is the second exactly when the first has no bit the second lacks. -/
theorem or_eq_right_iff {x y : BitVec w} :
    x ||| y = y ↔ ∀ s, x.getLsbD s = true → y.getLsbD s = true := by
  constructor
  · intro h s hx
    have h' := congrArg (·.getLsbD s) h
    simpa [hx] using h'.symm
  · intro h
    apply BitVec.eq_of_getLsbD_eq
    intro s _
    rw [BitVec.getLsbD_or]
    cases hx : x.getLsbD s
    · simp
    · simp [h s hx]

/-- An or-update changes a word exactly where it brings in a bit the word lacks. -/
theorem changesWord_or_iff (g : Nat → BitVec w) (lo hi : Nat) (ws : List (BitVec w)) :
    changesWord (fun idx x => x ||| g idx) lo hi ws = true ↔
      ∃ idx s, lo ≤ idx ∧ idx < hi ∧ (g idx).getLsbD s = true ∧
        (ws.getD idx 0).getLsbD s = false := by
  rw [changesWord_eq_true_iff]
  constructor
  · rintro ⟨idx, hlo, hhi, hne⟩
    obtain ⟨s, hg, hx⟩ := ne_or_self_iff.1 hne
    exact ⟨idx, s, hlo, hhi, hg, hx⟩
  · rintro ⟨idx, s, hlo, hhi, hg, hx⟩
    exact ⟨idx, hlo, hhi, ne_or_self_iff.2 ⟨s, hg, hx⟩⟩

end WordLoop
