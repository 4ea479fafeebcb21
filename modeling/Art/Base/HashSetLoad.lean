import Art.Base.HashSetLookup

/-!
# Load factors under which every call returns

`FindIndexImpl`, `FirstAvailableSlot` and `erase` run until they meet an empty slot, so on a full
array a lookup of a missing key never returns; `insert_loops_of_full` shows that the checks on the
load factors allow one. With a minimum load factor of at most `999 / 1001` and a maximum of at most
`1000 / 1001`, the defaults among them, no set a program makes fills its array, and every call on
it returns (`exec_isSome_of_reachableWith`): `Expand()` leaves room for the element being inserted
and one more, `ShrinkToMaximumLoad()` and `SetLoadFactor` room for one.

`reserve(num_elements)` keeps its promise: the set then takes insertions without resizing until
it holds `num_elements + 2` elements (`reserve_insert_run`).
-/

namespace Art

namespace LoadFactors

/-- Load factors under which resizing leaves an empty slot. -/
def Bounded (lf : LoadFactors) : Prop :=
  lf.minLoadFactor ≤ 999 / 1001 ∧ lf.maxLoadFactor ≤ 1000 / 1001

instance (lf : LoadFactors) : Decidable lf.Bounded := inferInstanceAs (Decidable (_ ∧ _))

theorem bounded_kDefault : kDefault.Bounded := by
  norm_num [Bounded, kDefault]

end LoadFactors

namespace HashSet

open LinearProbe

variable {α : Type} {hashfn : α → Nat} {pred : α → α → Bool}

/-! ### Slot counts -/

theorem kMinBuckets_le_clamp (newSize : Nat) :
    kMinBuckets ≤ if newSize < kMinBuckets then kMinBuckets else newSize := by
  split_ifs <;> omega

/-- `Resize(size() / q)` leaves room for `c` more elements where `1001 * q + c ≤ 1001`: below
`kMinBuckets` the clamp gives the room, above it the division does. -/
theorem add_le_clamp_floor_div (n c : Nat) {q : ℚ} (hq : 0 < q) (hqc : 1001 * q + c ≤ 1001) :
    n + c ≤ if ⌊(n : ℚ) / q⌋₊ < kMinBuckets then kMinBuckets else ⌊(n : ℚ) / q⌋₊ := by
  by_cases hsmall : n + c ≤ kMinBuckets
  · exact hsmall.trans (kMinBuckets_le_clamp _)
  · refine le_trans (Nat.le_floor ?_) (le_clamp _)
    have hbig : (1001 : ℚ) ≤ n + c := by
      unfold kMinBuckets at hsmall
      exact_mod_cast (by omega : 1001 ≤ n + c)
    rw [le_div_iff₀ hq]
    push_cast
    -- `(n + c) * (1001 * q) ≤ (n + c) * (1001 - c)`, and `c * (n + c - 1001)` is nonnegative
    nlinarith [mul_le_mul_of_nonneg_left hqc (by positivity : (0 : ℚ) ≤ n + c),
      mul_nonneg (Nat.cast_nonneg c : (0 : ℚ) ≤ c) (sub_nonneg.2 hbig)]

/-! ### Room in the array -/

/-- The array has an empty slot, or no slots at all: either way every probe stops. -/
def HasRoom (s : HashSet α) : Prop := s.numBuckets = 0 ∨ s.numElements < s.numBuckets

instance (s : HashSet α) : Decidable s.HasRoom := inferInstanceAs (Decidable (_ ∨ _))

section Room

variable {s : HashSet α}

theorem Inv.exists_empty (hi : Inv hashfn pred s) (hr : s.HasRoom) :
    s.numBuckets = 0 ∨ ∃ z < s.numBuckets, s.data.getD z none = none := by
  rcases hr with h0 | hlt
  · exact Or.inl h0
  · rw [hi.numElements_eq, numBuckets_eq] at hlt
    obtain ⟨z, hz, hzlt⟩ := exists_empty_of_length_lt hlt
    exact Or.inr ⟨z, hzlt, hz⟩

/-- `find` in a set with room returns. -/
theorem Inv.find_isSome (hi : Inv hashfn pred s) (hr : s.HasRoom) (key : α) :
    (s.find hashfn pred key).isSome := by
  rcases hi.exists_empty hr with h0 | ⟨z, hzlt, hz⟩
  · rw [find, findIndex, if_pos h0]
    rfl
  · rw [find, findIndex, if_neg (Nat.pos_iff_ne_zero.1 (Nat.lt_of_le_of_lt (Nat.zero_le z) hzlt)),
      Option.isSome_map]
    exact findIndexImpl_isSome hz hzlt

/-- `elements_until_expand_` is below the slot count: the maximum load factor is below one. -/
theorem Inv.elementsUntilExpand_lt (hi : Inv hashfn pred s) (hn : 0 < s.numBuckets) :
    s.elementsUntilExpand < s.numBuckets := by
  have hpos : (0 : ℚ) < s.numBuckets := Nat.cast_pos.2 hn
  have hmax := s.loadFactors.maxLoadFactor_pos
  rw [hi.elementsUntilExpand_eq, Nat.floor_lt (by positivity)]
  calc (s.numBuckets : ℚ) * s.loadFactors.maxLoadFactor < s.numBuckets * 1 :=
        mul_lt_mul_of_pos_left s.loadFactors.maxLoadFactor_lt_one hpos
    _ = s.numBuckets := mul_one _

/-- Below `elements_until_expand_` the array has room for one more element and an empty slot. -/
theorem Inv.add_one_lt_of_lt (hi : Inv hashfn pred s) (h : s.numElements < s.elementsUntilExpand) :
    s.numElements + 1 < s.numBuckets := by
  have hn : 0 < s.numBuckets := by
    rw [Nat.pos_iff_ne_zero]
    intro h0
    rw [hi.elementsUntilExpand_eq, h0, Nat.cast_zero, zero_mul, Nat.floor_zero] at h
    exact Nat.not_lt_zero _ h
  exact Nat.lt_of_le_of_lt h (hi.elementsUntilExpand_lt hn)

/-- The array `insert` and `Put` probe, after the expansion before an insertion, has room for the
element and one more: `elements_until_expand_` gives it where there is no expansion, and
`Expand()` under bounded load factors. -/
theorem Inv.expandIfFull_room (hi : Inv hashfn pred s) (hb : s.loadFactors.Bounded) :
    ∃ s₁, s.expandIfFull hashfn = some s₁ ∧ s₁.numElements = s.numElements ∧
      s₁.loadFactors = s.loadFactors ∧ (elems s₁.data).length = s.numElements ∧
      s.numElements + 1 < s₁.numBuckets := by
  rw [HashSet.expandIfFull]
  split_ifs with hfull
  · -- `Expand()` to `size() / min_load_factor_` slots, `kMinBuckets` at least
    have hroom := add_le_clamp_floor_div s.size 2 s.loadFactors.minLoadFactor_pos
      (by have := hb.1; push_cast; linarith)
    obtain ⟨d, hd, hdlen, -, hdperm⟩ :=
      @resize_spec _ hashfn s ⌊(s.size : ℚ) / s.loadFactors.minLoadFactor⌋₊
        (by rw [← hi.numElements_eq]; exact (Nat.le_add_right _ 2).trans hroom)
    refine ⟨_, hd, rfl, rfl, by rw [hdperm.length_eq, hi.numElements_eq], ?_⟩
    show s.numElements + 1 < d.length
    rw [hdlen]
    exact hroom
  · exact ⟨s, rfl, rfl, rfl, hi.numElements_eq.symm,
      hi.add_one_lt_of_lt (Nat.lt_of_not_le hfull)⟩

variable (pred) in
/-- `insert` returns where the array after the expansion has an empty slot: with that array, or
with that array and the element in one more slot. -/
theorem insert_of_expandIfFull {s₁ : HashSet α} (hexp : s.expandIfFull hashfn = some s₁) {z : Nat}
    (hz : s₁.data.getD z none = none) (hzlt : z < s₁.numBuckets) (e : α) :
    ∃ s' i b, s.insert hashfn pred e = some (s', i, b) ∧ s'.numBuckets = s₁.numBuckets ∧
      s'.elementsUntilExpand = s₁.elementsUntilExpand ∧ s'.loadFactors = s₁.loadFactors ∧
      s'.numElements ≤ s₁.numElements + 1 := by
  have hsome : (s₁.findIndexImpl pred true e (hashfn e)).isSome := findIndexImpl_isSome hz hzlt
  obtain ⟨⟨i, found⟩, hfind⟩ := Option.isSome_iff_exists.1 hsome
  rw [insert, insertWithHash, hexp, Option.bind_some, hfind, Option.map_some]
  cases found with
  | true => exact ⟨s₁, i, false, rfl, rfl, rfl, rfl, Nat.le_succ _⟩
  | false => exact ⟨_, i, true, rfl, List.length_set .., rfl, rfl, Nat.le_refl _⟩

variable (pred) in
/-- `Put` returns where the array after the expansion has an empty slot. -/
theorem put_of_expandIfFull {s₁ : HashSet α} (hexp : s.expandIfFull hashfn = some s₁) {z : Nat}
    (hz : s₁.data.getD z none = none) (hzlt : z < s₁.numBuckets) (e : α) :
    ∃ s', s.put hashfn pred e = some s' ∧ s'.numBuckets = s₁.numBuckets ∧
      s'.loadFactors = s₁.loadFactors ∧ s'.numElements = s₁.numElements + 1 := by
  have hsome : (s₁.findIndexImpl pred false e (hashfn e)).isSome := findIndexImpl_isSome hz hzlt
  obtain ⟨⟨i, found⟩, hfind⟩ := Option.isSome_iff_exists.1 hsome
  rw [put, putWithHash, hexp, Option.bind_some, hfind, Option.map_some]
  exact ⟨_, rfl, List.length_set .., rfl, rfl⟩

/-- An array after the expansion with room for one more element has an empty slot. -/
theorem exists_empty_of_expandIfFull_room {s₁ : HashSet α}
    (hlen : (elems s₁.data).length = s.numElements) (hroom : s.numElements + 1 < s₁.numBuckets) :
    ∃ z, s₁.data.getD z none = none ∧ z < s₁.numBuckets :=
  exists_empty_of_length_lt (by rw [hlen]; rw [numBuckets_eq] at hroom; omega)

theorem Inv.insert_room (hi : Inv hashfn pred s) (hb : s.loadFactors.Bounded) (e : α) :
    ∃ s' i b, s.insert hashfn pred e = some (s', i, b) ∧ s'.HasRoom ∧
      s'.loadFactors = s.loadFactors := by
  obtain ⟨s₁, hexp, hnum, hlf, hlen, hroom⟩ := hi.expandIfFull_room hb
  obtain ⟨z, hz, hzlt⟩ := exists_empty_of_expandIfFull_room hlen hroom
  obtain ⟨s', i, b, hins, hnb, -, hlf', hnum'⟩ := insert_of_expandIfFull pred hexp hz hzlt e
  exact ⟨s', i, b, hins, Or.inr (by omega), hlf'.trans hlf⟩

theorem Inv.put_room (hi : Inv hashfn pred s) (hb : s.loadFactors.Bounded) (e : α) :
    ∃ s', s.put hashfn pred e = some s' ∧ s'.HasRoom ∧ s'.loadFactors = s.loadFactors := by
  obtain ⟨s₁, hexp, hnum, hlf, hlen, hroom⟩ := hi.expandIfFull_room hb
  obtain ⟨z, hz, hzlt⟩ := exists_empty_of_expandIfFull_room hlen hroom
  obtain ⟨s', hput, hnb, hlf', hnum'⟩ := put_of_expandIfFull pred hexp hz hzlt e
  exact ⟨s', hput, Or.inr (by omega), hlf'.trans hlf⟩

theorem Inv.erase_room (hi : Inv hashfn pred s) (hr : s.HasRoom) {index : Nat}
    (hocc : Occupied s.data index) :
    ∃ s' j, s.erase hashfn index = some (s', j) ∧ s'.HasRoom ∧ s'.loadFactors = s.loadFactors := by
  obtain ⟨e, he⟩ := Option.isSome_iff_exists.1 hocc
  have hn : 0 < s.numBuckets := Nat.lt_of_le_of_lt (Nat.zero_le _) (lt_length_of_getD_eq_some he)
  rcases hi.exists_empty hr with h0 | ⟨z, hzlt, hz⟩
  · exact absurd h0 (Nat.pos_iff_ne_zero.1 hn)
  · obtain ⟨d, j, hd, hdlen, -, -⟩ := erase_spec hi.clustered he hz hzlt
    refine ⟨_, j, hd, Or.inr ?_, rfl⟩
    have hlt : s.numElements < s.numBuckets := hr.resolve_left (Nat.pos_iff_ne_zero.1 hn)
    show s.numElements - 1 < d.length
    rw [hdlen, ← numBuckets_eq]
    omega

/-- `Resize` to more slots than the set has elements returns an array with room. -/
theorem resize_room (hnum : s.numElements = (elems s.data).length) {newSize : Nat}
    (hroom : s.numElements < if newSize < kMinBuckets then kMinBuckets else newSize) :
    ∃ s', s.resize hashfn newSize = some s' ∧ s'.HasRoom ∧ s'.loadFactors = s.loadFactors := by
  obtain ⟨d, hd, hdlen, -, -⟩ := @resize_spec _ hashfn s newSize (hnum ▸ Nat.le_of_lt hroom)
  refine ⟨_, hd, Or.inr ?_, rfl⟩
  show s.numElements < d.length
  rw [hdlen]
  exact hroom

theorem Inv.reserve_room (hi : Inv hashfn pred s) (hr : s.HasRoom) (numElements : Nat) :
    ∃ s', s.reserve hashfn numElements = some s' ∧ s'.HasRoom ∧
      s'.loadFactors = s.loadFactors := by
  rw [HashSet.reserve]
  split_ifs with hgt
  · -- the old array holds every element, and the new one is larger
    have hle : s.numElements ≤ s.numBuckets := by
      rw [hi.numElements_eq, numBuckets_eq]
      exact length_elems_le _
    exact resize_room hi.numElements_eq (Nat.lt_of_lt_of_le (Nat.lt_of_le_of_lt hle hgt) (le_clamp _))
  · exact ⟨s, rfl, hr, rfl⟩

theorem Inv.shrinkToMaximumLoad_room (hi : Inv hashfn pred s) (hb : s.loadFactors.Bounded) :
    ∃ s', s.shrinkToMaximumLoad hashfn = some s' ∧ s'.HasRoom ∧
      s'.loadFactors = s.loadFactors :=
  resize_room hi.numElements_eq (add_le_clamp_floor_div s.size 1 s.loadFactors.maxLoadFactor_pos
    (by have := hb.2; push_cast; linarith))

theorem Inv.setLoadFactor_room (hi : Inv hashfn pred s) (hr : s.HasRoom) {lf : LoadFactors}
    (hb : lf.Bounded) :
    ∃ s', s.setLoadFactor hashfn lf = some s' ∧ s'.HasRoom ∧ s'.loadFactors = lf := by
  rw [HashSet.setLoadFactor]
  split_ifs
  · -- the mean of the load factors is below the maximum
    have hmean : 0 < (lf.minLoadFactor + lf.maxLoadFactor) * (1 / 2) := by
      have := lf.minLoadFactor_pos
      have := lf.maxLoadFactor_pos
      positivity
    refine resize_room ?_ ?_
    · exact hi.numElements_eq
    · exact add_le_clamp_floor_div s.size 1 hmean
        (by have := lf.minLoadFactor_lt; have := hb.2; push_cast; linarith)
  · exact ⟨_, rfl, hr, rfl⟩

end Room

/-! ### Runs with bounded load factors -/

namespace Op

/-- The load factors `SetLoadFactor` is given are in `ok`. -/
def LoadFactorsIn (ok : LoadFactors → Prop) : Op α → Prop
  | setLoadFactor lf => ok lf
  | _ => True

end Op

/-- The sets a program makes with load factors in `ok` only. -/
inductive ReachableWith (ok : LoadFactors → Prop) (hashfn : α → Nat) (pred : α → α → Bool) :
    HashSet α → Prop where
  | create {lf : LoadFactors} : ok lf → ReachableWith ok hashfn pred (HashSet.create lf)
  | ofBuffer {lf : LoadFactors} (bufferSize : Nat) :
      ok lf → ReachableWith ok hashfn pred (HashSet.ofBuffer lf bufferSize)
  | step {s s' : HashSet α} {op : Op α} : ReachableWith ok hashfn pred s → op.Allowed pred s →
      op.LoadFactorsIn ok → op.exec hashfn pred s = some s' → ReachableWith ok hashfn pred s'

section ReachableWith

variable {ok : LoadFactors → Prop} {s : HashSet α}

theorem ReachableWith.reachable (h : ReachableWith ok hashfn pred s) : Reachable hashfn pred s := by
  induction h with
  | create _ => exact .create _
  | ofBuffer bufferSize _ => exact .ofBuffer _ bufferSize
  | step _ hallowed _ hexec ih => exact .step ih hallowed hexec

/-- One call on a set with room and bounded load factors returns a set with room and bounded load
factors. -/
theorem Inv.exec_room (hi : Inv hashfn pred s) (hr : s.HasRoom) (hb : s.loadFactors.Bounded)
    {op : Op α} (hallowed : op.Allowed pred s) (hok : op.LoadFactorsIn LoadFactors.Bounded) :
    ∃ s', op.exec hashfn pred s = some s' ∧ s'.HasRoom ∧ s'.loadFactors.Bounded := by
  cases op with
  | insert e =>
    obtain ⟨s', i, b, hins, hroom, hlf⟩ := hi.insert_room hb e
    exact ⟨s', by rw [Op.exec, hins, Option.map_some], hroom, hlf ▸ hb⟩
  | put e =>
    obtain ⟨s', hput, hroom, hlf⟩ := hi.put_room hb e
    exact ⟨s', hput, hroom, hlf ▸ hb⟩
  | erase index =>
    obtain ⟨s', j, her, hroom, hlf⟩ := hi.erase_room hr hallowed
    exact ⟨s', by rw [Op.exec, her, Option.map_some], hroom, hlf ▸ hb⟩
  | clear => exact ⟨_, rfl, Or.inl rfl, hb⟩
  | reserve numElements =>
    obtain ⟨s', hres, hroom, hlf⟩ := hi.reserve_room hr numElements
    exact ⟨s', hres, hroom, hlf ▸ hb⟩
  | shrinkToMaximumLoad =>
    obtain ⟨s', hshrink, hroom, hlf⟩ := hi.shrinkToMaximumLoad_room hb
    exact ⟨s', hshrink, hroom, hlf ▸ hb⟩
  | setLoadFactor lf =>
    obtain ⟨s', hset, hroom, hlf⟩ := hi.setLoadFactor_room hr hok
    exact ⟨s', hset, hroom, hlf ▸ hok⟩

theorem ReachableWith.room (hsymm : ∀ a b, pred a b = pred b a)
    (hhash : ∀ a b, pred a b = true → hashfn a = hashfn b)
    (h : ReachableWith LoadFactors.Bounded hashfn pred s) : s.HasRoom ∧ s.loadFactors.Bounded := by
  induction h with
  | create hlf => exact ⟨Or.inl rfl, hlf⟩
  | ofBuffer bufferSize hlf =>
    refine ⟨?_, hlf⟩
    rcases Nat.eq_zero_or_pos bufferSize with h0 | hpos
    · exact Or.inl (by rw [numBuckets_eq, HashSet.ofBuffer, List.length_replicate, h0])
    · exact Or.inr (by rw [numBuckets_eq, HashSet.ofBuffer, List.length_replicate]; exact hpos)
  | step hreach hallowed hok hexec ih =>
    have hi := inv_of_reachable hsymm hhash hreach.reachable
    obtain ⟨s', hs', hroom, hb⟩ := hi.exec_room ih.1 ih.2 hallowed hok
    rw [hexec, Option.some.injEq] at hs'
    exact hs' ▸ ⟨hroom, hb⟩

/-- Every set a program makes with bounded load factors has an empty slot or no slots; every call
it may make on it returns, and so does every lookup. -/
theorem exec_isSome_of_reachableWith (hsymm : ∀ a b, pred a b = pred b a)
    (hhash : ∀ a b, pred a b = true → hashfn a = hashfn b)
    (h : ReachableWith LoadFactors.Bounded hashfn pred s) :
    s.HasRoom ∧
      (∀ op : Op α, op.Allowed pred s → op.LoadFactorsIn LoadFactors.Bounded →
        (op.exec hashfn pred s).isSome) ∧
      ∀ key, (s.find hashfn pred key).isSome := by
  have hi := inv_of_reachable hsymm hhash h.reachable
  obtain ⟨hr, hb⟩ := h.room hsymm hhash
  refine ⟨hr, fun op hallowed hok => ?_, hi.find_isSome hr⟩
  obtain ⟨s', hs', -⟩ := hi.exec_room hr hb hallowed hok
  rw [hs']
  rfl

theorem exec_isSome_of_reachableWith_create :
    (create LoadFactors.kDefault : HashSet Nat).HasRoom ∧
      (∀ op : Op Nat, op.Allowed (· == ·) (create LoadFactors.kDefault) →
        op.LoadFactorsIn LoadFactors.Bounded →
          (op.exec id (· == ·) (create LoadFactors.kDefault)).isSome) ∧
      ∀ key, ((create LoadFactors.kDefault : HashSet Nat).find id (· == ·) key).isSome :=
  @exec_isSome_of_reachableWith Nat id (· == ·) _ (fun _ _ => Bool.beq_comm)
    (fun _ _ h => by simpa using h) (ReachableWith.create LoadFactors.bounded_kDefault)

end ReachableWith

/-! ### `reserve` -/

namespace Op

variable (hashfn : α → Nat) (pred : α → α → Bool)

/-- A program's calls in order: the set after them all, or `none` where one of them loops
forever. -/
def run (s : HashSet α) : List (Op α) → Option (HashSet α)
  | [] => some s
  | op :: ops => (op.exec hashfn pred s).bind fun s' => run s' ops

end Op

section Reserve

variable {s : HashSet α}

/-- The loop of `reserve` ends at no fewer slots than it starts from, and at a slot count whose
`elements_until_expand_` exceeds `num_elements + 1`. -/
theorem reserveLoop_spec (lf : LoadFactors) (numElements numBuckets : Nat) :
    numBuckets ≤ reserveLoop lf numElements numBuckets ∧
      numElements + 1 < ⌊(reserveLoop lf numElements numBuckets : ℚ) * lf.maxLoadFactor⌋₊ := by
  fun_induction reserveLoop lf numElements numBuckets with
  | case1 numBuckets _ ih => exact ⟨Nat.le_of_succ_le ih.1, ih.2⟩
  | case2 numBuckets hgt => exact ⟨Nat.le_refl _, Nat.lt_of_not_le hgt⟩

theorem floor_mul_maxLoadFactor_le (lf : LoadFactors) {a b : Nat} (h : a ≤ b) :
    ⌊(a : ℚ) * lf.maxLoadFactor⌋₊ ≤ ⌊(b : ℚ) * lf.maxLoadFactor⌋₊ :=
  Nat.floor_le_floor (mul_le_mul_of_nonneg_right (Nat.cast_le.2 h) lf.maxLoadFactor_pos.le)

/-- After `reserve(num_elements)`, `elements_until_expand_` exceeds `num_elements + 1`, whether the
array was resized or was large enough already. -/
theorem Inv.reserve_spec (hi : Inv hashfn pred s) (numElements : Nat) :
    ∃ s', s.reserve hashfn numElements = some s' ∧ s'.numElements = s.numElements ∧
      numElements + 1 < s'.elementsUntilExpand := by
  obtain ⟨-, hlt⟩ := reserveLoop_spec s.loadFactors numElements
    ⌊(numElements : ℚ) / s.loadFactors.maxLoadFactor⌋₊
  rw [HashSet.reserve]
  split_ifs with hgt
  · obtain ⟨d, hd, hdlen, -, -⟩ := @resize_spec _ hashfn s _
      ((length_elems_le s.data).trans ((Nat.le_of_lt hgt).trans (le_clamp _)))
    refine ⟨_, hd, rfl, ?_⟩
    show numElements + 1 < ⌊(d.length : ℚ) * s.loadFactors.maxLoadFactor⌋₊
    rw [hdlen]
    exact Nat.lt_of_lt_of_le hlt (floor_mul_maxLoadFactor_le _ (le_clamp _))
  · refine ⟨s, rfl, rfl, ?_⟩
    rw [hi.elementsUntilExpand_eq]
    exact Nat.lt_of_lt_of_le hlt (floor_mul_maxLoadFactor_le _ (Nat.le_of_not_lt hgt))

/-- Below `elements_until_expand_`, `insert` returns without resizing the array. -/
theorem Inv.insert_of_lt (hi : Inv hashfn pred s) (h : s.numElements < s.elementsUntilExpand)
    (e : α) :
    ∃ s' i b, s.insert hashfn pred e = some (s', i, b) ∧ s'.numBuckets = s.numBuckets ∧
      s'.elementsUntilExpand = s.elementsUntilExpand ∧ s'.numElements ≤ s.numElements + 1 := by
  have hexp : s.expandIfFull hashfn = some s := by
    rw [HashSet.expandIfFull, if_neg (Nat.not_le_of_lt h)]
  obtain ⟨z, hz, hzlt⟩ :=
    exists_empty_of_expandIfFull_room hi.numElements_eq.symm (hi.add_one_lt_of_lt h)
  obtain ⟨s', i, b, hins, hnb, heue, -, hnum⟩ := insert_of_expandIfFull pred hexp hz hzlt e
  exact ⟨s', i, b, hins, hnb, heue, hnum⟩

/-- Insertions that keep a set below `elements_until_expand_` all return, and none resizes the
array. -/
theorem run_insert_of_lt (hsymm : ∀ a b, pred a b = pred b a)
    (hhash : ∀ a b, pred a b = true → hashfn a = hashfn b) :
    ∀ (es : List α) {s : HashSet α}, Inv hashfn pred s →
      s.numElements + es.length ≤ s.elementsUntilExpand →
      ∃ s', Op.run hashfn pred s (es.map Op.insert) = some s' ∧ s'.numBuckets = s.numBuckets ∧
        s'.elementsUntilExpand = s.elementsUntilExpand
  | [], s, _, _ => ⟨s, rfl, rfl, rfl⟩
  | e :: es, s, hi, hroom => by
    rw [List.length_cons] at hroom
    obtain ⟨s₁, i, b, hins, hnb, heue, hnum⟩ := hi.insert_of_lt (by omega) e
    obtain ⟨s', hrun, hnb', heue'⟩ :=
      run_insert_of_lt hsymm hhash es (hi.insert hsymm hhash hins) (by omega)
    refine ⟨s', ?_, hnb'.trans hnb, heue'.trans heue⟩
    rw [List.map_cons, Op.run, Op.exec, hins, Option.map_some, Option.bind_some]
    exact hrun

/-- `reserve(num_elements)` on a set a program can make returns, and the set then takes
insertions without resizing its array until it holds `num_elements + 2` elements. -/
theorem reserve_insert_run (hsymm : ∀ a b, pred a b = pred b a)
    (hhash : ∀ a b, pred a b = true → hashfn a = hashfn b) (h : Reachable hashfn pred s)
    (numElements : Nat) (es : List α) (hes : s.numElements + es.length ≤ numElements + 2) :
    ∃ s' s'', s.reserve hashfn numElements = some s' ∧
      Op.run hashfn pred s' (es.map Op.insert) = some s'' ∧ s''.numBuckets = s'.numBuckets := by
  have hi := inv_of_reachable hsymm hhash h
  obtain ⟨s', hres, hnum, heue⟩ := hi.reserve_spec numElements
  obtain ⟨s'', hrun, hnb, -⟩ :=
    run_insert_of_lt hsymm hhash es (hi.reserve hsymm hres) (by omega)
  exact ⟨s', s'', hres, hrun, hnb⟩

theorem reserve_insert_run_create :
    ∃ s' s'', (create LoadFactors.kDefault : HashSet Nat).reserve id 0 = some s' ∧
      Op.run id (· == ·) s' ([0].map Op.insert) = some s'' ∧ s''.numBuckets = s'.numBuckets :=
  @reserve_insert_run Nat id (· == ·) _ (fun _ _ => Bool.beq_comm) (fun _ _ h => by simpa using h)
    (Reachable.create _) 0 [0] (by decide)

end Reserve

end HashSet

end Art
