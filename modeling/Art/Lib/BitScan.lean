import Art.Lib.BitStream

/-!
# Scanning a bitmap word by word

A bitmap of `w`-bit words holds bit `p` at bit `p % w` of word `p / w` (`bitAt`), and
`positions bit lo hi` lists the set bits of `[lo, hi)`, lowest first. A scan that takes the words
of an interval one at a time, masks its two edge words and visits each word's set bits lowest
first (`BitStream.setBits`) lists exactly these positions: `positions_append` cuts the interval
at word boundaries, `positions_words` covers a run of whole words, and a word that holds a range
of positions (`HoldsRange`, kept by masking: `HoldsRange.and`) lists that range
(`HoldsRange.map_setBits`). The masks are `(1 << b) - 1`, its complement and `m | (m - 1)`
(`getLsbD_lowMask`, `getLsbD_or_lowMask`); one bit is tested with `1 << k`.

A scan downwards stops at the highest set bit of a word, `w - 1 - clz`: it is the highest set
position of the range the word holds (`HoldsRange.isHighest`), the last of the positions
(`getLast?_positions`). A scan by runs of zeros and ones shifts the word down as it goes
(`setBits_eq_map_ctz`, `setBits_eq_range_append`).
-/

namespace BitScan

open BitStream

variable {w : Nat}

/-- Bit `p` of a bitmap of `w`-bit words. -/
def bitAt (word : Nat → BitVec w) (p : Nat) : Bool := (word (p / w)).getLsbD (p % w)

/-- The set positions of `[lo, hi)`, lowest first. -/
def positions (bit : Nat → Bool) (lo hi : Nat) : List Nat := (List.range' lo (hi - lo)).filter bit

section Positions

variable {bit : Nat → Bool}

theorem mem_positions {lo hi p : Nat} :
    p ∈ positions bit lo hi ↔ lo ≤ p ∧ p < hi ∧ bit p = true := by
  simp only [positions, List.mem_filter, List.mem_range'_1]
  constructor
  · rintro ⟨⟨h1, h2⟩, h3⟩
    exact ⟨h1, by omega, h3⟩
  · rintro ⟨h1, h2, h3⟩
    exact ⟨⟨h1, by omega⟩, h3⟩

theorem pairwise_positions (lo hi : Nat) : (positions bit lo hi).Pairwise (· < ·) :=
  (List.pairwise_lt_range' 1).filter _

theorem positions_append {lo mid hi : Nat} (h1 : lo ≤ mid) (h2 : mid ≤ hi) :
    positions bit lo mid ++ positions bit mid hi = positions bit lo hi := by
  have h := @List.range'_append_1 lo (mid - lo) (hi - mid)
  rw [show lo + (mid - lo) = mid by omega, show mid - lo + (hi - mid) = hi - lo by omega] at h
  unfold positions
  rw [← List.filter_append, h]

theorem positions_self (p : Nat) : positions bit p p = [] := by
  simp [positions]

/-- The whole words `a, a + 1, ..., a + n - 1`, one after the other. -/
theorem positions_words (a n : Nat) :
    (List.range' a n).flatMap (fun i => positions bit (w * i) (w * i + w)) =
      positions bit (w * a) (w * (a + n)) := by
  induction n generalizing a with
  | zero => simp [positions]
  | succ n ih =>
    rw [List.range'_succ, List.flatMap_cons, ih (a + 1),
      show w * (a + 1) = w * a + w by rw [Nat.mul_add, Nat.mul_one],
      show a + 1 + n = a + (n + 1) by omega]
    refine positions_append (Nat.le_add_right _ _) ?_
    rw [Nat.mul_add, Nat.mul_succ]
    omega

theorem length_positions_succ {lo hi : Nat} (h : lo ≤ hi) :
    (positions bit lo (hi + 1)).length = (positions bit lo hi).length + if bit hi then 1 else 0 := by
  rw [← positions_append h (Nat.le_succ hi), List.length_append]
  cases hb : bit hi <;> simp [positions, hb]

theorem positions_of_lt {lo hi : Nat} (h : hi < lo) : positions bit lo hi = [] := by
  simp [positions, Nat.sub_eq_zero_of_le (Nat.le_of_lt h)]

/-- The set positions of two disjoint predicates count apart. -/
theorem length_positions_or {bit' : Nat → Bool} {lo hi : Nat}
    (hdisj : ∀ q, lo ≤ q → q < hi → bit q = true → bit' q = false) :
    (positions (fun q => bit q || bit' q) lo hi).length =
      (positions bit lo hi).length + (positions bit' lo hi).length := by
  by_cases hle : lo ≤ hi
  · induction hi, hle using Nat.le_induction with
    | base => simp [positions_self]
    | succ hi hle ih =>
      rw [length_positions_succ hle, length_positions_succ hle, length_positions_succ hle,
        ih fun q h1 h2 => hdisj q h1 (by omega)]
      have h := hdisj hi hle (by omega)
      cases hb : bit hi <;> cases hb' : bit' hi <;> simp_all <;> omega
  · simp [positions_of_lt (Nat.lt_of_not_le hle)]

/-- The positions of an interval `[a, b)` within `[lo, hi)`. -/
theorem length_positions_interval (a b lo hi : Nat) :
    (positions (fun q => decide (a ≤ q ∧ q < b)) lo hi).length = min hi b - max lo a := by
  by_cases hle : lo ≤ hi
  · induction hi, hle using Nat.le_induction with
    | base =>
      rw [positions_self]
      simp only [List.length_nil]
      omega
    | succ hi hle ih =>
      rw [length_positions_succ hle, ih]
      by_cases hin : a ≤ hi ∧ hi < b
      · simp only [hin, and_self, decide_true, if_true]
        omega
      · simp only [hin, decide_false, if_false, Bool.false_eq_true]
        omega
  · rw [positions_of_lt (Nat.lt_of_not_le hle), List.length_nil]
    omega

end Positions

/-- `(1 << b) - 1` keeps the bits below `b`. -/
theorem getLsbD_lowMask {b : Nat} (hb : b < w) (i : Nat) :
    ((1#w <<< b) - 1#w).getLsbD i = decide (i < b) := by
  have hpow : 2 ^ b < 2 ^ w := Nat.pow_lt_pow_right (by omega) hb
  have hpos : 1 ≤ 2 ^ b := Nat.one_le_two_pow
  have hone : (1#w).toNat = 1 := by
    rw [BitVec.toNat_ofNat, Nat.mod_eq_of_lt (Nat.one_lt_two_pow (by omega))]
  have hshift : (1#w <<< b).toNat = 2 ^ b := by
    rw [BitVec.toNat_shiftLeft, hone, Nat.one_shiftLeft, Nat.mod_eq_of_lt hpow]
  have hmask : ((1#w <<< b) - 1#w).toNat = 2 ^ b - 1 := by
    rw [BitVec.toNat_sub, hone, hshift,
      show 2 ^ w - 1 + 2 ^ b = (2 ^ b - 1) + 2 ^ w by omega, Nat.add_mod_right,
      Nat.mod_eq_of_lt (by omega)]
  rw [BitVec.getLsbD, hmask, Nat.testBit_two_pow_sub_one]

theorem getLsbD_not_lowMask {b : Nat} (hb : b < w) {i : Nat} (hi : i < w) :
    (~~~((1#w <<< b) - 1#w)).getLsbD i = decide (b ≤ i) := by
  rw [BitVec.getLsbD_not, getLsbD_lowMask hb]
  simp only [hi, decide_true, Bool.true_and]
  by_cases h : i < b
  · simp only [h, decide_true, Bool.not_true, Bool.false_eq, decide_eq_false_iff_not, Nat.not_le]
  · simp only [h, decide_false, Bool.not_false, Bool.true_eq, decide_eq_true_eq]
    omega

theorem getLsbD_lowMask_iff {b : Nat} (hb : b < w) (s : Nat) :
    ((1#w <<< b) - 1#w).getLsbD s = true ↔ 0 ≤ s ∧ s < b := by
  rw [getLsbD_lowMask hb]
  simp

theorem getLsbD_not_lowMask_iff {b : Nat} (hb : b < w) {s : Nat} (hs : s < w) :
    (~~~((1#w <<< b) - 1#w)).getLsbD s = true ↔ b ≤ s ∧ s < w := by
  rw [getLsbD_not_lowMask hb hs]
  simp [hs]

/-! ### A word holding a range of the bitmap -/

theorem bitAt_mul_add (word : Nat → BitVec w) (i : Nat) {s : Nat} (hs : s < w) :
    bitAt word (w * i + s) = (word i).getLsbD s := by
  rw [bitAt, Nat.mul_add_mod, Nat.mod_eq_of_lt hs, Nat.add_comm,
    Nat.add_mul_div_left _ _ (by omega), Nat.div_eq_of_lt hs, Nat.zero_add]

/-- `x` holds the bits of the positions `[a, hi)` of word `i` of the bitmap, and no others. -/
def HoldsRange (word : Nat → BitVec w) (i a hi : Nat) (x : BitVec w) : Prop :=
  ∀ s < w, x.getLsbD s = (decide (a ≤ w * i + s ∧ w * i + s < hi) && bitAt word (w * i + s))

section HoldsRange

variable {word : Nat → BitVec w} {x m : BitVec w} {i a hi : Nat}

theorem holdsRange_word (word : Nat → BitVec w) (i : Nat) :
    HoldsRange word i (w * i) (w * i + w) (word i) := by
  intro s hs
  rw [bitAt_mul_add word i hs]
  simp [hs]

/-- Masking with the bits `[lo, hi')` of the word. -/
theorem HoldsRange.and {lo hi' : Nat} (hx : HoldsRange word i a hi x)
    (hm : ∀ s < w, m.getLsbD s = true ↔ lo ≤ s ∧ s < hi') :
    HoldsRange word i (max a (w * i + lo)) (min hi (w * i + hi')) (x &&& m) := by
  intro s hs
  have hdec : (decide (a ≤ w * i + s ∧ w * i + s < hi) && m.getLsbD s) =
      decide (max a (w * i + lo) ≤ w * i + s ∧ w * i + s < min hi (w * i + hi')) := by
    rw [Bool.eq_iff_iff]
    simp only [Bool.and_eq_true, decide_eq_true_eq, hm s hs]
    omega
  rw [BitVec.getLsbD_and, hx s hs, Bool.and_right_comm, hdec]

/-- The set bits of the word, placed at the word's position, are the set positions of the
range it holds. -/
theorem HoldsRange.map_setBits (hx : HoldsRange word i a hi x) (ha : w * i ≤ a)
    (hhi : hi ≤ w * i + w) : (setBits x).map (w * i + ·) = positions (bitAt word) a hi := by
  apply List.Pairwise.eq_of_mem_iff
    (((pairwise_setBits _).map _ fun _ _ h => by omega)) (pairwise_positions _ _)
  intro p
  rw [List.mem_map, mem_positions]
  constructor
  · rintro ⟨s, hs, rfl⟩
    obtain ⟨hsw, hbit⟩ := mem_setBits.1 hs
    rw [hx s hsw] at hbit
    simp only [Bool.and_eq_true, decide_eq_true_eq] at hbit
    exact ⟨hbit.1.1, hbit.1.2, hbit.2⟩
  · rintro ⟨hlo, hlt, hbit⟩
    have hsw : p - w * i < w := by omega
    refine ⟨p - w * i, ?_, by omega⟩
    rw [mem_setBits, hx _ hsw, show w * i + (p - w * i) = p by omega, hbit]
    simp only [Bool.and_true, decide_eq_true_eq]
    exact ⟨hsw, by omega, by omega⟩

/-- A word that holds nothing: its range has no set position. -/
theorem HoldsRange.bit_eq_false (hx : HoldsRange word i a hi x) (hzero : x = 0#w)
    (ha : w * i ≤ a) (hhi : hi ≤ w * i + w) {q : Nat} (hq : a ≤ q) (hqhi : q < hi) :
    bitAt word q = false := by
  have h := hx (q - w * i) (by omega)
  rw [hzero, BitVec.getLsbD_zero, show w * i + (q - w * i) = q by omega] at h
  simpa [hq, hqhi] using h.symm

/-- A word has as many set bits as the bitmap has set positions in it. -/
theorem length_setBits_word (word : Nat → BitVec w) (i : Nat) :
    (setBits (word i)).length = (positions (bitAt word) (w * i) (w * i + w)).length := by
  rw [← (holdsRange_word word i).map_setBits (le_refl _) (le_refl _), List.length_map]

end HoldsRange

/-! ### Masks -/

/-- `m | (m - 1)` for `m = 1 << b` keeps the bits up to `b`. -/
theorem getLsbD_or_lowMask {b : Nat} (hb : b < w) (i : Nat) :
    ((1#w <<< b) ||| ((1#w <<< b) - 1#w)).getLsbD i = decide (i ≤ b) := by
  rw [BitVec.getLsbD_or, getLsbD_lowMask hb, ← BitVec.twoPow_eq, BitVec.getLsbD_twoPow]
  simp only [hb, decide_true, Bool.true_and]
  by_cases hlt : i < b
  · simp [hlt, Nat.le_of_lt hlt]
  · by_cases heq : i = b
    · simp [heq]
    · have hgt : ¬ i ≤ b := by omega
      simp [hlt, hgt, Ne.symm heq]

/-- Testing one bit with the mask `1 << k`. -/
theorem and_shiftLeft_one_ne_zero {k : Nat} (x : BitVec w) (hk : k < w) :
    (x &&& (1#w <<< k) != 0#w) = x.getLsbD k := by
  rw [← BitVec.twoPow_eq, BitVec.and_twoPow]
  cases hx : x.getLsbD k with
  | false => simp
  | true =>
    have hne : BitVec.twoPow w k ≠ 0#w := by
      intro h
      have h' := congrArg (·.getLsbD k) h
      simp [hk] at h'
    simp [hne]

/-! ### The highest set bit -/

/-- The highest set bit of a non-zero word, `w - 1 - CLZ(word)`. -/
def highestBit (x : BitVec w) : Nat := w - 1 - x.clz.toNat

theorem getLsbD_highestBit {x : BitVec w} (hw : 0 < w) (hx : x ≠ 0#w) :
    x.getLsbD (highestBit x) = true :=
  BitVec.getLsbD_true_clz_of_ne_zero hw hx

theorem highestBit_lt {x : BitVec w} (hw : 0 < w) : highestBit x < w := by
  unfold highestBit
  omega

theorem getLsbD_of_highestBit_lt {x : BitVec w} {j : Nat} (hj : highestBit x < j) :
    x.getLsbD j = false := by
  rw [BitVec.getLsbD]
  apply Nat.testBit_lt_two_pow
  exact Nat.lt_of_lt_of_le BitVec.toNat_lt_two_pow_sub_clz
    (Nat.pow_le_pow_right (by omega) (by unfold highestBit at hj; omega))

/-- `p` is the highest set position of `[lo, hi)`. -/
def IsHighest (bit : Nat → Bool) (lo hi p : Nat) : Prop :=
  lo ≤ p ∧ p < hi ∧ bit p = true ∧ ∀ q, p < q → q < hi → bit q = false

section Highest

variable {bit : Nat → Bool} {lo hi p : Nat}

theorem positions_eq_nil (h : ∀ q, lo ≤ q → q < hi → bit q = false) : positions bit lo hi = [] := by
  rw [positions, List.filter_eq_nil_iff]
  intro q hq
  rw [List.mem_range'_1] at hq
  simp [h q hq.1 (by omega)]

theorem getLast?_positions (h : IsHighest bit lo hi p) : (positions bit lo hi).getLast? = some p := by
  obtain ⟨hlo, hhi, hp, habove⟩ := h
  have hsingle : positions bit p (p + 1) = [p] := by simp [positions, hp]
  rw [← positions_append hlo (Nat.le_of_lt hhi), ← positions_append (Nat.le_succ p) hhi,
    positions_eq_nil (fun q hq hqhi => habove q (by omega) hqhi), List.append_nil, hsingle,
    List.getLast?_concat]

/-- The highest bit of a word that holds `[a, hi)` of word `i` is the highest set position of
`[lo, top)`, when nothing of `[hi, top)` is set. -/
theorem HoldsRange.isHighest {word : Nat → BitVec w} {x : BitVec w} {i a : Nat} {top : Nat}
    (hw : 0 < w) (hx : HoldsRange word i a hi x) (hne : x ≠ 0#w) (hhi : hi ≤ w * i + w)
    (hlo : lo ≤ a) (htop : hi ≤ top) (hclear : ∀ q, hi ≤ q → q < top → bitAt word q = false) :
    IsHighest (bitAt word) lo top (w * i + highestBit x) := by
  have hh : highestBit x < w := highestBit_lt hw
  have hset := hx _ hh
  rw [getLsbD_highestBit hw hne] at hset
  simp only [Bool.true_eq, Bool.and_eq_true, decide_eq_true_eq] at hset
  obtain ⟨⟨ha, hlt⟩, hbit⟩ := hset
  refine ⟨by omega, by omega, hbit, fun q hq hqtop => ?_⟩
  by_cases hqhi : q < hi
  · have h := hx (q - w * i) (by omega)
    rw [getLsbD_of_highestBit_lt (by omega), show w * i + (q - w * i) = q by omega] at h
    simpa [show a ≤ q by omega, hqhi] using h.symm
  · exact hclear q (by omega) hqtop

end Highest

/-! ### Runs of a word

A scan that skips a run of zeros with `CTZ(word)` and takes a run of ones with `CTZ(~word)`,
shifting the word down past each, meets the set bits in order: those below the shift, then those
of the shifted word, moved back up (`setBits_eq_append_ushiftRight`). -/

section Runs

variable {x : BitVec w}

theorem length_setBits_le (x : BitVec w) : (setBits x).length ≤ w := by
  simpa [setBits] using List.length_filter_le x.getLsbD (List.range w)

theorem ctz_le (x : BitVec w) : x.ctz.toNat ≤ w := by
  have h := BitVec.le_def.1 (BitVec.clz_le (x := x.reverse))
  rwa [← BitVec.ctz_eq_reverse_clz, BitVec.natCast_eq_ofNat, BitVec.toNat_ofNat,
    Nat.mod_eq_of_lt Nat.lt_two_pow_self] at h

theorem ne_zero_of_ctz_lt (h : x.ctz.toNat < w) : x ≠ 0#w := by
  apply BitVec.ctz_lt_iff_ne_zero.1
  rw [BitVec.lt_def]
  simpa [Nat.mod_eq_of_lt Nat.lt_two_pow_self] using h

theorem setBits_eq_append_ushiftRight (x : BitVec w) {k : Nat} (hk : k ≤ w) :
    setBits x = (List.range k).filter x.getLsbD ++ (setBits (x >>> k)).map (k + ·) := by
  apply List.Pairwise.eq_of_mem_iff (pairwise_setBits x)
  · refine List.pairwise_append.2 ⟨List.pairwise_lt_range.filter _,
      (pairwise_setBits _).map _ fun _ _ h => by omega, ?_⟩
    intro a ha b hb
    rw [List.mem_filter, List.mem_range] at ha
    obtain ⟨t, -, rfl⟩ := List.mem_map.1 hb
    omega
  · intro i
    rw [mem_setBits, List.mem_append, List.mem_filter, List.mem_range, List.mem_map]
    constructor
    · rintro ⟨hi, hbit⟩
      by_cases hik : i < k
      · exact .inl ⟨hik, hbit⟩
      · refine .inr ⟨i - k, mem_setBits.2 ⟨by omega, ?_⟩, by omega⟩
        rwa [BitVec.getLsbD_ushiftRight, Nat.add_sub_cancel' (by omega)]
    · rintro (⟨hik, hbit⟩ | ⟨t, ht, rfl⟩)
      · exact ⟨by omega, hbit⟩
      · obtain ⟨-, hbit⟩ := mem_setBits.1 ht
        rw [BitVec.getLsbD_ushiftRight] at hbit
        exact ⟨BitVec.lt_of_getLsbD hbit, hbit⟩

/-- Past the run of zeros at the bottom, the set bits are those of the word shifted down by
`CTZ`. -/
theorem setBits_eq_map_ctz (x : BitVec w) :
    setBits x = (setBits (x >>> x.ctz.toNat)).map (x.ctz.toNat + ·) := by
  rw [setBits_eq_append_ushiftRight x (ctz_le x), List.filter_eq_nil_iff.2, List.nil_append]
  intro i hi
  rw [List.mem_range] at hi
  simp [BitVec.getLsbD_false_of_lt_ctz hi]

/-- The run of ones at the bottom: the bits below `CTZ(~x)` are set. -/
theorem setBits_eq_range_append (x : BitVec w) :
    setBits x = List.range (~~~x).ctz.toNat ++
      (setBits (x >>> (~~~x).ctz.toNat)).map ((~~~x).ctz.toNat + ·) := by
  have hle := ctz_le (~~~x)
  rw [setBits_eq_append_ushiftRight x hle, List.filter_eq_self.2]
  intro i hi
  rw [List.mem_range] at hi
  have h := BitVec.getLsbD_false_of_lt_ctz hi
  rw [BitVec.getLsbD_not] at h
  simpa [show i < w by omega] using h

/-- A word whose bit `0` is set starts with a run of ones. -/
theorem ctz_not_pos (h : x.getLsbD 0 = true) : 0 < (~~~x).ctz.toNat := by
  have hw : 0 < w := BitVec.lt_of_getLsbD h
  by_contra h0
  have h0' : (~~~x).ctz.toNat = 0 := by omega
  have hne := ne_zero_of_ctz_lt (h0' ▸ hw)
  have hset := BitVec.getLsbD_true_ctz_of_ne_zero hne
  rw [h0', BitVec.getLsbD_not, h] at hset
  simp at hset

end Runs

end BitScan
