import Art.Lib.BitStream

/-!
# Bit sequences in chunks

A window of bits processed chunk by chunk: a list of pieces `(offset, length)` `Covers` `[a, b)`
when they lie end to end from `a` to `b`, each of at most `w` bits. What is read piece by piece
from a buffer then reads the whole window (`flatMap_slice_of_covers`), so that a count, a test or
a comparison made per piece is the one of the whole sequence.

A piece read as a number and taken as a `w`-bit word has the piece's bits at its low positions
(`getLsbD_ofNat_valueOf`) and as many bits set (`toNat_cpop_ofNat_valueOf`); a bitwise operation on
such words is the operation on the pieces (`ofNat_valueOf_zipWith`), and the lowest bit where two
words differ is the pieces' first difference (`firstDiff_eq_ctz`). `firstDiff` of sequences read in
pieces is decided by the first piece that differs (`firstDiff_flatMap`). `overwrite` writes bits
over a buffer in place; positions past the end of the buffer are not written.
-/

namespace BitChunks

open BitStream

/-- The pieces lie end to end from `a` to `b`, each of `1` to `w` bits. -/
def Covers (w : Nat) : List (Nat × Nat) → Nat → Nat → Prop
  | [], a, b => a = b
  | p :: ps, a, b => p.1 = a ∧ 0 < p.2 ∧ p.2 ≤ w ∧ Covers w ps (a + p.2) b

variable {w : Nat}

theorem Covers.le : ∀ {ps : List (Nat × Nat)} {a b : Nat}, Covers w ps a b → a ≤ b
  | [], _, _, h => Nat.le_of_eq h
  | _ :: _, _, _, ⟨_, _, _, h⟩ => Nat.le_of_add_right_le h.le

theorem Covers.append : ∀ {ps qs : List (Nat × Nat)} {a b c : Nat}, Covers w ps a b →
    Covers w qs b c → Covers w (ps ++ qs) a c
  | [], _, _, _, _, h, hqs => by
    rw [Covers] at h
    rwa [h]
  | _ :: _, _, _, _, _, ⟨h1, h2, h3, hps⟩, hqs => ⟨h1, h2, h3, Covers.append hps hqs⟩

/-- Pieces that cover `[a, b)` read the window `[a, b)` of the buffer. -/
theorem flatMap_slice_of_covers (buf : List Bool) (start : Nat) :
    ∀ {ps : List (Nat × Nat)} {a b : Nat}, Covers w ps a b →
      ps.flatMap (fun p => slice buf (start + p.1) p.2) = slice buf (start + a) (b - a)
  | [], a, b, h => by
    rw [show b - a = 0 by simp [Covers] at h; omega]
    rfl
  | (o, n) :: ps, a, b, ⟨ho, hn, _, hps⟩ => by
    have hle := hps.le
    simp only at ho
    rw [List.flatMap_cons, flatMap_slice_of_covers buf start hps, ho,
      show b - a = n + (b - (a + n)) by omega, slice_add, Nat.add_assoc]

/-- Every piece of a cover lies inside the window. -/
theorem Covers.mem : ∀ {ps : List (Nat × Nat)} {a b : Nat}, Covers w ps a b →
    ∀ p ∈ ps, a ≤ p.1 ∧ 0 < p.2 ∧ p.2 ≤ w ∧ p.1 + p.2 ≤ b
  | [], _, _, _, _, hp => absurd hp List.not_mem_nil
  | q :: ps, a, b, ⟨hq, hn, hw, hps⟩, p, hp => by
    rcases List.mem_cons.1 hp with rfl | hp
    · have hle := hps.le
      exact ⟨Nat.le_of_eq hq.symm, hn, hw, by omega⟩
    · obtain ⟨h1, h2, h3, h4⟩ := hps.mem p hp
      exact ⟨by omega, h2, h3, h4⟩

/-- A piece read as a number and taken as a word has the piece's bits at its low positions. -/
theorem getLsbD_ofNat_valueOf {l : List Bool} (hl : l.length ≤ w) (i : Nat) :
    (BitVec.ofNat w (valueOf l)).getLsbD i = l.getD i false := by
  rw [BitVec.getLsbD_ofNat, testBit_valueOf]
  by_cases hi : i < w
  · rw [decide_eq_true hi, Bool.true_and]
  · rw [decide_eq_false hi, Bool.false_and, List.getD_eq_default _ _ (by omega)]

/-- Two pieces of one length fitting a word are equal exactly when their words are. -/
theorem ofNat_valueOf_inj {l₁ l₂ : List Bool} (h₁ : l₁.length ≤ w) (hlen : l₁.length = l₂.length) :
    BitVec.ofNat w (valueOf l₁) = BitVec.ofNat w (valueOf l₂) ↔ l₁ = l₂ := by
  constructor
  · intro h
    apply ext_getD hlen
    intro i _
    rw [← getLsbD_ofNat_valueOf h₁, ← getLsbD_ofNat_valueOf (hlen ▸ h₁), h]
  · intro h
    rw [h]

/-- Bits of `l` at positions below `n`, over the positions below `w`. -/
theorem countP_range_getD (l : List Bool) (n : Nat) :
    (List.range n).countP (fun i => l.getD i false) = (l.take n).count true := by
  induction n with
  | zero => simp
  | succ n ih =>
    rw [List.range_succ, List.countP_append, ih, List.take_add_one, List.count_append]
    congr 1
    by_cases hn : n < l.length
    · simp [List.getElem?_eq_getElem hn, List.count_cons]
    · simp [List.getElem?_eq_none (Nat.le_of_not_lt hn)]

/-- The bits set in the word of a piece are the piece's bits set. -/
theorem toNat_cpop_ofNat_valueOf {l : List Bool} (hl : l.length ≤ w) :
    (BitVec.ofNat w (valueOf l)).cpop.toNat = l.count true := by
  rw [BitVec.toNat_cpop, cpopNatRec_eq_countP]
  have h : ∀ i, (BitVec.ofNat w (valueOf l)).getLsbD i = l.getD i false :=
    getLsbD_ofNat_valueOf hl
  simp only [h]
  rw [countP_range_getD, List.take_of_length_le hl]

/-- A piece read as a word is zero exactly when none of its bits is set. -/
theorem ofNat_valueOf_eq_zero_iff {l : List Bool} (hl : l.length ≤ w) :
    BitVec.ofNat w (valueOf l) = 0#w ↔ true ∉ l := by
  constructor
  · intro h hmem
    obtain ⟨i, hi, hget⟩ := List.getElem_of_mem hmem
    have hbit := getLsbD_ofNat_valueOf hl i
    rw [h, BitVec.getLsbD_zero, List.getD_eq_getElem _ _ hi, hget] at hbit
    cases hbit
  · intro h
    apply BitVec.eq_of_getLsbD_eq
    intro i _
    rw [getLsbD_ofNat_valueOf hl, BitVec.getLsbD_zero]
    by_cases hi : i < l.length
    · rw [List.getD_eq_getElem _ _ hi]
      exact Bool.eq_false_iff.2 fun ht => h (ht ▸ List.getElem_mem hi)
    · exact List.getD_eq_default _ _ (by omega)

theorem getD_zipWith {f : Bool → Bool → Bool} (hf : f false false = false) {l₁ l₂ : List Bool}
    (hlen : l₁.length = l₂.length) (i : Nat) :
    (List.zipWith f l₁ l₂).getD i false = f (l₁.getD i false) (l₂.getD i false) := by
  by_cases hi : i < l₁.length
  · rw [List.getD_eq_getElem _ _ (by simp; omega), List.getElem_zipWith,
      List.getD_eq_getElem _ _ hi, List.getD_eq_getElem _ _ (by omega)]
  · rw [List.getD_eq_default _ _ (by simp; omega), List.getD_eq_default _ _ (by omega),
      List.getD_eq_default _ _ (by omega), hf]

/-- A bitwise operation on the words of two pieces is the word of the operation on the pieces. -/
theorem ofNat_valueOf_zipWith (f : Bool → Bool → Bool) (op : BitVec w → BitVec w → BitVec w)
    (hop : ∀ x y i, (op x y).getLsbD i = f (x.getLsbD i) (y.getLsbD i)) (hf : f false false = false)
    {l₁ l₂ : List Bool} (hl : l₁.length ≤ w) (hlen : l₁.length = l₂.length) :
    op (BitVec.ofNat w (valueOf l₁)) (BitVec.ofNat w (valueOf l₂)) =
      BitVec.ofNat w (valueOf (List.zipWith f l₁ l₂)) := by
  apply BitVec.eq_of_getLsbD_eq
  intro i _
  rw [hop, getLsbD_ofNat_valueOf hl, getLsbD_ofNat_valueOf (hlen ▸ hl),
    getLsbD_ofNat_valueOf (by simp; omega), getD_zipWith hf hlen]

/-! ### First difference -/

/-- Two bit sequences compared at their first difference: `1` where the second has the bit set
there, `-1` where the first has; `0` where they do not differ. -/
def firstDiff : List Bool → List Bool → Int
  | a :: as, b :: bs => if a = b then firstDiff as bs else if b then 1 else -1
  | _, _ => 0

theorem firstDiff_append {l₁ l₂ : List Bool} (m₁ m₂ : List Bool) (h : l₁.length = l₂.length) :
    firstDiff (l₁ ++ m₁) (l₂ ++ m₂) = if l₁ = l₂ then firstDiff m₁ m₂ else firstDiff l₁ l₂ := by
  induction l₁ generalizing l₂ with
  | nil =>
    rw [List.length_nil, eq_comm, List.length_eq_zero_iff] at h
    subst h
    rfl
  | cons a as ih =>
    cases l₂ with
    | nil => cases h
    | cons b bs =>
      rw [List.cons_append, List.cons_append, firstDiff, firstDiff,
        ih (Nat.succ.inj h)]
      by_cases hab : a = b <;> simp [hab]

theorem firstDiff_eq_zero_iff {l₁ l₂ : List Bool} (h : l₁.length = l₂.length) :
    firstDiff l₁ l₂ = 0 ↔ l₁ = l₂ := by
  induction l₁ generalizing l₂ with
  | nil =>
    rw [List.length_nil, eq_comm, List.length_eq_zero_iff] at h
    subst h
    exact iff_of_true rfl rfl
  | cons a as ih =>
    cases l₂ with
    | nil => cases h
    | cons b bs =>
      rw [firstDiff, List.cons.injEq]
      by_cases hab : a = b
      · rw [if_pos hab, ih (Nat.succ.inj h)]
        exact (and_iff_right hab).symm
      · rw [if_neg hab]
        exact iff_of_false (by split <;> decide) fun h => hab h.1

theorem firstDiff_swap : ∀ l₁ l₂ : List Bool, firstDiff l₂ l₁ = -firstDiff l₁ l₂
  | a :: as, b :: bs => by
    rw [firstDiff, firstDiff, firstDiff_swap as bs]
    by_cases hab : a = b
    · rw [if_pos hab.symm, if_pos hab]
    · -- the bits differ, so the second has it set exactly when the first has not
      rw [if_neg (Ne.symm hab), if_neg hab]
      cases a <;> cases b <;> simp_all
  | [], _ => by simp [firstDiff]
  | _ :: _, [] => by simp [firstDiff]

/-- The first difference is at `k` when the sequences agree below `k` and differ at `k`. -/
theorem firstDiff_eq_of_lt {l₁ l₂ : List Bool} {k : Nat} (hk₁ : k < l₁.length)
    (hk₂ : k < l₂.length) (heq : ∀ j < k, l₁.getD j false = l₂.getD j false)
    (hne : l₁.getD k false ≠ l₂.getD k false) :
    firstDiff l₁ l₂ = if l₂.getD k false then 1 else -1 := by
  induction k generalizing l₁ l₂ with
  | zero =>
    obtain ⟨a, as, rfl⟩ := List.exists_cons_of_length_pos hk₁
    obtain ⟨b, bs, rfl⟩ := List.exists_cons_of_length_pos hk₂
    rw [firstDiff, if_neg (show a ≠ b from hne)]
    rfl
  | succ k ih =>
    obtain ⟨a, as, rfl⟩ := List.exists_cons_of_length_pos (Nat.zero_lt_of_lt hk₁)
    obtain ⟨b, bs, rfl⟩ := List.exists_cons_of_length_pos (Nat.zero_lt_of_lt hk₂)
    have hab : a = b := heq 0 (Nat.succ_pos k)
    rw [firstDiff, if_pos hab]
    exact ih (Nat.lt_of_succ_lt_succ hk₁) (Nat.lt_of_succ_lt_succ hk₂)
      (fun j hj => heq (j + 1) (by omega)) hne

/-- `Compare` on bit sequences: the shorter sequence is the smaller; of equal lengths, the first
difference decides. -/
def compareBits (l₁ l₂ : List Bool) : Int :=
  if l₁.length ≠ l₂.length then (if l₁.length < l₂.length then -1 else 1) else firstDiff l₁ l₂

theorem compareBits_eq_zero_iff (l₁ l₂ : List Bool) : compareBits l₁ l₂ = 0 ↔ l₁ = l₂ := by
  unfold compareBits
  by_cases h : l₁.length = l₂.length
  · rw [if_neg (not_not.2 h), firstDiff_eq_zero_iff h]
  · rw [if_pos h]
    exact iff_of_false (by split <;> decide) fun he => h (he ▸ rfl)

theorem compareBits_swap (l₁ l₂ : List Bool) : compareBits l₂ l₁ = -compareBits l₁ l₂ := by
  unfold compareBits
  by_cases h : l₁.length = l₂.length
  · rw [if_neg (not_not.2 h.symm), if_neg (not_not.2 h), firstDiff_swap]
  · rw [if_pos (Ne.symm h), if_pos h]
    by_cases hlt : l₁.length < l₂.length
    · rw [if_neg (by omega), if_pos hlt, Int.neg_neg]
    · rw [if_pos (by omega), if_neg hlt]

/-- Sequences read in pieces of equal lengths first differ in the first piece where they
differ. -/
theorem firstDiff_flatMap {α : Type} (f g : α → List Bool) :
    ∀ cs : List α, (∀ c ∈ cs, (f c).length = (g c).length) →
      firstDiff (cs.flatMap f) (cs.flatMap g) =
        ((cs.find? fun c => f c != g c).map fun c => firstDiff (f c) (g c)).getD 0
  | [], _ => rfl
  | c :: cs, h => by
    rw [List.flatMap_cons, List.flatMap_cons, firstDiff_append _ _ (h c List.mem_cons_self),
      List.find?_cons]
    by_cases hc : f c = g c
    · rw [if_pos hc, firstDiff_flatMap f g cs fun c' hc' => h c' (List.mem_cons_of_mem _ hc')]
      simp [hc]
    · have hne : (f c != g c) = true := by simpa using hc
      rw [if_neg hc, hne]
      rfl

theorem and_one_ne_zero_iff {x : BitVec w} (hw : 0 < w) :
    x &&& 1#w ≠ 0#w ↔ x.getLsbD 0 = true := by
  constructor
  · intro h
    by_contra h0
    apply h
    apply BitVec.eq_of_getLsbD_eq
    intro i _
    rw [BitVec.getLsbD_and, BitVec.getLsbD_one, BitVec.getLsbD_zero]
    rcases i with _ | i
    · rw [Bool.eq_false_iff.2 h0, Bool.false_and]
    · simp
  · intro h h0
    have hbit := congrArg (fun v => BitVec.getLsbD v 0) h0
    rw [BitVec.getLsbD_and, BitVec.getLsbD_one, BitVec.getLsbD_zero, h, decide_eq_true hw] at hbit
    simp at hbit

/-- The lowest bit where the words of two pieces differ is the pieces' first difference: the test
of that bit in the second word gives the result of `firstDiff`. -/
theorem firstDiff_eq_ctz {l₁ l₂ : List Bool} (hl : l₁.length ≤ w) (hlen : l₁.length = l₂.length)
    (hne : l₁ ≠ l₂) :
    (if (BitVec.ofNat w (valueOf l₂) >>>
        (BitVec.ofNat w (valueOf l₁) ^^^ BitVec.ofNat w (valueOf l₂)).ctz.toNat) &&& 1#w ≠ 0#w
      then (1 : Int) else -1) = firstDiff l₁ l₂ := by
  have hbit : ∀ i, (BitVec.ofNat w (valueOf l₁) ^^^ BitVec.ofNat w (valueOf l₂)).getLsbD i =
      (l₁.getD i false ^^ l₂.getD i false) := fun i => by
    rw [BitVec.getLsbD_xor, getLsbD_ofNat_valueOf hl, getLsbD_ofNat_valueOf (hlen ▸ hl)]
  have hd : BitVec.ofNat w (valueOf l₁) ^^^ BitVec.ofNat w (valueOf l₂) ≠ 0#w := fun h0 =>
    hne ((ofNat_valueOf_inj hl hlen).1 (BitVec.xor_eq_zero_iff.1 h0))
  -- the lowest set bit of the difference is the first position where the pieces differ
  have hk := ctz_lt hd
  have hdiff := BitVec.getLsbD_true_ctz_of_ne_zero hd
  rw [hbit] at hdiff
  have hbelow : ∀ j < (BitVec.ofNat w (valueOf l₁) ^^^ BitVec.ofNat w (valueOf l₂)).ctz.toNat,
      l₁.getD j false = l₂.getD j false := fun j hj => by
    have h0 := BitVec.getLsbD_false_of_lt_ctz hj
    rw [hbit] at h0
    simpa using h0
  have hlt : (BitVec.ofNat w (valueOf l₁) ^^^ BitVec.ofNat w (valueOf l₂)).ctz.toNat <
      l₁.length := by
    by_contra hge
    rw [List.getD_eq_default _ _ (by omega), List.getD_eq_default _ _ (by omega)] at hdiff
    cases hdiff
  rw [firstDiff_eq_of_lt hlt (hlen ▸ hlt) hbelow (by simpa using hdiff)]
  refine if_congr ?_ rfl rfl
  rw [and_one_ne_zero_iff (by omega), BitVec.getLsbD_ushiftRight, Nat.add_zero,
    getLsbD_ofNat_valueOf (hlen ▸ hl)]

/-- `bits` written over `buf` from `pos`, in place: positions past the end of `buf` are not
written. -/
def overwrite (buf : List Bool) (pos : Nat) (bits : List Bool) : List Bool :=
  buf.mapIdx fun j b => if pos ≤ j ∧ j < pos + bits.length then bits.getD (j - pos) b else b

@[simp] theorem length_overwrite (buf : List Bool) (pos : Nat) (bits : List Bool) :
    (overwrite buf pos bits).length = buf.length := List.length_mapIdx

theorem getD_overwrite (buf : List Bool) (pos : Nat) (bits : List Bool) (j : Nat) :
    (overwrite buf pos bits).getD j false =
      if pos ≤ j ∧ j < pos + bits.length ∧ j < buf.length then bits.getD (j - pos) false
      else buf.getD j false := by
  by_cases hj : j < buf.length
  · rw [List.getD_eq_getElem _ _ (by simpa using hj)]
    simp only [overwrite, List.getElem_mapIdx]
    rw [List.getD_eq_getElem _ _ hj]
    by_cases hin : pos ≤ j ∧ j < pos + bits.length
    · rw [if_pos hin, if_pos ⟨hin.1, hin.2, hj⟩, List.getD_eq_getElem _ _ (by omega),
        List.getD_eq_getElem _ _ (by omega)]
    · rw [if_neg hin, if_neg (by omega)]
  · rw [List.getD_eq_default _ _ (by simpa using hj), if_neg (by omega),
      List.getD_eq_default _ _ (by omega)]

@[simp] theorem overwrite_nil (buf : List Bool) (pos : Nat) : overwrite buf pos [] = buf := by
  apply ext_getD (by simp)
  intro j _
  rw [getD_overwrite, if_neg (by simp only [List.length_nil]; omega)]

/-- Writing two runs one after the other is writing them together. -/
theorem overwrite_append (buf : List Bool) (pos : Nat) (l₁ l₂ : List Bool) {q : Nat}
    (hq : q = pos + l₁.length) :
    overwrite (overwrite buf pos l₁) q l₂ = overwrite buf pos (l₁ ++ l₂) := by
  subst hq
  apply ext_getD (by simp)
  intro j _
  simp only [getD_overwrite, length_overwrite, List.length_append]
  by_cases h₁ : pos ≤ j ∧ j < pos + l₁.length ∧ j < buf.length
  · rw [if_neg (by omega), if_pos h₁, if_pos (by omega), List.getD_append _ _ _ _ (by omega)]
  · by_cases h₂ : pos + l₁.length ≤ j ∧ j < pos + l₁.length + l₂.length ∧ j < buf.length
    · rw [if_pos h₂, if_pos (by omega), List.getD_append_right _ _ _ _ (by omega),
        Nat.sub_sub]
    · rw [if_neg h₂, if_neg h₁, if_neg (by omega)]

/-- Reading past what was written reads the buffer. -/
theorem slice_overwrite_of_le {buf bits : List Bool} {pos q : Nat} (h : pos + bits.length ≤ q)
    (n : Nat) : slice (overwrite buf pos bits) q n = slice buf q n := by
  apply ext_getD (by simp)
  intro i _
  rw [getD_slice, getD_slice, getD_overwrite, if_neg (by omega)]

/-- The bits of a piece written as a number are the piece. -/
theorem bitsOf_valueOf (l : List Bool) : bitsOf l.length (valueOf l) = l := by
  apply ext_getD (by simp)
  intro i hi
  rw [getD_bitsOf, testBit_valueOf, decide_eq_true (by simpa using hi), Bool.true_and]

end BitChunks
