import Mathlib.Data.Nat.Bitwise
import Mathlib.Data.List.GetD
import Mathlib.Data.List.Sort
import Mathlib.Tactic.Ring

/-!
# Bit streams, least significant bit first

A stream of bits is a `List Bool`. A field of `n` bits holding `v` is `bitsOf n v`, its least
significant bit first, and `valueOf` reads a list of bits back as a number. `slice buf pos n` is
the `n` bits of `buf` from position `pos`, with `false` past the end of the buffer: a writer
appends fields, a reader slices them back out at their positions.

Every lemma here is stated bit by bit, through `List.getD` and `Nat.testBit`, and the equations
between lists and numbers then follow by extensionality (`ext_getD`, `Nat.eq_of_testBit_eq`).

The last section iterates over the set bits of a word the way `while (bits != 0)` loops built
on count-trailing-zeros do, and shows that it visits them in increasing order.
-/

namespace BitStream

/-- The `n` low bits of `v`, least significant first. -/
def bitsOf : Nat → Nat → List Bool
  | 0, _ => []
  | n + 1, v => v.testBit 0 :: bitsOf n (v / 2)

/-- The number whose bits, least significant first, are `l`. -/
def valueOf : List Bool → Nat
  | [] => 0
  | b :: bs => b.toNat + 2 * valueOf bs

/-- The `n` bits of `buf` from position `pos`; positions past the end read as `false`. -/
def slice (buf : List Bool) (pos n : Nat) : List Bool :=
  List.ofFn fun i : Fin n => buf.getD (pos + i) false

@[simp] theorem length_bitsOf (n v : Nat) : (bitsOf n v).length = n := by
  induction n generalizing v with
  | zero => rfl
  | succ n ih => simp [bitsOf, ih]

@[simp] theorem length_slice (buf : List Bool) (pos n : Nat) : (slice buf pos n).length = n := by
  simp [slice]

/-- Two lists of bits of one length are equal when they agree at every position. -/
theorem ext_getD {l₁ l₂ : List Bool} (hlen : l₁.length = l₂.length)
    (h : ∀ i, i < l₁.length → l₁.getD i false = l₂.getD i false) : l₁ = l₂ := by
  apply List.ext_getElem hlen
  intro i h₁ h₂
  have hi := h i h₁
  rwa [List.getD_eq_getElem _ _ h₁, List.getD_eq_getElem _ _ h₂] at hi

theorem getD_bitsOf (n v i : Nat) :
    (bitsOf n v).getD i false = (decide (i < n) && v.testBit i) := by
  induction n generalizing v i with
  | zero => simp [bitsOf]
  | succ n ih =>
    cases i with
    | zero => simp [bitsOf]
    | succ i =>
      rw [bitsOf, List.getD_cons_succ, ih, Nat.testBit_div_two]
      simp

@[simp] theorem getD_slice (buf : List Bool) (pos n i : Nat) :
    (slice buf pos n).getD i false = (decide (i < n) && buf.getD (pos + i) false) := by
  by_cases hi : i < n
  · simp [slice, List.getD_eq_getElem?_getD, hi]
  · rw [List.getD_eq_default _ _ (by simp; omega)]
    simp [hi]

theorem testBit_valueOf (l : List Bool) (i : Nat) : (valueOf l).testBit i = l.getD i false := by
  induction l generalizing i with
  | nil => simp [valueOf]
  | cons b bs ih =>
    cases i with
    | zero => cases b <;> simp [valueOf, Nat.add_mul_mod_self_left]
    | succ i =>
      rw [Nat.testBit_succ, List.getD_cons_succ, ← ih]
      congr 1
      cases b <;> simp [valueOf]
      omega

theorem valueOf_lt (l : List Bool) : valueOf l < 2 ^ l.length := by
  induction l with
  | nil => simp [valueOf]
  | cons b bs ih =>
    have hb : b.toNat ≤ 1 := Bool.toNat_le b
    simp only [valueOf, List.length_cons, Nat.pow_succ]
    omega

/-- Reading back a field gives the value it was written from, cut to the field's width. -/
@[simp] theorem valueOf_bitsOf (n v : Nat) : valueOf (bitsOf n v) = v % 2 ^ n := by
  apply Nat.eq_of_testBit_eq
  intro i
  rw [testBit_valueOf, getD_bitsOf, Nat.testBit_mod_two_pow]

theorem valueOf_append (l₁ l₂ : List Bool) :
    valueOf (l₁ ++ l₂) = valueOf l₁ + 2 ^ l₁.length * valueOf l₂ := by
  induction l₁ with
  | nil => simp [valueOf]
  | cons b bs ih =>
    simp only [List.cons_append, valueOf, ih, List.length_cons, Nat.pow_succ]
    ring

/-- The bits written in the middle of a stream are sliced back out at their position. -/
theorem slice_append (pre mid post : List Bool) :
    slice (pre ++ mid ++ post) pre.length mid.length = mid := by
  apply ext_getD (by simp)
  intro i hi
  simp only [length_slice] at hi
  rw [getD_slice, List.append_assoc, List.getD_append_right _ _ _ _ (by omega),
    Nat.add_sub_cancel_left, List.getD_append _ _ _ _ hi]
  simp [hi]

theorem slice_slice (buf : List Bool) (p q n m : Nat) (h : q + m ≤ n) :
    slice (slice buf p n) q m = slice buf (p + q) m := by
  apply ext_getD (by simp)
  intro i hi
  simp only [length_slice] at hi
  simp only [getD_slice, hi, decide_true, Bool.true_and]
  rw [decide_eq_true (by omega : q + i < n), Bool.true_and, Nat.add_assoc]

theorem slice_add (buf : List Bool) (pos n m : Nat) :
    slice buf pos (n + m) = slice buf pos n ++ slice buf (pos + n) m := by
  apply ext_getD (by simp)
  intro i hi
  simp only [length_slice] at hi
  by_cases hin : i < n
  · rw [List.getD_append _ _ _ _ (by simpa using hin)]
    simp only [getD_slice]
    rw [decide_eq_true hi, decide_eq_true hin]
  · rw [List.getD_append_right _ _ _ _ (by simpa using hin)]
    simp only [getD_slice, length_slice]
    rw [decide_eq_true hi, decide_eq_true (by omega : i - n < m), Bool.true_and, Bool.true_and]
    congr 1
    omega

/-- A writer that appends `f x` for each `x` in turn appends the `flatMap`. -/
theorem foldl_append_eq_flatMap {α : Type} (f : α → List Bool) (xs : List α) (out : List Bool) :
    xs.foldl (fun out x => out ++ f x) out = out ++ xs.flatMap f := by
  induction xs generalizing out with
  | nil => simp
  | cons x xs ih => rw [List.foldl_cons, ih, List.flatMap_cons, List.append_assoc]

/-- A window inside the middle part of a stream. -/
theorem slice_append_offset (pre mid post : List Bool) {p m : Nat} (h : p + m ≤ mid.length) :
    slice (pre ++ mid ++ post) (pre.length + p) m = slice mid p m := by
  apply ext_getD (by simp)
  intro i hi
  simp only [length_slice] at hi
  rw [getD_slice, getD_slice, List.append_assoc, List.getD_append_right _ _ _ _ (by omega),
    Nat.add_assoc, Nat.add_sub_cancel_left, List.getD_append _ _ _ _ (by omega)]

/-- A window inside one block of a stream made of blocks laid end to end. -/
theorem slice_flatten (blocks : List (List Bool)) {i p m : Nat} (hi : i < blocks.length)
    (h : p + m ≤ blocks[i].length) :
    slice blocks.flatten (((blocks.take i).map List.length).sum + p) m = slice blocks[i] p m := by
  have hsplit : blocks.flatten = (blocks.take i).flatten ++ blocks[i] ++ (blocks.drop (i + 1)).flatten := by
    have hblocks : blocks = blocks.take i ++ blocks[i] :: blocks.drop (i + 1) := by
      rw [← List.drop_eq_getElem_cons hi, List.take_append_drop]
    conv_lhs => rw [hblocks]
    simp only [List.flatten_append, List.flatten_cons, List.append_assoc]
  rw [hsplit, ← List.length_flatten, slice_append_offset _ _ _ h]

/-- Blocks of one length `len`: block `i` starts at `i * len`. -/
theorem sum_map_length_take {blocks : List (List Bool)} {len : Nat}
    (h : ∀ b ∈ blocks, b.length = len) (i : Nat) (hi : i ≤ blocks.length) :
    ((blocks.take i).map List.length).sum = i * len := by
  induction blocks generalizing i with
  | nil => simp at hi; simp [hi]
  | cons b bs ih =>
    cases i with
    | zero => simp
    | succ i =>
      simp only [List.take_succ_cons, List.map_cons, List.sum_cons]
      rw [h b (List.mem_cons_self ..), ih (fun b hb => h b (List.mem_cons_of_mem _ hb)) i
        (by simp at hi; omega)]
      rw [Nat.succ_mul]
      omega

/-- Fields of one width laid end to end: the `i`-th is read back from the number they make. -/
theorem valueOf_flatMap_bitsOf (k : Nat) (l : List Nat) (i : Nat) :
    (valueOf (l.flatMap (bitsOf k)) >>> (k * i)) % 2 ^ k = l.getD i 0 % 2 ^ k := by
  induction l generalizing i with
  | nil => simp [valueOf]
  | cons a l ih =>
    have hlow : a % 2 ^ k < 2 ^ k := Nat.mod_lt _ (Nat.two_pow_pos k)
    rw [List.flatMap_cons, valueOf_append, length_bitsOf, valueOf_bitsOf]
    cases i with
    | zero => simp [Nat.add_mul_mod_self_left]
    | succ i =>
      have hshift : (a % 2 ^ k + 2 ^ k * valueOf (l.flatMap (bitsOf k))) >>> k =
          valueOf (l.flatMap (bitsOf k)) := by
        rw [Nat.shiftRight_eq_div_pow, Nat.add_mul_div_left _ _ (Nat.two_pow_pos k),
          Nat.div_eq_of_lt hlow, Nat.zero_add]
      rw [Nat.mul_succ, Nat.add_comm (k * i) k, Nat.shiftRight_add, hshift, ih,
        List.getD_cons_succ]

/-- A field read back whole. -/
theorem valueOf_slice_append (pre post : List Bool) (n v : Nat) :
    valueOf (slice (pre ++ bitsOf n v ++ post) pre.length n) = v % 2 ^ n := by
  have h := slice_append pre (bitsOf n v) post
  rw [length_bitsOf] at h
  rw [h, valueOf_bitsOf]

/-! ### Visiting the set bits of a word -/

section SetBits

variable {σ : Type} {w : Nat}

/-- The positions of the set bits of `bits`, lowest first. -/
def setBits (bits : BitVec w) : List Nat :=
  (List.range w).filter bits.getLsbD

theorem mem_setBits {bits : BitVec w} {i : Nat} : i ∈ setBits bits ↔ i < w ∧ bits.getLsbD i := by
  simp [setBits]

theorem pairwise_setBits (bits : BitVec w) : (setBits bits).Pairwise (· < ·) :=
  List.pairwise_lt_range.filter _

/-- Clearing the lowest set bit, `bits ^= 1 << CTZ(bits)`. -/
def clearLowest (bits : BitVec w) : BitVec w := bits ^^^ (1#w <<< bits.ctz.toNat)

theorem ctz_lt {bits : BitVec w} (h : bits ≠ 0#w) : bits.ctz.toNat < w := by
  have hlt := BitVec.lt_def.1 (BitVec.ctz_lt_iff_ne_zero.2 h)
  simpa [Nat.mod_eq_of_lt Nat.lt_two_pow_self] using hlt

theorem getLsbD_clearLowest {bits : BitVec w} (h : bits ≠ 0#w) (i : Nat) :
    (clearLowest bits).getLsbD i = (bits.getLsbD i && decide (i ≠ bits.ctz.toNat)) := by
  have hc := ctz_lt h
  simp only [clearLowest, BitVec.getLsbD_xor, BitVec.getLsbD_shiftLeft, BitVec.getLsbD_one]
  by_cases hi : i = bits.ctz.toNat
  · subst hi
    rw [BitVec.getLsbD_true_ctz_of_ne_zero h]
    simp
    omega
  · by_cases hlt : i < bits.ctz.toNat
    · simp [hi, hlt]
    · have : i - bits.ctz.toNat ≠ 0 := by omega
      simp [hi, hlt, this]

theorem toNat_clearLowest_lt {bits : BitVec w} (h : bits ≠ 0#w) :
    (clearLowest bits).toNat < bits.toNat := by
  apply Nat.lt_of_testBit bits.ctz.toNat
  · rw [← BitVec.getLsbD, getLsbD_clearLowest h]
    simp
  · rw [← BitVec.getLsbD]
    exact BitVec.getLsbD_true_ctz_of_ne_zero h
  · intro j hj
    rw [← BitVec.getLsbD, ← BitVec.getLsbD, getLsbD_clearLowest h]
    simp [Nat.ne_of_gt hj]

/-- Calls `f` at the positions of the set bits of `bits`, the way
`while (bits != 0) { bit = CTZ(bits); ...; bits ^= 1u << bit; }` does. -/
def foldSetBits (f : σ → Nat → σ) (s : σ) (bits : BitVec w) : σ :=
  if bits = 0#w then s
  else foldSetBits f (f s bits.ctz.toNat) (clearLowest bits)
termination_by bits.toNat
decreasing_by exact toNat_clearLowest_lt ‹_›

/-- The lowest set bit comes first, then the set bits of the word with it cleared. -/
theorem setBits_eq_cons {bits : BitVec w} (h : bits ≠ 0#w) :
    setBits bits = bits.ctz.toNat :: setBits (clearLowest bits) := by
  have hc := ctz_lt h
  apply List.Pairwise.eq_of_mem_iff (pairwise_setBits bits)
  · refine List.Pairwise.cons (fun j hj => ?_) (pairwise_setBits _)
    rw [mem_setBits, getLsbD_clearLowest h] at hj
    simp only [Bool.and_eq_true, decide_eq_true_eq] at hj
    by_contra hle
    exact absurd hj.2.1 (by
      rw [BitVec.getLsbD_false_of_lt_ctz (by omega : j < bits.ctz.toNat)]
      simp)
  · intro j
    rw [List.mem_cons, mem_setBits, mem_setBits, getLsbD_clearLowest h]
    by_cases hj : j = bits.ctz.toNat
    · subst hj
      simp [hc, BitVec.getLsbD_true_ctz_of_ne_zero h]
    · simp [hj]

theorem setBits_zero : setBits (0#w) = [] := by
  simp [setBits]

/-- The loop visits the set bits lowest first. -/
theorem foldSetBits_eq (f : σ → Nat → σ) (s : σ) (bits : BitVec w) :
    foldSetBits f s bits = (setBits bits).foldl f s := by
  induction s, bits using foldSetBits.induct f with
  | case1 s =>
    rw [foldSetBits, if_pos rfl, setBits_zero, List.foldl_nil]
  | case2 s bits h ih =>
    rw [foldSetBits, if_neg h, ih, setBits_eq_cons h, List.foldl_cons]

theorem cpopNatRec_eq_countP (x : BitVec w) (n : Nat) :
    x.cpopNatRec n 0 = (List.range n).countP (fun i => x.getLsbD i) := by
  induction n with
  | zero => rfl
  | succ n ih =>
    rw [BitVec.cpopNatRec_succ, BitVec.cpopNatRec_eq, ih, List.range_succ, List.countP_append]
    cases h : x.getLsbD n <;> simp [h]

/-- `POPCOUNT` counts the set bits. -/
theorem toNat_cpop_eq_length_setBits (x : BitVec w) : x.cpop.toNat = (setBits x).length := by
  rw [BitVec.toNat_cpop, cpopNatRec_eq_countP, setBits, List.countP_eq_length_filter]

end SetBits

end BitStream
