import Art.Base.BitTable

/-!
# De-duplication in the bit table builders

`BitTableBuilderBase::Add` and `Dedup`, and `BitmapTableBuilder::Dedup`, as calls on a builder
from a new one. No call writes a row or an entry of the de-duplication map that is already there:
rows and entries are only appended (`Extends`).

`Dedup` returns without appending exactly when some recorded entry of the hash of `values` holds
them at its index (`dedup_eq_self_iff`): other entries of the hash, collisions of `FNVHash`, are
passed over. Every recorded index lies within the table (`WellIndexed`), so the index `Dedup`
returns holds `values` (`dedup_spec`), and once `Dedup` has been given some rows, every later
`Dedup` of the same rows finds them and appends nothing (`hasRun_run`).

The index is a `uint32_t` taken from `size()`: from `2 ^ 32` rows on, `Dedup` returns and records
the size modulo `2 ^ 32`, where `values` are not (`dedup_of_wrap`). The results hold for tables of
fewer rows than that.
-/

namespace Art

open BitStream

/-- A run of rows starting at row `index` of a list of rows, as `Dedup` compares it. -/
theorem take_drop_append {α : Type} (l t : List α) {index n : Nat} (h : n ≤ l.length - index) :
    ((l ++ t).drop index).take n = (l.drop index).take n := by
  by_cases hi : index ≤ l.length
  · rw [List.drop_append_of_le_length hi, List.take_append_of_le_length (by simpa using h)]
  · have hn : n = 0 := by omega
    rw [hn, List.take_zero, List.take_zero]

namespace BitTableBuilder

variable {k : Nat}

/-- The calls that write a builder. -/
inductive Call (k : Nat)
  | add (value : Entry k)
  | dedup (values : List (Entry k))
  deriving DecidableEq

/-- One call. -/
def Call.exec (b : BitTableBuilder k) : Call k → BitTableBuilder k
  | .add value => b.add value
  | .dedup values => (b.dedup values).2

/-- The calls one after the other. -/
def run (b : BitTableBuilder k) (calls : List (Call k)) : BitTableBuilder k :=
  calls.foldl Call.exec b

/-- The builder after `calls` on a new one. -/
def replay (calls : List (Call k)) : BitTableBuilder k := run empty calls

/-- The test `Dedup` makes of a recorded entry: it has the hash of `values`, and `values` are
the rows from its index on. -/
def Matches (b : BitTableBuilder k) (values : List (Entry k)) (e : BitVec 32 × BitVec 32) :
    Prop :=
  e.1 = fnvHash (values.flatMap Entry.bytes) ∧ values.length ≤ b.size - e.2.toNat ∧
    (b.rows.drop e.2.toNat).take values.length = values

/-- Some recorded entry holds `values`. -/
def HasRun (b : BitTableBuilder k) (values : List (Entry k)) : Prop :=
  ∃ e ∈ b.dedupMap, b.Matches values e

/-- Every recorded index lies within the table. -/
def WellIndexed (b : BitTableBuilder k) : Prop := ∀ e ∈ b.dedupMap, e.2.toNat ≤ b.size

/-- The rows and the recorded entries of `b` begin those of `b'`. -/
structure Extends (b b' : BitTableBuilder k) : Prop where
  rows : b.rows <+: b'.rows
  dedupMap : b.dedupMap <+: b'.dedupMap

section Dedup

variable {b b' : BitTableBuilder k} {values : List (Entry k)}

/-- What `Dedup` can do: return a recorded index whose entry holds `values`, or append `values`
and record their hash at the old size, where no recorded entry holds them. -/
theorem dedup_cases (b : BitTableBuilder k) (values : List (Entry k)) :
    (∃ e ∈ b.dedupMap, b.Matches values e ∧ b.dedup values = (e.2, b)) ∨
      (¬b.HasRun values ∧ b.dedup values = (BitVec.ofNat 32 b.size,
        ⟨b.rows ++ values,
          b.dedupMap ++ [(fnvHash (values.flatMap Entry.bytes), BitVec.ofNat 32 b.size)]⟩)) := by
  unfold dedup
  dsimp only
  split
  · next h index hfind =>
    have htest := List.find?_some hfind
    simp only [Bool.and_eq_true, beq_iff_eq, decide_eq_true_eq] at htest
    exact .inl ⟨(h, index), List.mem_of_find?_eq_some hfind, htest, rfl⟩
  · next hfind =>
    refine .inr ⟨?_, rfl⟩
    rintro ⟨⟨h, index⟩, hmem, hm⟩
    apply List.find?_eq_none.1 hfind (h, index) hmem
    simp only [Bool.and_eq_true, beq_iff_eq, decide_eq_true_eq]
    exact hm

/-- `Dedup` leaves the builder as it is exactly when a recorded entry holds `values`. -/
theorem dedup_eq_self_iff : (b.dedup values).2 = b ↔ b.HasRun values := by
  rcases dedup_cases b values with ⟨e, he, hm, hd⟩ | ⟨hno, hd⟩
  · rw [hd]
    exact ⟨fun _ => ⟨e, he, hm⟩, fun _ => rfl⟩
  · rw [hd]
    refine ⟨fun h => ?_, fun h => absurd h hno⟩
    -- appending records one more entry
    have hlen := congrArg (fun b : BitTableBuilder k => b.dedupMap.length) h
    simp at hlen

theorem Extends.refl (b : BitTableBuilder k) : b.Extends b := ⟨List.prefix_refl _, List.prefix_refl _⟩

theorem Extends.trans {b'' : BitTableBuilder k} (h : b.Extends b') (h' : b'.Extends b'') :
    b.Extends b'' :=
  ⟨h.rows.trans h'.rows, h.dedupMap.trans h'.dedupMap⟩

theorem Extends.size_le (h : b.Extends b') : b.size ≤ b'.size := h.rows.length_le

theorem extends_add (b : BitTableBuilder k) (value : Entry k) : b.Extends (b.add value) :=
  ⟨List.prefix_append _ _, List.prefix_refl _⟩

theorem extends_dedup (b : BitTableBuilder k) (values : List (Entry k)) :
    b.Extends (b.dedup values).2 := by
  rcases dedup_cases b values with ⟨e, -, -, hd⟩ | ⟨-, hd⟩
  · rw [hd]
    exact Extends.refl b
  · rw [hd]
    exact ⟨List.prefix_append _ _, List.prefix_append _ _⟩

/-- A recorded run stays recorded while rows and entries are appended. -/
theorem HasRun.mono (h : b.HasRun values) (hext : b.Extends b') : b'.HasRun values := by
  obtain ⟨e, he, hhash, hlen, hrows⟩ := h
  obtain ⟨t, ht⟩ := hext.rows
  have hsize : b'.size = b.size + t.length := by
    rw [size, size, ← ht, List.length_append]
  refine ⟨e, hext.dedupMap.subset he, hhash, by omega, ?_⟩
  rw [← ht, take_drop_append _ _ hlen, hrows]

theorem wellIndexed_add (hw : b.WellIndexed) (value : Entry k) : (b.add value).WellIndexed :=
  fun e he => (hw e he).trans (extends_add b value).size_le

theorem wellIndexed_dedup (hw : b.WellIndexed) (values : List (Entry k)) :
    (b.dedup values).2.WellIndexed := by
  rcases dedup_cases b values with ⟨e, -, -, hd⟩ | ⟨-, hd⟩
  · rw [hd]
    exact hw
  · rw [hd]
    intro e he
    have hsize : b.size ≤ (b.rows ++ values).length := by
      rw [List.length_append]
      exact Nat.le_add_right _ _
    rcases List.mem_append.1 he with he | he
    · exact (hw e he).trans hsize
    · -- the new entry records the old size, modulo `2 ^ 32`
      rw [List.mem_singleton] at he
      rw [he, BitVec.toNat_ofNat]
      exact (Nat.mod_le _ _).trans hsize

theorem Matches.add_le {e : BitVec 32 × BitVec 32} (hm : b.Matches values e)
    (hle : e.2.toNat ≤ b.size) : e.2.toNat + values.length ≤ b.size := by
  have hlen := hm.2.1
  omega

/-- The index `Dedup` returns is recorded, and its entry holds `values`. -/
theorem dedup_matches (hs : b.size < 2 ^ 32) (values : List (Entry k)) :
    ∃ e ∈ (b.dedup values).2.dedupMap,
      e.2 = (b.dedup values).1 ∧ (b.dedup values).2.Matches values e := by
  rcases dedup_cases b values with ⟨e, he, hm, hd⟩ | ⟨-, hd⟩
  · rw [hd]
    exact ⟨e, he, rfl, hm⟩
  · rw [hd]
    refine ⟨_, List.mem_append_right _ (List.mem_singleton_self _), rfl, rfl, ?_, ?_⟩
    -- the appended rows start at the old size, which the index keeps below `2 ^ 32`
    · have hidx : (BitVec.ofNat 32 b.size).toNat = b.size := by
        rw [BitVec.toNat_ofNat, Nat.mod_eq_of_lt hs]
      have hlen : (b.rows ++ values).length = b.size + values.length := List.length_append
      show values.length ≤ (b.rows ++ values).length - (BitVec.ofNat 32 b.size).toNat
      omega
    · show ((b.rows ++ values).drop (BitVec.ofNat 32 b.size).toNat).take values.length = values
      rw [BitVec.toNat_ofNat, Nat.mod_eq_of_lt hs, @List.drop_left' _ b.rows values b.size rfl,
        List.take_length]

/-- The index `Dedup` returns holds `values`, within the table. -/
theorem dedup_spec (hw : b.WellIndexed) (hs : b.size < 2 ^ 32) :
    (b.dedup values).1.toNat + values.length ≤ (b.dedup values).2.size ∧
      ((b.dedup values).2.rows.drop (b.dedup values).1.toNat).take values.length = values := by
  obtain ⟨e, he, hidx, hm⟩ := dedup_matches hs values
  rw [← hidx]
  exact ⟨hm.add_le (wellIndexed_dedup hw values e he), hm.2.2⟩

/-- After `Dedup(values)` a recorded entry holds `values`. -/
theorem hasRun_dedup (hs : b.size < 2 ^ 32) (values : List (Entry k)) :
    (b.dedup values).2.HasRun values := by
  obtain ⟨e, he, -, hm⟩ := dedup_matches hs values
  exact ⟨e, he, hm⟩

end Dedup

/-! ### Runs of calls -/

section Run

variable {b : BitTableBuilder k}

theorem Call.extends_exec (b : BitTableBuilder k) : ∀ c : Call k, b.Extends (c.exec b)
  | .add value => extends_add b value
  | .dedup values => extends_dedup b values

theorem Call.wellIndexed_exec (hw : b.WellIndexed) : ∀ c : Call k, (c.exec b).WellIndexed
  | .add value => wellIndexed_add hw value
  | .dedup values => wellIndexed_dedup hw values

theorem run_cons (b : BitTableBuilder k) (c : Call k) (calls : List (Call k)) :
    run b (c :: calls) = run (c.exec b) calls := rfl

theorem extends_run (b : BitTableBuilder k) (calls : List (Call k)) : b.Extends (run b calls) := by
  induction calls generalizing b with
  | nil => exact Extends.refl b
  | cons c calls ih => exact (Call.extends_exec b c).trans (ih _)

theorem wellIndexed_run (hw : b.WellIndexed) (calls : List (Call k)) :
    (run b calls).WellIndexed := by
  induction calls generalizing b with
  | nil => exact hw
  | cons c calls ih => exact ih (Call.wellIndexed_exec hw c)

/-- A `Dedup` in a run records its rows for the rest of the run, while the table has fewer than
`2 ^ 32` rows. -/
theorem hasRun_run {values : List (Entry k)} (calls : List (Call k))
    (hmem : Call.dedup values ∈ calls) (hs : (run b calls).size < 2 ^ 32) :
    (run b calls).HasRun values := by
  induction calls generalizing b with
  | nil => exact absurd hmem List.not_mem_nil
  | cons c calls ih =>
    rw [run_cons] at hs ⊢
    rcases List.mem_cons.1 hmem with rfl | hmem
    · -- this call records `values`; the rest of the run only appends
      have hle : b.size ≤ (run ((Call.dedup values).exec b) calls).size :=
        ((Call.extends_exec b _).trans (extends_run _ calls)).size_le
      exact (hasRun_dedup (by omega) values).mono (extends_run _ calls)
    · exact ih hmem hs

theorem wellIndexed_empty : (empty : BitTableBuilder k).WellIndexed :=
  fun _ he => absurd he List.not_mem_nil

end Run

/-- `Dedup` after any calls on a new builder, while the table has fewer than `2 ^ 32` rows: the
index holds `values` within the table, the rows are kept, and a `Dedup` of rows given to an earlier
`Dedup` appends nothing. -/
theorem replay_dedup (calls : List (Call k)) (values : List (Entry k))
    (hs : (replay calls).size < 2 ^ 32) :
    ((replay calls).dedup values).1.toNat + values.length ≤ ((replay calls).dedup values).2.size ∧
      (((replay calls).dedup values).2.rows.drop ((replay calls).dedup values).1.toNat).take
          values.length = values ∧
      (replay calls).rows <+: ((replay calls).dedup values).2.rows ∧
      (Call.dedup values ∈ calls → ((replay calls).dedup values).2 = replay calls) := by
  have hw : (replay calls).WellIndexed := wellIndexed_run wellIndexed_empty calls
  obtain ⟨hidx, hrows⟩ := dedup_spec hw hs
  exact ⟨hidx, hrows, (extends_dedup _ values).rows,
    fun hmem => dedup_eq_self_iff.2 (hasRun_run calls hmem hs)⟩

/-- `Add` calls on a builder with no recorded entries append their rows. -/
theorem run_replicate_add (rows : List (Entry k)) (value : Entry k) (n : Nat) :
    run ⟨rows, []⟩ (List.replicate n (Call.add value)) = ⟨rows ++ List.replicate n value, []⟩ := by
  induction n generalizing rows with
  | zero => rw [List.replicate_zero, List.replicate_zero, List.append_nil]; rfl
  | succ n ih =>
    rw [List.replicate_succ, run_cons, List.replicate_succ]
    exact (ih (rows ++ [value])).trans (by rw [List.append_assoc, List.singleton_append])

end BitTableBuilder

namespace BitmapTableBuilder

/-- The bits `Dedup(bitmap, num_bits)` takes: the first `BitsToBytesRoundUp(num_bits)` bytes of the
bitmap. -/
def region (bitmap : List Bool) (numBits : Nat) : List Bool :=
  slice bitmap 0 (bitsToBytesRoundUp numBits * kBitsPerByte)

/-- The calls `Dedup(bitmap, num_bits)` one after the other. -/
def run (b : BitmapTableBuilder) (calls : List (List Bool × Nat)) : BitmapTableBuilder :=
  calls.foldl (fun b c => (b.dedup c.1 c.2).2) b

/-- The builder after `calls` on a new one. -/
def replay (calls : List (List Bool × Nat)) : BitmapTableBuilder := run empty calls

/-- The test `Dedup` makes of a recorded entry: the hash of the region, and the region as the row
at its index. -/
def Matches (b : BitmapTableBuilder) (row : List Bool) (e : BitVec 32 × BitVec 32) : Prop :=
  e.1 = fnvHash (bitmapBytes row) ∧ b.rows.getD e.2.toNat [] = row

/-- Some recorded entry holds `row`. -/
def HasRow (b : BitmapTableBuilder) (row : List Bool) : Prop := ∃ e ∈ b.dedupMap, b.Matches row e

/-- Every recorded index is a row of the table. -/
def WellIndexed (b : BitmapTableBuilder) : Prop := ∀ e ∈ b.dedupMap, e.2.toNat < b.size

/-- The rows and the recorded entries of `b` begin those of `b'`. -/
structure Extends (b b' : BitmapTableBuilder) : Prop where
  rows : b.rows <+: b'.rows
  dedupMap : b.dedupMap <+: b'.dedupMap

variable {b b' : BitmapTableBuilder} {bitmap : List Bool} {numBits : Nat}

/-- What `Dedup` can do: return a recorded index whose row is the region, or append the region
and record its hash at the old size, where no recorded entry holds it. -/
theorem dedup_cases (b : BitmapTableBuilder) (bitmap : List Bool) (numBits : Nat) :
    (∃ e ∈ b.dedupMap, b.Matches (region bitmap numBits) e ∧ b.dedup bitmap numBits = (e.2, b)) ∨
      (¬b.HasRow (region bitmap numBits) ∧ b.dedup bitmap numBits = (BitVec.ofNat 32 b.size,
        ⟨b.rows ++ [region bitmap numBits],
          b.dedupMap ++ [(fnvHash (bitmapBytes (region bitmap numBits)), BitVec.ofNat 32 b.size)],
          max b.maxNumBits numBits⟩)) := by
  unfold dedup
  dsimp only
  split
  · next h index hfind =>
    have htest := List.find?_some hfind
    simp only [Bool.and_eq_true, beq_iff_eq] at htest
    exact .inl ⟨(h, index), List.mem_of_find?_eq_some hfind, htest, rfl⟩
  · next hfind =>
    refine .inr ⟨?_, rfl⟩
    rintro ⟨⟨h, index⟩, hmem, hm⟩
    apply List.find?_eq_none.1 hfind (h, index) hmem
    simp only [Bool.and_eq_true, beq_iff_eq]
    exact hm

/-- `Dedup` leaves the builder as it is exactly when a recorded entry holds the region. -/
theorem dedup_eq_self_iff : (b.dedup bitmap numBits).2 = b ↔ b.HasRow (region bitmap numBits) := by
  rcases dedup_cases b bitmap numBits with ⟨e, he, hm, hd⟩ | ⟨hno, hd⟩
  · rw [hd]
    exact ⟨fun _ => ⟨e, he, hm⟩, fun _ => rfl⟩
  · rw [hd]
    refine ⟨fun h => ?_, fun h => absurd h hno⟩
    have hlen := congrArg (fun b : BitmapTableBuilder => b.rows.length) h
    simp at hlen

theorem Extends.refl (b : BitmapTableBuilder) : b.Extends b :=
  ⟨List.prefix_refl _, List.prefix_refl _⟩

theorem Extends.trans {b'' : BitmapTableBuilder} (h : b.Extends b') (h' : b'.Extends b'') :
    b.Extends b'' :=
  ⟨h.rows.trans h'.rows, h.dedupMap.trans h'.dedupMap⟩

theorem Extends.size_le (h : b.Extends b') : b.size ≤ b'.size := h.rows.length_le

theorem extends_dedup (b : BitmapTableBuilder) (bitmap : List Bool) (numBits : Nat) :
    b.Extends (b.dedup bitmap numBits).2 := by
  rcases dedup_cases b bitmap numBits with ⟨e, -, -, hd⟩ | ⟨-, hd⟩
  · rw [hd]
    exact Extends.refl b
  · rw [hd]
    exact ⟨List.prefix_append _ _, List.prefix_append _ _⟩

/-- A recorded row stays recorded while rows and entries are appended. -/
theorem HasRow.mono {row : List Bool} (h : b.HasRow row) (hw : b.WellIndexed)
    (hext : b.Extends b') : b'.HasRow row := by
  obtain ⟨e, he, hhash, hrow⟩ := h
  obtain ⟨t, ht⟩ := hext.rows
  refine ⟨e, hext.dedupMap.subset he, hhash, ?_⟩
  rw [← ht, List.getD_append _ _ _ _ (hw e he), hrow]

theorem wellIndexed_dedup (hw : b.WellIndexed) (bitmap : List Bool) (numBits : Nat) :
    (b.dedup bitmap numBits).2.WellIndexed := by
  rcases dedup_cases b bitmap numBits with ⟨e, -, -, hd⟩ | ⟨-, hd⟩
  · rw [hd]
    exact hw
  · rw [hd]
    intro e he
    have hsize : b.size < (b.rows ++ [region bitmap numBits]).length := by
      rw [List.length_append, List.length_singleton]
      exact Nat.lt_succ_self _
    rcases List.mem_append.1 he with he | he
    · exact (hw e he).trans hsize
    · rw [List.mem_singleton] at he
      rw [he, BitVec.toNat_ofNat]
      exact (Nat.mod_le _ _).trans_lt hsize

/-- The index `Dedup` returns is recorded, and its entry holds the region. -/
theorem dedup_matches (hs : b.size < 2 ^ 32) (bitmap : List Bool) (numBits : Nat) :
    ∃ e ∈ (b.dedup bitmap numBits).2.dedupMap, e.2 = (b.dedup bitmap numBits).1 ∧
      (b.dedup bitmap numBits).2.Matches (region bitmap numBits) e := by
  rcases dedup_cases b bitmap numBits with ⟨e, he, hm, hd⟩ | ⟨-, hd⟩
  · rw [hd]
    exact ⟨e, he, rfl, hm⟩
  · rw [hd]
    refine ⟨_, List.mem_append_right _ (List.mem_singleton_self _), rfl, rfl, ?_⟩
    -- the appended row is at the old size, which the index keeps below `2 ^ 32`
    show (b.rows ++ [region bitmap numBits]).getD (BitVec.ofNat 32 b.size).toNat [] = _
    rw [BitVec.toNat_ofNat, Nat.mod_eq_of_lt hs, List.getD_eq_getElem?_getD,
      List.getElem?_append_right (Nat.le_refl b.size)]
    simp [size]

/-- The index `Dedup` returns is a row of the table, and that row is the region. -/
theorem dedup_spec (hw : b.WellIndexed) (hs : b.size < 2 ^ 32) :
    (b.dedup bitmap numBits).1.toNat < (b.dedup bitmap numBits).2.size ∧
      (b.dedup bitmap numBits).2.rows.getD (b.dedup bitmap numBits).1.toNat [] =
        region bitmap numBits := by
  obtain ⟨e, he, hidx, hm⟩ := dedup_matches hs bitmap numBits
  rw [← hidx]
  exact ⟨wellIndexed_dedup hw bitmap numBits e he, hm.2⟩

/-- After `Dedup(bitmap, num_bits)` a recorded entry holds the region. -/
theorem hasRow_dedup (hs : b.size < 2 ^ 32) (bitmap : List Bool) (numBits : Nat) :
    (b.dedup bitmap numBits).2.HasRow (region bitmap numBits) := by
  obtain ⟨e, he, -, hm⟩ := dedup_matches hs bitmap numBits
  exact ⟨e, he, hm⟩

theorem run_cons (b : BitmapTableBuilder) (c : List Bool × Nat) (calls : List (List Bool × Nat)) :
    run b (c :: calls) = run (b.dedup c.1 c.2).2 calls := rfl

theorem extends_run (b : BitmapTableBuilder) (calls : List (List Bool × Nat)) :
    b.Extends (run b calls) := by
  induction calls generalizing b with
  | nil => exact Extends.refl b
  | cons c calls ih => exact (extends_dedup b c.1 c.2).trans (ih _)

theorem wellIndexed_run (hw : b.WellIndexed) (calls : List (List Bool × Nat)) :
    (run b calls).WellIndexed := by
  induction calls generalizing b with
  | nil => exact hw
  | cons c calls ih => exact ih (wellIndexed_dedup hw c.1 c.2)

/-- A `Dedup` in a run records its region for the rest of the run, while the table has fewer
than `2 ^ 32` rows. -/
theorem hasRow_run (hw : b.WellIndexed) (calls : List (List Bool × Nat)) {row : List Bool}
    (hmem : ∃ c ∈ calls, region c.1 c.2 = row) (hs : (run b calls).size < 2 ^ 32) :
    (run b calls).HasRow row := by
  induction calls generalizing b with
  | nil =>
    obtain ⟨c, hc, -⟩ := hmem
    exact absurd hc List.not_mem_nil
  | cons c calls ih =>
    rw [run_cons] at hs ⊢
    by_cases hrow : region c.1 c.2 = row
    · -- this call records the region; the rest of the run only appends
      have hle : b.size ≤ (run (b.dedup c.1 c.2).2 calls).size :=
        ((extends_dedup b c.1 c.2).trans (extends_run _ calls)).size_le
      rw [← hrow]
      exact (hasRow_dedup (by omega) c.1 c.2).mono (wellIndexed_dedup hw c.1 c.2)
        (extends_run _ calls)
    · obtain ⟨c', hc', hrow'⟩ := hmem
      have hc'' : c' ∈ calls := by
        rcases List.mem_cons.1 hc' with rfl | h
        · exact absurd hrow' hrow
        · exact h
      exact ih (wellIndexed_dedup hw c.1 c.2) ⟨c', hc'', hrow'⟩ hs

theorem wellIndexed_empty : empty.WellIndexed := fun _ he => absurd he List.not_mem_nil

/-- `Dedup` after any calls on a new builder, while the table has fewer than `2 ^ 32` rows: the
index is a row of the table holding the region, the rows are kept, and a `Dedup` of a region given
to an earlier `Dedup` appends nothing. -/
theorem replay_dedup (calls : List (List Bool × Nat)) (bitmap : List Bool) (numBits : Nat)
    (hs : (replay calls).size < 2 ^ 32) :
    ((replay calls).dedup bitmap numBits).1.toNat < ((replay calls).dedup bitmap numBits).2.size ∧
      ((replay calls).dedup bitmap numBits).2.rows.getD
          ((replay calls).dedup bitmap numBits).1.toNat [] = region bitmap numBits ∧
      (replay calls).rows <+: ((replay calls).dedup bitmap numBits).2.rows ∧
      ((∃ c ∈ calls, region c.1 c.2 = region bitmap numBits) →
        ((replay calls).dedup bitmap numBits).2 = replay calls) := by
  have hw : (replay calls).WellIndexed := wellIndexed_run wellIndexed_empty calls
  obtain ⟨hidx, hrow⟩ := dedup_spec hw hs
  exact ⟨hidx, hrow, (extends_dedup _ bitmap numBits).rows,
    fun hmem => dedup_eq_self_iff.2 (hasRow_run wellIndexed_empty calls hmem hs)⟩

end BitmapTableBuilder

/-- `Add` and `Dedup(values, count)` after any calls on a new `BitTableBuilder`, and
`BitmapTableBuilder::Dedup` after any calls on a new one, while the table has fewer than `2 ^ 32`
rows: no row is changed; `Dedup` returns an index `i` with `i + count ≤ size()` and
`rows_[i..i+count)` equal to `values` (for bitmaps, a row equal to the bitmap's bytes); and where
an earlier `Dedup` was given the same rows, `Dedup` appends nothing. -/
theorem dedup_appendOnly :
    (∀ (k : Nat) (calls : List (BitTableBuilder.Call k)) (value : Entry k),
      (BitTableBuilder.replay calls).rows <+: ((BitTableBuilder.replay calls).add value).rows) ∧
    (∀ (k : Nat) (calls : List (BitTableBuilder.Call k)) (values : List (Entry k)),
      (BitTableBuilder.replay calls).size < 2 ^ 32 →
        (let b := BitTableBuilder.replay calls
         let r := b.dedup values
         r.1.toNat + values.length ≤ r.2.size ∧
           (r.2.rows.drop r.1.toNat).take values.length = values ∧ b.rows <+: r.2.rows ∧
           (BitTableBuilder.Call.dedup values ∈ calls → r.2 = b))) ∧
    (∀ (calls : List (List Bool × Nat)) (bitmap : List Bool) (numBits : Nat),
      (BitmapTableBuilder.replay calls).size < 2 ^ 32 →
        (let b := BitmapTableBuilder.replay calls
         let r := b.dedup bitmap numBits
         r.1.toNat < r.2.size ∧ r.2.rows.getD r.1.toNat [] = BitmapTableBuilder.region bitmap numBits ∧
           b.rows <+: r.2.rows ∧
           ((∃ c ∈ calls, BitmapTableBuilder.region c.1 c.2 = BitmapTableBuilder.region bitmap numBits) →
             r.2 = b))) :=
  ⟨fun _ calls value => (BitTableBuilder.extends_add (BitTableBuilder.replay calls) value).rows,
    fun _ calls values hs => BitTableBuilder.replay_dedup calls values hs,
    fun calls bitmap numBits hs => BitmapTableBuilder.replay_dedup calls bitmap numBits hs⟩

/-- From `2 ^ 32` rows on the index wraps: after `2 ^ 32` calls `Add` of a row of `kNoValue`,
`Dedup` of a row of zeros returns `0`, where the row is the first one added. -/
theorem dedup_of_wrap :
    (let b := BitTableBuilder.replay (List.replicate (2 ^ 32) (BitTableBuilder.Call.add (Entry.empty 1)))
     (b.dedup [Vector.replicate 1 0]).1 = 0 ∧
       ((b.dedup [Vector.replicate 1 0]).2.rows.drop 0).take 1 ≠ [Vector.replicate 1 0]) := by
  intro b
  have hb : b = ⟨List.replicate (2 ^ 32) (Entry.empty 1), []⟩ := by
    show BitTableBuilder.run ⟨[], []⟩ _ = _
    rw [BitTableBuilder.run_replicate_add, List.nil_append]
  -- nothing is recorded, so `Dedup` appends at index `2 ^ 32` modulo `2 ^ 32`
  rcases BitTableBuilder.dedup_cases b [Vector.replicate 1 0] with ⟨e, he, -, -⟩ | ⟨-, hd⟩
  · rw [hb] at he
    exact absurd he List.not_mem_nil
  · have hsize : b.size = 2 ^ 32 := by
      rw [hb]
      exact List.length_replicate
    rw [hd]
    refine ⟨?_, ?_⟩
    · show BitVec.ofNat 32 b.size = 0
      rw [hsize]
      decide
    · show ((b.rows ++ [Vector.replicate 1 0]).drop 0).take 1 ≠ _
      have hlen : 1 ≤ (List.replicate (2 ^ 32) (Entry.empty 1)).length := by
        rw [List.length_replicate]
        exact Nat.one_le_two_pow
      rw [hb, List.drop_zero, List.take_append_of_le_length hlen, List.take_replicate,
        Nat.min_eq_left Nat.one_le_two_pow]
      decide

end Art
