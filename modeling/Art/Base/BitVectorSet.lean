import Art.Base.BitVector

/-!
# BitVector as a finite set

The operations of `BitVector` on a family of vectors named by `ι`, as the liveness analysis runs
them: each writes one vector and reads others, which may be of any sizes. `Op.exec` runs one on
the vectors and `Op.absExec` the corresponding set operation on their elements. From vectors of at
most `2 ^ 26` words, every run of operations with bit numbers below `2 ^ 31` keeps the vectors
within that bound and their elements are those of the set operations (`run_elems`). The queries
answer for the elements of every such vector (`bitVector_queries`).
-/

namespace Art

namespace BitVector

/-- The operations that write a vector: the one they write, and those they read. -/
inductive Op (ι : Type)
  | setBit (dst : ι) (idx : Nat)
  | clearBit (dst : ι) (idx : Nat)
  | clearAllBits (dst : ι)
  | setInitialBits (dst : ι) (numBits : Nat)
  | copy (dst src : ι)
  | union (dst src : ι)
  | unionIfNotIn (dst unionWith notIn : ι)
  | intersect (dst src : ι)
  | subtract (dst src : ι)
  deriving DecidableEq, Repr

namespace Op

variable {ι : Type} [DecidableEq ι]

/-- One operation on the vectors. -/
def exec (vs : ι → BitVector) : Op ι → ι → BitVector
  | setBit d idx => Function.update vs d ((vs d).setBit idx)
  | clearBit d idx => Function.update vs d ((vs d).clearBit idx)
  | clearAllBits d => Function.update vs d (vs d).clearAllBits
  | setInitialBits d n => Function.update vs d ((vs d).setInitialBits n)
  | copy d s => Function.update vs d ((vs d).copy (vs s))
  | union d s => Function.update vs d ((vs d).union (vs s)).1
  | unionIfNotIn d a b => Function.update vs d ((vs d).unionIfNotIn (vs a) (vs b)).1
  | intersect d s => Function.update vs d ((vs d).intersect (vs s))
  | subtract d s => Function.update vs d ((vs d).subtract (vs s))

/-- The same operation on sets of naturals. -/
def absExec (ss : ι → Finset ℕ) : Op ι → ι → Finset ℕ
  | setBit d idx => Function.update ss d (insert idx (ss d))
  | clearBit d idx => Function.update ss d ((ss d).erase idx)
  | clearAllBits d => Function.update ss d ∅
  | setInitialBits d n => Function.update ss d (Finset.range n)
  | copy d s => Function.update ss d (ss s)
  | union d s => Function.update ss d (ss d ∪ ss s)
  | unionIfNotIn d a b => Function.update ss d (ss d ∪ (ss a \ ss b))
  | intersect d s => Function.update ss d (ss d ∩ ss s)
  | subtract d s => Function.update ss d (ss d \ ss s)

/-- The bit numbers an operation names are below `2 ^ 31`. -/
def Bounded : Op ι → Prop
  | setBit _ idx => idx < 2 ^ 31
  | setInitialBits _ n => n ≤ 2 ^ 31
  | _ => True

/-- The operations one after the other. -/
def run (vs : ι → BitVector) (ops : List (Op ι)) : ι → BitVector := ops.foldl exec vs

/-- The set operations one after the other. -/
def absRun (ss : ι → Finset ℕ) (ops : List (Op ι)) : ι → Finset ℕ := ops.foldl absExec ss

/-- A write of a vector within the bound whose elements are `s`. -/
theorem update_step {vs : ι → BitVector} (hvs : ∀ k, Fits (vs k)) {d : ι} {u : BitVector}
    (hu : Fits u) {s : Finset ℕ} (hs : u.elems = s) :
    (∀ k, Fits (Function.update vs d u k)) ∧
      (fun k => (Function.update vs d u k).elems) =
        Function.update (fun k => (vs k).elems) d s := by
  refine ⟨fun k => ?_, funext fun k => ?_⟩
  · by_cases hk : k = d
    · rw [hk, Function.update_self]
      exact hu
    · rw [Function.update_of_ne hk]
      exact hvs k
  · by_cases hk : k = d
    · rw [hk, Function.update_self, Function.update_self, hs]
    · rw [Function.update_of_ne hk, Function.update_of_ne hk]

/-- One operation keeps the vectors within the bound and acts on their elements as the set
operation. -/
theorem exec_step {vs : ι → BitVector} (hvs : ∀ k, Fits (vs k)) {op : Op ι} (hop : op.Bounded) :
    (∀ k, Fits (op.exec vs k)) ∧
      (fun k => (op.exec vs k).elems) = op.absExec (fun k => (vs k).elems) := by
  cases op with
  | setBit d idx =>
    exact update_step hvs (fits_setBit (hvs d) hop) (elems_setBit (hvs d) hop)
  | clearBit d idx =>
    exact update_step hvs (fits_clearBit (hvs d) idx) (elems_clearBit (hvs d) idx)
  | clearAllBits d =>
    exact update_step hvs (fits_clearAllBits (hvs d)) (elems_clearAllBits (hvs d))
  | setInitialBits d n =>
    exact update_step hvs (setInitialBits_spec (hvs d) hop).2 (elems_setInitialBits (hvs d) hop)
  | copy d s =>
    exact update_step hvs (copy_spec (hvs d) (hvs s)).2 (elems_copy (hvs d) (hvs s))
  | union d s =>
    exact update_step hvs (union_spec (hvs d) (hvs s)).2.1 (elems_union (hvs d) (hvs s))
  | unionIfNotIn d a b =>
    exact update_step hvs (unionIfNotIn_spec (hvs d) (hvs a)).2.1
      (elems_unionIfNotIn (hvs d) (hvs a) (hvs b))
  | intersect d s =>
    exact update_step hvs (fits_intersect (hvs d) _) (elems_intersect (hvs d) (hvs s))
  | subtract d s =>
    exact update_step hvs (fits_subtract (hvs d) _) (elems_subtract (hvs d) (hvs s))

/-- A run of operations within the bound: the vectors stay within it, and their elements are
those of the set operations. -/
theorem run_elems (ops : List (Op ι)) (hops : ∀ op ∈ ops, op.Bounded) :
    ∀ (vs : ι → BitVector), (∀ k, Fits (vs k)) →
      (∀ k, Fits (run vs ops k)) ∧
        (fun k => (run vs ops k).elems) = absRun (fun k => (vs k).elems) ops := by
  induction ops with
  | nil => exact fun vs hvs => ⟨hvs, rfl⟩
  | cons op ops ih =>
    intro vs hvs
    -- the first operation, then the rest from where it leaves the vectors
    obtain ⟨hfits, helems⟩ := exec_step hvs (hops op List.mem_cons_self)
    obtain ⟨hfits', helems'⟩ :=
      ih (fun op' h => hops op' (List.mem_cons_of_mem op h)) (op.exec vs) hfits
    refine ⟨hfits', ?_⟩
    rw [run, List.foldl_cons, ← run, helems', helems]
    rfl

end Op

/-! ### Queries -/

section Queries

variable {v u w : BitVector}

theorem sameBitsSet_iff_elems (hv : Fits v) (hu : Fits u) :
    v.sameBitsSet u = true ↔ v.elems = u.elems := by
  rw [sameBitsSet_iff hv hu]
  constructor
  · intro h
    exact (elems_eq_of_bitAt hv hu fun p => (h p).symm).symm
  · intro h p
    have hp := congrArg (p ∈ ·) h
    simp only [mem_elems_iff hv, mem_elems_iff hu, eq_iff_iff] at hp
    exact Bool.eq_iff_iff.2 hp

theorem isSubsetOf_iff_elems (hv : Fits v) (hu : Fits u) :
    v.isSubsetOf u = true ↔ v.elems ⊆ u.elems := by
  rw [isSubsetOf_iff hv hu]
  constructor
  · intro h p hp
    rw [mem_elems_iff hv] at hp
    rw [mem_elems_iff hu]
    exact h p hp
  · intro h p hp
    rw [← mem_elems_iff hu]
    exact h ((mem_elems_iff hv).2 hp)

/-- An element brought in is what a union changes. -/
theorem union_elems_ne_iff {s t r : Finset ℕ} (hr : r = s ∪ t) :
    r ≠ s ↔ ∃ p, p ∈ t ∧ p ∉ s := by
  rw [hr, Ne, Finset.union_eq_left, Finset.not_subset]

theorem union_changed_iff (hv : Fits v) (hu : Fits u) :
    (v.union u).2 = true ↔ (v.union u).1.elems ≠ v.elems := by
  rw [(union_spec hv hu).2.2, union_elems_ne_iff (elems_union hv hu)]
  simp only [mem_elems_iff hv, mem_elems_iff hu, Bool.not_eq_true]

theorem unionIfNotIn_changed_iff (hv : Fits v) (hu : Fits u) (hw : Fits w) :
    (v.unionIfNotIn u w).2 = true ↔ (v.unionIfNotIn u w).1.elems ≠ v.elems := by
  rw [(unionIfNotIn_spec hv hu).2.2, union_elems_ne_iff (elems_unionIfNotIn hv hu hw)]
  simp only [Finset.mem_sdiff, mem_elems_iff hv, mem_elems_iff hu, mem_elems_iff hw,
    Bool.not_eq_true, and_assoc]

/-- Every query of a vector within the bound answers for its elements: `SameBitsSet` is
equality, `IsSubsetOf` inclusion, `NumSetBits` the count and `NumSetBits(end)` the count below
`end`, `GetHighestBitSet` the greatest element or `-1`, and `Union` and `UnionIfNotIn` report a
change exactly when the elements change. -/
theorem bitVector_queries (hv : Fits v) (hu : Fits u) (hw : Fits w) :
    (v.sameBitsSet u = true ↔ v.elems = u.elems) ∧ (v.isSubsetOf u = true ↔ v.elems ⊆ u.elems) ∧
      v.numSetBits = v.elems.card ∧
      (∀ e ≤ 32 * v.storage.length, v.numSetBitsBelow e = (v.elems.filter (· < e)).card) ∧
      ((v.getHighestBitSet = -1 ∧ v.elems = ∅) ∨
        ∃ p : Nat, v.getHighestBitSet = p ∧ IsGreatest (v.elems : Set ℕ) p) ∧
      ((v.union u).2 = true ↔ (v.union u).1.elems ≠ v.elems) ∧
      ((v.unionIfNotIn u w).2 = true ↔ (v.unionIfNotIn u w).1.elems ≠ v.elems) :=
  ⟨sameBitsSet_iff_elems hv hu, isSubsetOf_iff_elems hv hu, numSetBits_eq hv,
    fun _ he => numSetBitsBelow_eq hv he, getHighestBitSet_eq hv, union_changed_iff hv hu,
    unionIfNotIn_changed_iff hv hu hw⟩

end Queries

end BitVector

end Art
