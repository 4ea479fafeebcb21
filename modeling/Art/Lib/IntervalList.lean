import Mathlib.Data.List.Chain

/-!
# Ordered lists of half-open ranges

A list of ranges `[lo r, hi r)` in increasing order, each non-empty and each ending before the
next one starts (`Gapped`), and the positions they cover (`Covered`). The lemmas are those a
search from a position, a walk over two such lists at once and a cut at a position need.
-/

namespace IntervalList

variable {ι : Type} (lo hi : ι → Nat)

/-- Ranges in increasing order, each non-empty, with a gap between consecutive ones. -/
structure Gapped (l : List ι) : Prop where
  nonempty : ∀ r ∈ l, lo r < hi r
  chain : l.IsChain fun a b => hi a < lo b

/-- A position that some range of the list holds. -/
def Covered (l : List ι) (p : Nat) : Prop := ∃ r ∈ l, lo r ≤ p ∧ p < hi r

instance (l : List ι) (p : Nat) : Decidable (Covered lo hi l p) :=
  inferInstanceAs (Decidable (∃ r ∈ l, _))

variable {lo hi} {l m : List ι} {r s : ι} {p : Nat}

/-! ### Covered positions -/

@[simp] theorem covered_nil : ¬Covered lo hi [] p := by
  rintro ⟨r, hr, -⟩
  cases hr

@[simp] theorem covered_cons :
    Covered lo hi (r :: l) p ↔ (lo r ≤ p ∧ p < hi r) ∨ Covered lo hi l p := by
  simp [Covered]

@[simp] theorem covered_append :
    Covered lo hi (l ++ m) p ↔ Covered lo hi l p ∨ Covered lo hi m p := by
  simp only [Covered, List.mem_append]
  constructor
  · rintro ⟨r, hr | hr, hp⟩
    exacts [Or.inl ⟨r, hr, hp⟩, Or.inr ⟨r, hr, hp⟩]
  · rintro (⟨r, hr, hp⟩ | ⟨r, hr, hp⟩)
    exacts [⟨r, Or.inl hr, hp⟩, ⟨r, Or.inr hr, hp⟩]

/-- Positions below `q` and positions from `q` on, where every range of `pre` ends by `q` and every
range of `post` starts at it or later. -/
theorem covered_of_hi_le {pre : List ι} {q : Nat} (hpre : ∀ r ∈ pre, hi r ≤ q)
    (hp : Covered lo hi pre p) : p < q := by
  obtain ⟨r, hr, -, hlt⟩ := hp
  exact Nat.lt_of_lt_of_le hlt (hpre r hr)

theorem covered_of_le_lo {post : List ι} {q : Nat} (hpost : ∀ r ∈ post, q ≤ lo r)
    (hp : Covered lo hi post p) : q ≤ p := by
  obtain ⟨r, hr, hle, -⟩ := hp
  exact Nat.le_trans (hpost r hr) hle

/-! ### Gapped lists -/

theorem gapped_nil : Gapped lo hi [] := ⟨fun _ h => (by cases h), List.IsChain.nil⟩

theorem gapped_singleton (h : lo r < hi r) : Gapped lo hi [r] :=
  ⟨fun _ hr => by rw [List.mem_singleton.1 hr]; exact h, List.IsChain.singleton r⟩

theorem gapped_cons_cons :
    Gapped lo hi (r :: s :: l) ↔ lo r < hi r ∧ hi r < lo s ∧ Gapped lo hi (s :: l) := by
  constructor
  · rintro ⟨hne, hchain⟩
    rw [List.isChain_cons_cons] at hchain
    exact ⟨hne r List.mem_cons_self, hchain.1,
      ⟨fun t ht => hne t (List.mem_cons_of_mem r ht), hchain.2⟩⟩
  · rintro ⟨hr, hrs, hne, hchain⟩
    refine ⟨fun t ht => ?_, List.IsChain.cons_cons hrs hchain⟩
    rcases List.mem_cons.1 ht with rfl | ht
    exacts [hr, hne t ht]

theorem Gapped.head (h : Gapped lo hi (r :: l)) : lo r < hi r := h.nonempty r List.mem_cons_self

theorem Gapped.tail (h : Gapped lo hi (r :: l)) : Gapped lo hi l :=
  ⟨fun t ht => h.nonempty t (List.mem_cons_of_mem r ht), h.chain.tail⟩

theorem Gapped.suffix (h : Gapped lo hi m) (hs : l <:+ m) : Gapped lo hi l :=
  ⟨fun t ht => h.nonempty t (hs.subset ht), h.chain.suffix hs⟩

theorem Gapped.cons (h : Gapped lo hi l) (hr : lo r < hi r) (hnext : ∀ s ∈ l.head?, hi r < lo s) :
    Gapped lo hi (r :: l) := by
  refine ⟨fun t ht => ?_, List.isChain_cons.2 ⟨hnext, h.chain⟩⟩
  rcases List.mem_cons.1 ht with rfl | ht
  exacts [hr, h.nonempty t ht]

/-- Every range of a gapped list starts after the earlier ones end. -/
theorem Gapped.pairwise : ∀ {l : List ι}, Gapped lo hi l → l.Pairwise fun a b => hi a < lo b
  | [], _ => List.Pairwise.nil
  | [_], _ => List.pairwise_singleton _ _
  | r :: s :: l, h => by
    obtain ⟨-, hrs, hsl⟩ := gapped_cons_cons.1 h
    have ih := hsl.pairwise
    refine List.Pairwise.cons (fun t ht => ?_) ih
    -- `r` ends before `s` starts, and `s` ends no later than any later range starts
    rcases List.mem_cons.1 ht with rfl | ht
    · exact hrs
    · exact Nat.lt_trans hrs (Nat.lt_trans hsl.head (List.rel_of_pairwise_cons ih ht))

theorem Gapped.hi_lt_of_mem (h : Gapped lo hi (r :: l)) (hs : s ∈ l) : hi r < lo s :=
  List.rel_of_pairwise_cons h.pairwise hs

/-- The positions of the later ranges lie after the first range ends. -/
theorem Gapped.hi_lt_of_covered (h : Gapped lo hi (r :: l)) (hp : Covered lo hi l p) :
    hi r < p := by
  obtain ⟨s, hs, hle, -⟩ := hp
  exact Nat.lt_of_lt_of_le (h.hi_lt_of_mem hs) hle

/-- No position of a gapped list lies before its first range starts. -/
theorem Gapped.not_covered_of_lt (h : Gapped lo hi (r :: l)) (hp : p < lo r) :
    ¬Covered lo hi (r :: l) p := by
  rw [covered_cons]
  rintro (⟨hle, -⟩ | hcov)
  · omega
  · have := h.hi_lt_of_covered hcov
    have := h.head
    omega

/-- The first range of a gapped list starts and ends no later than any of its ranges. -/
theorem Gapped.le_of_mem (h : Gapped lo hi (r :: l)) (hs : s ∈ r :: l) :
    lo r ≤ lo s ∧ hi r ≤ hi s := by
  rcases List.mem_cons.1 hs with rfl | hs
  · exact ⟨Nat.le_refl _, Nat.le_refl _⟩
  · have := h.hi_lt_of_mem hs
    have := h.head
    have := h.nonempty s (List.mem_cons_of_mem r hs)
    omega

theorem gapped_append :
    Gapped lo hi (l ++ m) ↔
      Gapped lo hi l ∧ Gapped lo hi m ∧ ∀ a ∈ l.getLast?, ∀ b ∈ m.head?, hi a < lo b := by
  constructor
  · rintro ⟨hne, hchain⟩
    obtain ⟨hl, hm, hlm⟩ := List.isChain_append.1 hchain
    exact ⟨⟨fun t ht => hne t (List.mem_append_left m ht), hl⟩,
      ⟨fun t ht => hne t (List.mem_append_right l ht), hm⟩, hlm⟩
  · rintro ⟨hl, hm, hlm⟩
    refine ⟨fun t ht => ?_, List.isChain_append.2 ⟨hl.chain, hm.chain, hlm⟩⟩
    rcases List.mem_append.1 ht with ht | ht
    exacts [hl.nonempty t ht, hm.nonempty t ht]

/-! ### Searching from a position -/

/-- In a gapped list, a position is covered exactly when the first range that ends after it
starts at it or before. -/
theorem covered_iff_dropWhile : ∀ {l : List ι}, Gapped lo hi l →
    (Covered lo hi l p ↔ ∃ r ∈ (l.dropWhile fun r => hi r ≤ p).head?, lo r ≤ p)
  | [], _ => by simp
  | r :: l, h => by
    by_cases hr : hi r ≤ p
    · rw [List.dropWhile_cons_of_pos (by simpa using hr), ← covered_iff_dropWhile h.tail,
        covered_cons]
      constructor
      · rintro (⟨-, hlt⟩ | hcov)
        · omega
        · exact hcov
      · exact Or.inr
    · rw [List.dropWhile_cons_of_neg (by simpa using hr), covered_cons]
      simp only [List.head?_cons, Option.mem_def, Option.some.injEq, exists_eq_left']
      constructor
      · -- a later range lies after `r`, which ends after `p`
        rintro (⟨hle, -⟩ | hcov)
        · exact hle
        · have := h.hi_lt_of_covered hcov
          omega
      · exact fun hle => Or.inl ⟨hle, Nat.lt_of_not_le hr⟩

/-- Ranges known to end by `p` can be skipped before searching from `p`. -/
theorem dropWhile_drop {k : Nat} (hskip : ∀ r ∈ l.take k, hi r ≤ p) :
    ((l.drop k).dropWhile fun r => hi r ≤ p) = l.dropWhile fun r => hi r ≤ p := by
  conv_rhs => rw [← List.take_append_drop k l]
  rw [List.dropWhile_append_of_pos fun r hr => by simpa using hskip r hr]

/-! ### Common positions of two lists -/

variable (lo hi) in
/-- `first` is the first position both lists cover, and `none` where they share none. -/
def FirstCommon (l m : List ι) : Option Nat → Prop
  | some x => (Covered lo hi l x ∧ Covered lo hi m x) ∧
      ∀ y < x, ¬(Covered lo hi l y ∧ Covered lo hi m y)
  | none => ∀ y, ¬(Covered lo hi l y ∧ Covered lo hi m y)

/-- Lists with the same common positions have the same first one. -/
theorem firstCommon_congr {l' m' : List ι}
    (h : ∀ p, (Covered lo hi l p ∧ Covered lo hi m p) ↔ (Covered lo hi l' p ∧ Covered lo hi m' p))
    {first : Option Nat} : FirstCommon lo hi l m first ↔ FirstCommon lo hi l' m' first := by
  cases first <;> simp only [FirstCommon, h]

theorem firstCommon_comm {first : Option Nat} :
    FirstCommon lo hi l m first ↔ FirstCommon lo hi m l first :=
  firstCommon_congr fun _ => and_comm

/-- Where the first range of one list ends before the other's first range starts, the common
positions of the two lists are those of the first list's later ranges. -/
theorem common_cons_of_hi_le {a b : ι} {as bs : List ι} (hb : Gapped lo hi (b :: bs))
    (hab : hi a ≤ lo b) :
    (Covered lo hi (a :: as) p ∧ Covered lo hi (b :: bs) p) ↔
      (Covered lo hi as p ∧ Covered lo hi (b :: bs) p) := by
  rw [covered_cons]
  constructor
  · rintro ⟨⟨-, hlt⟩ | hcov, hcovb⟩
    · -- `p` lies before `b` starts, so no range of the second list holds it
      exact absurd hcovb (hb.not_covered_of_lt (Nat.lt_of_lt_of_le hlt hab))
    · exact ⟨hcov, hcovb⟩
  · rintro ⟨hcov, hcovb⟩
    exact ⟨Or.inr hcov, hcovb⟩

/-- Where the first ranges of two lists overlap, the later of their starts is the first position
the two lists share. -/
theorem first_common_of_overlap {a b : ι} {as bs : List ι} (ha : Gapped lo hi (a :: as))
    (hb : Gapped lo hi (b :: bs)) (hab : ¬hi a ≤ lo b) (hba : ¬hi b ≤ lo a) :
    (Covered lo hi (a :: as) (max (lo a) (lo b)) ∧ Covered lo hi (b :: bs) (max (lo a) (lo b))) ∧
      ∀ y < max (lo a) (lo b), ¬(Covered lo hi (a :: as) y ∧ Covered lo hi (b :: bs) y) := by
  have := ha.head
  have := hb.head
  refine ⟨⟨covered_cons.2 (Or.inl ⟨Nat.le_max_left _ _, by omega⟩),
    covered_cons.2 (Or.inl ⟨Nat.le_max_right _ _, by omega⟩)⟩, fun y hy ⟨hya, hyb⟩ => ?_⟩
  rcases Nat.lt_or_ge y (lo a) with hlt | hge
  · exact ha.not_covered_of_lt hlt hya
  · exact hb.not_covered_of_lt (by omega) hyb

/-- The last range of a gapped list ends last. -/
theorem Gapped.hi_le_of_getLast : ∀ {l : List ι}, Gapped lo hi l → ∀ {r last : ι}, r ∈ l →
    last ∈ l.getLast? → hi r ≤ hi last
  | [], _, _, _, hr, _ => by cases hr
  | [a], _, r, last, hr, hlast => by
    rw [List.mem_singleton.1 hr]
    rw [List.getLast?_singleton, Option.mem_some_iff] at hlast
    rw [hlast]
  | a :: b :: l, h, r, last, hr, hlast => by
    rw [List.getLast?_cons_cons] at hlast
    have hb := h.tail.hi_le_of_getLast List.mem_cons_self hlast
    rcases List.mem_cons.1 hr with rfl | hr
    · -- the first range ends before the second starts, which ends no later than the last
      have := (gapped_cons_cons.1 h).2.1
      have := h.tail.head
      omega
    · exact h.tail.hi_le_of_getLast hr hlast

/-- The ranges the search from `p` passes end by `p`. -/
theorem hi_le_of_mem_takeWhile (hr : r ∈ l.takeWhile fun r => hi r ≤ p) : hi r ≤ p := by
  have := List.all_eq_true.1 List.all_takeWhile r hr
  simpa using this

/-- Ranges that end by `x` hold no position from `x` on. -/
theorem covered_dropWhile_of_le {x : Nat} (hxp : x ≤ p) :
    Covered lo hi (l.dropWhile fun r => hi r ≤ x) p ↔ Covered lo hi l p := by
  conv_rhs => rw [← List.takeWhile_append_dropWhile (p := fun r => hi r ≤ x) (l := l)]
  rw [covered_append, or_iff_right]
  intro hcov
  have := covered_of_hi_le (fun r hr => hi_le_of_mem_takeWhile hr) hcov
  omega

/-- The search from `p` stops at a range that ends after `p` where there is one. -/
theorem dropWhile_eq_cons : ∀ {l : List ι}, (∃ r ∈ l, p < hi r) →
    ∃ c rest, (l.dropWhile fun r => hi r ≤ p) = c :: rest ∧ p < hi c
  | [], ⟨_, hr, _⟩ => by cases hr
  | r :: l, hex => by
    by_cases hr : hi r ≤ p
    · rw [List.dropWhile_cons_of_pos (by simpa using hr)]
      obtain ⟨s, hs, hlt⟩ := hex
      rcases List.mem_cons.1 hs with rfl | hs
      · omega
      · exact dropWhile_eq_cons ⟨s, hs, hlt⟩
    · rw [List.dropWhile_cons_of_neg (by simpa using hr)]
      exact ⟨r, l, rfl, Nat.lt_of_not_le hr⟩

/-! ### Cutting at a position -/

section Cut

variable {pre post : List ι} {c : ι} {q : Nat}

/-- The positions before `q` of a gapped list whose ranges before `c` end by `q`, where `c` ends
after `q`. -/
theorem covered_and_lt_iff (hg : Gapped lo hi (c :: post)) (hpre : ∀ r ∈ pre, hi r ≤ q)
    (hq : q < hi c) :
    (Covered lo hi (pre ++ c :: post) p ∧ p < q) ↔ Covered lo hi pre p ∨ (lo c ≤ p ∧ p < q) := by
  rw [covered_append, covered_cons]
  constructor
  · rintro ⟨hpre' | ⟨h₁, -⟩ | hpost, hlt⟩
    · exact Or.inl hpre'
    · exact Or.inr ⟨h₁, hlt⟩
    · -- the ranges after `c` lie after `q`
      have := hg.hi_lt_of_covered hpost
      omega
  · rintro (hpre' | ⟨h₁, h₂⟩)
    · exact ⟨Or.inl hpre', covered_of_hi_le hpre hpre'⟩
    · exact ⟨Or.inr (Or.inl ⟨h₁, by omega⟩), h₂⟩

/-- The positions from `q` on of such a list. -/
theorem covered_and_le_iff (hg : Gapped lo hi (c :: post)) (hpre : ∀ r ∈ pre, hi r ≤ q)
    (hq : q < hi c) :
    (Covered lo hi (pre ++ c :: post) p ∧ q ≤ p) ↔
      (lo c ≤ p ∧ q ≤ p ∧ p < hi c) ∨ Covered lo hi post p := by
  rw [covered_append, covered_cons]
  constructor
  · rintro ⟨hpre' | ⟨h₁, h₂⟩ | hpost, hle⟩
    · have := covered_of_hi_le hpre hpre'
      omega
    · exact Or.inl ⟨h₁, hle, h₂⟩
    · exact Or.inr hpost
  · rintro (⟨h₁, h₂, h₃⟩ | hpost)
    · exact ⟨Or.inr (Or.inl ⟨h₁, h₃⟩), h₂⟩
    · -- a position after `c` lies after `q`
      have := hg.hi_lt_of_covered hpost
      exact ⟨Or.inr (Or.inr hpost), by omega⟩

end Cut

end IntervalList
