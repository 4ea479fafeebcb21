import Mathlib.Data.Finset.Card
import Mathlib.Order.BoundedOrder.Basic
import Mathlib.Algebra.GroupWithZero.Nat

/-!
# Capped sets

`CappedSet α n` holds a finite set only while it has fewer than `n` elements: a union that
reaches `n` elements collapses to `many`, and `unknown` lies above everything. Ordered by
inclusion below `many < unknown`, it is a join-semilattice whose join is the capped union
(`ofFinset_union`), with `small ∅` at the bottom and `unknown` at the top.
-/

namespace Art

/-- A set of fewer than `n` elements, `many` elements, or unknown contents. -/
inductive CappedSet (α : Type*) (n : ℕ) where
  | small (s : Finset α) (h : s.card < n)
  | many
  | unknown

namespace CappedSet

variable {α : Type*} {n : ℕ}

/-- Inclusion between small sets, then `many`, then `unknown`. -/
def Le : CappedSet α n → CappedSet α n → Prop
  | small s _, small t _ => s ⊆ t
  | small _ _, many => True
  | small _ _, unknown => True
  | many, small _ _ => False
  | many, many => True
  | many, unknown => True
  | unknown, small _ _ => False
  | unknown, many => False
  | unknown, unknown => True

instance : PartialOrder (CappedSet α n) where
  le := Le
  le_refl x := by cases x <;> simp [Le]
  le_trans x y z := by
    cases x <;> cases y <;> cases z <;> simp only [Le, imp_self, implies_true, false_imp_iff,
      imp_false, not_true_eq_false]
    exact fun hxy hyz => hxy.trans hyz
  le_antisymm x y := by
    cases x <;> cases y <;> simp only [Le, imp_self, imp_false, not_true_eq_false, reduceCtorEq,
      small.injEq]
    exact fun hxy hyx => Finset.Subset.antisymm hxy hyx

@[simp] theorem small_le_small {s t : Finset α} {hs : s.card < n} {ht : t.card < n} :
    small s hs ≤ small t ht ↔ s ⊆ t := Iff.rfl

@[simp] theorem small_le_many {s : Finset α} {hs : s.card < n} : small s hs ≤ many := trivial

@[simp] theorem le_unknown (x : CappedSet α n) : x ≤ unknown := by cases x <;> trivial

@[simp] theorem not_many_le_small {s : Finset α} {hs : s.card < n} : ¬ many ≤ small s hs := id

@[simp] theorem not_unknown_le_many : ¬ (unknown : CappedSet α n) ≤ many := id

instance : OrderTop (CappedSet α n) where
  top := unknown
  le_top := le_unknown

instance [NeZero n] : OrderBot (CappedSet α n) where
  bot := small ∅ (by simpa using Nat.pos_of_neZero n)
  bot_le x := by cases x <;> simp

/-- The capped set of a finite set: `many` from `n` elements on. -/
def ofFinset (s : Finset α) : CappedSet α n := if h : s.card < n then small s h else many

theorem ofFinset_of_lt {s : Finset α} (h : s.card < n) : (ofFinset s : CappedSet α n) = small s h :=
  dif_pos h

theorem ofFinset_of_le {s : Finset α} (h : n ≤ s.card) : (ofFinset s : CappedSet α n) = many :=
  dif_neg (Nat.not_lt.2 h)

theorem small_le_ofFinset {s t : Finset α} {hs : s.card < n} (h : s ⊆ t) :
    small s hs ≤ ofFinset t := by
  unfold ofFinset
  split_ifs <;> simp [h]

theorem ofFinset_le_many (s : Finset α) : (ofFinset s : CappedSet α n) ≤ many := by
  unfold ofFinset
  split_ifs <;> simp

theorem ofFinset_le_small {s t : Finset α} {ht : t.card < n} (h : s ⊆ t) :
    ofFinset s ≤ small t ht := by
  rw [ofFinset_of_lt ((Finset.card_le_card h).trans_lt ht)]
  exact h

theorem ofFinset_empty [NeZero n] : (ofFinset ∅ : CappedSet α n) = ⊥ :=
  ofFinset_of_lt _

variable [DecidableEq α]

/-- The join: `unknown` absorbs, then `many`; two small sets join to their capped union. -/
def sup : CappedSet α n → CappedSet α n → CappedSet α n
  | small s _, small t _ => ofFinset (s ∪ t)
  | small _ _, many => many
  | small _ _, unknown => unknown
  | many, small _ _ => many
  | many, many => many
  | many, unknown => unknown
  | unknown, _ => unknown

instance : SemilatticeSup (CappedSet α n) where
  sup := sup
  le_sup_left x y := by
    cases x <;> cases y <;> simp [sup, small_le_ofFinset Finset.subset_union_left]
  le_sup_right x y := by
    cases x <;> cases y <;> simp [sup, small_le_ofFinset Finset.subset_union_right]
  sup_le x y z hx hy := by
    cases x <;> cases y <;> cases z <;> simp_all [sup, ofFinset_le_many]
    exact ofFinset_le_small (Finset.union_subset hx hy)

@[simp] theorem sup_unknown (x : CappedSet α n) : x ⊔ unknown = unknown :=
  le_antisymm (le_unknown _) le_sup_right

@[simp] theorem unknown_sup (x : CappedSet α n) : unknown ⊔ x = unknown :=
  le_antisymm (le_unknown _) le_sup_left

@[simp] theorem ofFinset_sup_many (s : Finset α) : (ofFinset s : CappedSet α n) ⊔ many = many :=
  sup_eq_right.2 (ofFinset_le_many s)

@[simp] theorem many_sup_ofFinset (s : Finset α) : many ⊔ (ofFinset s : CappedSet α n) = many :=
  sup_eq_left.2 (ofFinset_le_many s)

/-- The capped set of a union is the join of the capped sets. -/
theorem ofFinset_union (s t : Finset α) :
    (ofFinset (s ∪ t) : CappedSet α n) = ofFinset s ⊔ ofFinset t := by
  by_cases hs : s.card < n
  · by_cases ht : t.card < n
    · rw [ofFinset_of_lt hs, ofFinset_of_lt ht]
      rfl
    · rw [ofFinset_of_le (Nat.not_lt.1 ht), ofFinset_of_le, ofFinset_of_lt hs]
      · rfl
      · exact (Nat.not_lt.1 ht).trans (Finset.card_le_card Finset.subset_union_right)
  · have hst : n ≤ (s ∪ t).card :=
      (Nat.not_lt.1 hs).trans (Finset.card_le_card Finset.subset_union_left)
    rw [ofFinset_of_le (Nat.not_lt.1 hs), ofFinset_of_le hst, many_sup_ofFinset]

end CappedSet

end Art
