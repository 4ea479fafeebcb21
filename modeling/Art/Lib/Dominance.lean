import Mathlib.Data.Nat.Find

/-!
# Walks and dominance in a directed graph

A walk of length `j` from `entry` is a sequence `w : ℕ → α` that starts at `entry` and follows an
edge from each `w i` to `w (i + 1)` for `i < j`; a node `a` dominates `b` when every walk from the
entry that ends at `b` visits `a`. Walks are sequences rather than lists so that the two pieces
of a walk that meet at one node can be joined (`IsWalk.splice`).

Besides dominance being a preorder, an analysis that reads dominance needs to know where on a walk
the dominating node was last seen: if `d` dominates `s` and `s` dominates `t`, every walk to `t`
has a visit of `s` after which `d` never comes back (`exists_visit_avoiding`).
-/

namespace Dominance

open Classical

variable {α : Type*} (edge : α → α → Prop) (entry : α)

/-- `w` is a walk of length `j` from `entry`. -/
def IsWalk (w : ℕ → α) (j : ℕ) : Prop :=
  w 0 = entry ∧ ∀ i < j, edge (w i) (w (i + 1))

/-- `a` dominates `b`: every walk from the entry that ends at `b` visits `a`. -/
def Dominates (a b : α) : Prop :=
  ∀ w j, IsWalk edge entry w j → w j = b → ∃ i ≤ j, w i = a

variable {edge entry}

namespace IsWalk

variable {w : ℕ → α} {j : ℕ}

theorem mono (hw : IsWalk edge entry w j) {k : ℕ} (hk : k ≤ j) : IsWalk edge entry w k :=
  ⟨hw.1, fun i hi => hw.2 i (by omega)⟩

/-- The walk that follows `w` to its `p`-th node and then continues from its `m`-th. -/
def join (w : ℕ → α) (p m : ℕ) : ℕ → α :=
  fun i => if i ≤ p then w i else w (m + (i - p))

theorem join_of_le {w : ℕ → α} {p m i : ℕ} (h : i ≤ p) : join w p m i = w i :=
  if_pos h

theorem join_of_lt {w : ℕ → α} {p m i : ℕ} (h : p < i) : join w p m i = w (m + (i - p)) :=
  if_neg (by omega)

/-- Joining a walk's visits of one node at `p` and at a later `m` gives a walk again. -/
theorem splice (hw : IsWalk edge entry w j) {p m : ℕ} (hpm : p ≤ m) (hm : m ≤ j) (he : w p = w m) :
    IsWalk edge entry (join w p m) (p + (j - m)) := by
  refine ⟨by rw [join_of_le (Nat.zero_le p)]; exact hw.1, fun i hi => ?_⟩
  rcases Nat.lt_trichotomy (i + 1) (p + 1) with h | h | h
  · rw [join_of_le (by omega), join_of_le (by omega)]
    exact hw.2 i (by omega)
  · -- the step across the junction: `w p = w m`, then on from `m`
    have hip : i = p := by omega
    subst hip
    rw [join_of_le le_rfl, join_of_lt (Nat.lt_succ_self i), he,
      show m + (i + 1 - i) = m + 1 by omega]
    exact hw.2 m (by omega)
  · rw [join_of_lt (by omega), join_of_lt (by omega), show m + (i + 1 - p) = m + (i - p) + 1 by omega]
    exact hw.2 _ (by omega)

theorem join_last {m : ℕ} (hm : m ≤ j) {p : ℕ} (hpm : w p = w m) : join w p m (p + (j - m)) = w j := by
  by_cases hj : j = m
  · subst hj
    rw [Nat.sub_self, Nat.add_zero, join_of_le le_rfl, hpm]
  · rw [join_of_lt (by omega), show m + (p + (j - m) - p) = j by omega]

end IsWalk

namespace Dominates

variable {a b c : α}

theorem refl (a : α) : Dominates edge entry a a :=
  fun _ j _ hj => ⟨j, le_rfl, hj⟩

theorem trans (hab : Dominates edge entry a b) (hbc : Dominates edge entry b c) :
    Dominates edge entry a c := by
  intro w j hw hj
  obtain ⟨i, hij, hi⟩ := hbc w j hw hj
  obtain ⟨i', hi'i, hi'⟩ := hab w i (hw.mono hij) hi
  exact ⟨i', le_trans hi'i hij, hi'⟩

end Dominates

section Visits

variable {w : ℕ → α} {j : ℕ}

/-- The last visit of `a` up to `j`, when there is one. -/
theorem exists_last_visit {a : α} (h : ∃ i ≤ j, w i = a) :
    ∃ i ≤ j, w i = a ∧ ∀ m, i < m → m ≤ j → w m ≠ a := by
  obtain ⟨i₀, hi₀, ha⟩ := h
  refine ⟨Nat.findGreatest (fun i => w i = a) j, Nat.findGreatest_le j,
    Nat.findGreatest_spec (P := fun i => w i = a) hi₀ ha, fun m hm hmj => ?_⟩
  exact Nat.findGreatest_is_greatest hm hmj

/-- The first visit of `a`, when there is one. -/
theorem exists_first_visit {a : α} (h : ∃ i, w i = a) :
    ∃ i, w i = a ∧ ∀ m < i, w m ≠ a :=
  ⟨Nat.find h, Nat.find_spec h, fun _ hm => Nat.find_min h hm⟩

/-- A node other than the entry is reached from one of its predecessors. -/
theorem pred_of_visit {s c : α} (hpred : ∀ x, edge x s → x = c) (hs : s ≠ entry)
    (hw : IsWalk edge entry w j) {i : ℕ} (hij : i ≤ j) (hi : w i = s) :
    0 < i ∧ w (i - 1) = c := by
  have hi0 : 0 < i := by
    rcases Nat.eq_zero_or_pos i with rfl | h
    · exact absurd (hi.symm.trans hw.1) hs
    · exact h
  refine ⟨hi0, hpred _ ?_⟩
  have := hw.2 (i - 1) (by omega)
  rwa [Nat.sub_add_cancel hi0, hi] at this

end Visits

variable {c s d t : α}

/-- The only predecessor of a node other than the entry dominates it. -/
theorem dominates_of_pred (hpred : ∀ x, edge x s → x = c) (hs : s ≠ entry) :
    Dominates edge entry c s := by
  intro w j hw hj
  obtain ⟨hj0, hc⟩ := pred_of_visit hpred hs hw le_rfl hj
  exact ⟨j - 1, Nat.sub_le j 1, hc⟩

/-- A reachable node does not dominate its only predecessor: the walk to the predecessor just
before the first visit would visit the node earlier. -/
theorem not_dominates_pred (hpred : ∀ x, edge x s → x = c) (hs : s ≠ entry) {w : ℕ → α} {j : ℕ}
    (hw : IsWalk edge entry w j) (hj : w j = s) : ¬ Dominates edge entry s c := by
  intro hsc
  obtain ⟨q, hq, hmin⟩ := exists_first_visit (w := w) ⟨j, hj⟩
  have hqj : q ≤ j := by
    by_contra h
    exact hmin j (by omega) hj
  obtain ⟨hq0, hc⟩ := pred_of_visit hpred hs hw hqj hq
  obtain ⟨i, hi, his⟩ := hsc w (q - 1) (hw.mono (by omega)) hc
  exact hmin i (by omega) his

/-- If `d` strictly dominates `s` and `s` dominates `t`, every walk to `t` has a visit of `s`
after which it never visits `d` again: the last visit of `s` will do, since a later visit of `d`
could be joined to the first visit of `d` and give a walk to `t` that avoids `s`. -/
theorem exists_visit_avoiding (hds : Dominates edge entry d s) (hst : Dominates edge entry s t)
    (hne : d ≠ s) {w : ℕ → α} {j : ℕ} (hw : IsWalk edge entry w j) (hj : w j = t) :
    ∃ i ≤ j, w i = s ∧ ∀ m, i ≤ m → m ≤ j → w m ≠ d := by
  obtain ⟨i, hij, hi, hlast⟩ := exists_last_visit (hst w j hw hj)
  refine ⟨i, hij, hi, fun m him hmj hm => ?_⟩
  have him' : i < m := by
    rcases Nat.eq_or_lt_of_le him with rfl | h
    · exact absurd (hm.symm.trans hi) hne
    · exact h
  -- the first visit of `d` comes before the last visit of `s`
  obtain ⟨q₀, hq₀i, hq₀⟩ := hds w i (hw.mono hij) hi
  obtain ⟨q, hq, hmin⟩ := exists_first_visit (w := w) ⟨q₀, hq₀⟩
  have hqi : q ≤ i := by
    by_contra h
    exact hmin q₀ (by omega) hq₀
  -- the walk to `t` through the first visit of `d`, then on from its visit at `m`
  have hjoin := hw.splice (by omega) hmj (hq.trans hm.symm)
  obtain ⟨k, hk, hks⟩ := hst _ _ hjoin (by rw [IsWalk.join_last hmj (hq.trans hm.symm), hj])
  by_cases hkq : k ≤ q
  · rw [IsWalk.join_of_le hkq] at hks
    obtain ⟨q', hq'k, hq'⟩ := hds w k (hw.mono (by omega)) hks
    have hq'q : q' < q := by
      by_contra hge
      have hkq' : k = q := by omega
      exact hne (hq.symm.trans (hkq' ▸ hks))
    exact hmin q' hq'q hq'
  · rw [IsWalk.join_of_lt (by omega)] at hks
    exact hlast _ (by omega) (by omega) hks

end Dominance
