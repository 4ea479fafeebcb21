import Mathlib.Order.Defs.LinearOrder
import Mathlib.Order.Lattice

/-!
# Three-way comparisons of lists

A comparison function returns an integer whose sign says how its arguments compare.
`LexSign r u v` says that `r` has the sign of the lexicographic comparison of `u` with `v`. A
comparison that walks both lists gets it from the first place where they differ: equal heads keep
it (`LexSign.cons`, and for a common prefix `LexSign.append`), different heads decide it
(`lexSign_cons_of_lt`, `lexSign_cons_of_gt`), and the end of one list decides it against a longer
one (`lexSign_nil_cons`, `lexSign_cons_nil`).
-/

namespace List

variable {α : Type*} [LinearOrder α] {r : Int} {a b : α} {u v : List α}

/-- `r` has the sign of the lexicographic comparison of `u` with `v`. -/
def LexSign (r : Int) (u v : List α) : Prop :=
  (r < 0 ↔ Lex (· < ·) u v) ∧ (r = 0 ↔ u = v) ∧ (0 < r ↔ Lex (· < ·) v u)

theorem lexSign_nil_nil (hr : r = 0) : LexSign r ([] : List α) [] :=
  ⟨iff_of_false (by omega) not_lex_nil, iff_of_true hr rfl, iff_of_false (by omega) not_lex_nil⟩

theorem lexSign_nil_cons (hr : r < 0) : LexSign r [] (b :: v) :=
  ⟨iff_of_true hr Lex.nil, iff_of_false (by omega) (cons_ne_nil b v).symm,
    iff_of_false (by omega) not_lex_nil⟩

theorem lexSign_cons_nil (hr : 0 < r) : LexSign r (a :: u) [] :=
  ⟨iff_of_false (by omega) not_lex_nil, iff_of_false (by omega) (cons_ne_nil a u),
    iff_of_true hr Lex.nil⟩

/-- Equal heads leave the comparison to the tails. -/
theorem LexSign.cons (h : LexSign r u v) (a : α) : LexSign r (a :: u) (a :: v) := by
  have hlex : ∀ {u v : List α}, Lex (· < ·) (a :: u) (a :: v) ↔ Lex (· < ·) u v := by
    intro u v
    rw [cons_lex_cons_iff]
    exact ⟨fun | .inl h => absurd h (lt_irrefl a) | .inr ⟨_, h⟩ => h, fun h => .inr ⟨rfl, h⟩⟩
  obtain ⟨hlt, heq, hgt⟩ := h
  exact ⟨hlt.trans hlex.symm, heq.trans (by simp), hgt.trans hlex.symm⟩

/-- A common prefix leaves the comparison to what follows it. -/
theorem LexSign.append (h : LexSign r u v) : ∀ p : List α, LexSign r (p ++ u) (p ++ v)
  | [] => h
  | a :: p => (h.append p).cons a

/-- The first different heads decide the comparison. -/
theorem lexSign_cons_of_lt (hab : a < b) (hr : r < 0) : LexSign r (a :: u) (b :: v) := by
  refine ⟨iff_of_true hr (Lex.rel hab), iff_of_false (by omega) (fun h => ?_),
    iff_of_false (by omega) (fun h => ?_)⟩
  · exact absurd (cons.inj h).1 (ne_of_lt hab)
  · rcases cons_lex_cons_iff.1 h with h | ⟨h, -⟩
    · exact lt_asymm hab h
    · exact ne_of_lt hab h.symm

theorem lexSign_cons_of_gt (hab : b < a) (hr : 0 < r) : LexSign r (a :: u) (b :: v) := by
  refine ⟨iff_of_false (by omega) (fun h => ?_), iff_of_false (by omega) (fun h => ?_),
    iff_of_true hr (Lex.rel hab)⟩
  · rcases cons_lex_cons_iff.1 h with h | ⟨h, -⟩
    · exact lt_asymm hab h
    · exact ne_of_lt hab h.symm
  · exact absurd (cons.inj h).1 (ne_of_lt hab).symm

end List
