import Mathlib.Data.List.Basic

/-!
# Repeated lists

`(replicate k l).flatten` is `l` written `k` times. A buffer that holds a repetition can be
doubled by copying it after itself, and any whole number of copies of `l` is a prefix of it;
these are the facts a doubling copy loop needs.
-/

namespace List

variable {α : Type}

theorem flatten_replicate_add (l : List α) (a b : Nat) :
    (replicate (a + b) l).flatten = (replicate a l).flatten ++ (replicate b l).flatten := by
  rw [replicate_add, flatten_append]

theorem length_flatten_replicate (l : List α) (k : Nat) :
    ((replicate k l).flatten).length = l.length * k := by
  induction k with
  | zero => simp
  | succ k ih => rw [replicate_succ, flatten_cons, length_append, ih, Nat.mul_succ, Nat.add_comm]

/-- The first `m` copies of `l` are a prefix of any `k ≥ m` copies. -/
theorem take_flatten_replicate (l : List α) {m k : Nat} (h : m ≤ k) :
    ((replicate k l).flatten).take (l.length * m) = (replicate m l).flatten := by
  induction m generalizing k with
  | zero => simp
  | succ m ih =>
    obtain ⟨k, rfl⟩ : ∃ k', k = k' + 1 := ⟨k - 1, by omega⟩
    rw [replicate_succ, replicate_succ, flatten_cons, flatten_cons, Nat.mul_succ, Nat.add_comm,
      take_length_add_append, ih (by omega)]

end List
