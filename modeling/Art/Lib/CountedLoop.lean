import Mathlib.Logic.Function.Iterate
import Mathlib.Order.Basic

/-!
# Counted loops

`run cont next fuel x` runs `while (cont x) x = next x` from `x`, testing the condition at most
`fuel` times, and returns the number of iterations and the value that failed the test.
`run_eq_of_exit` is the rule for a loop whose `n` first iterates pass the test and whose `n`-th
fails: with more than `n` tests of fuel it returns `(n, next^[n] x)`.

`add_mul_le_iff` counts the terms of an increasing progression `l, l + s, l + 2s, ...` that do not
pass a bound `u`: they are the first `(u - l) / s + 1`.
-/

namespace CountedLoop

variable {α : Type}

/-- Run `while (cont x) x = next x` with at most `fuel` tests of `cont`. -/
def run (cont : α → Bool) (next : α → α) : Nat → α → Option (Nat × α)
  | 0, _ => none
  | fuel + 1, x =>
    if cont x then (run cont next fuel (next x)).map fun r => (r.1 + 1, r.2) else some (0, x)

theorem run_succ_of_cont {cont : α → Bool} {next : α → α} {fuel : Nat} {x : α}
    (h : cont x = true) :
    run cont next (fuel + 1) x = (run cont next fuel (next x)).map fun r => (r.1 + 1, r.2) := by
  rw [run, if_pos h]

theorem run_succ_of_exit {cont : α → Bool} {next : α → α} {fuel : Nat} {x : α}
    (h : cont x = false) : run cont next (fuel + 1) x = some (0, x) := by
  rw [run, if_neg (by simp [h])]

/-- A loop whose first `n` iterates pass the test and whose `n`-th fails runs `n` times. -/
theorem run_eq_of_exit {cont : α → Bool} {next : α → α} {n fuel : Nat} {x : α}
    (hcont : ∀ k < n, cont (next^[k] x) = true) (hexit : cont (next^[n] x) = false)
    (hfuel : n < fuel) : run cont next fuel x = some (n, next^[n] x) := by
  induction n generalizing x fuel with
  | zero =>
    obtain ⟨fuel, rfl⟩ := Nat.exists_eq_add_of_lt hfuel
    exact run_succ_of_exit hexit
  | succ n ih =>
    obtain ⟨fuel, rfl⟩ := Nat.exists_eq_add_of_lt hfuel
    -- one iteration, then the loop from `next x` has one test and one iteration fewer
    have hrest := @ih (n + fuel + 1) (next x) (fun k hk => hcont (k + 1) (by omega)) hexit
      (by omega)
    have h0 : cont x = true := hcont 0 (by omega)
    rw [show n + 1 + fuel + 1 = (n + fuel + 1) + 1 by omega, run_succ_of_cont h0, hrest]
    rfl

/-- The terms of an increasing progression that do not pass `u` are its first
`(u - l) / s + 1`. -/
theorem add_mul_le_iff {l u s : Int} (hs : 0 < s) (hlu : l ≤ u) (k : Nat) :
    l + k * s ≤ u ↔ k < ((u - l) / s).toNat + 1 := by
  have hq : 0 ≤ (u - l) / s := Int.ediv_nonneg (by omega) (by omega)
  rw [Nat.lt_succ_iff, ← Int.ofNat_le, Int.toNat_of_nonneg hq, Int.le_ediv_iff_mul_le hs]
  omega

end CountedLoop
