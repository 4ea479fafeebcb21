import Mathlib.Tactic.Ring
import Mathlib.Tactic.Linarith
import Mathlib.Data.Nat.ModEq

/-!
# Division by invariant integers

For a divisor `d` and a shift `p` the multiplier `m = ⌊2 ^ p / d⌋ + 1` satisfies
`m * d = 2 ^ p + e` with `e = d - 2 ^ p % d` between `1` and `d`. When `nc * e < 2 ^ p`, where
`nc` is the largest numerator up to `N` that leaves the remainder `d - 1`, every `n ≤ N` has
`n / d * 2 ^ p ≤ n * m < (n / d + 1) * 2 ^ p`: the high part of the product is the quotient.
For `n ≥ 1` the lower bound is strict, so the floor of `-n * m / 2 ^ p` is one below `-(n / d)`.

A signed division by a constant is compiled that way: multiply by `±m`, keep the bits above
`2 ^ p`, and add one to a negative result (`signedQuotient`). The numerators of a `w`-bit
integer reach `2 ^ (w - 1)` on the negative side, one past the range of the positive ones; that
one numerator is a power of two, for which the upper bound holds for every `d`
(`pow_mul_multiplier_le`).
-/

namespace MagicDivision

/-- `⌊2 ^ p / d⌋ + 1`. -/
def multiplier (d p : Nat) : Nat := 2 ^ p / d + 1

/-- What a signed division by multiplication computes: the floor of `n * magic / 2 ^ p`, and one
more when that is negative. -/
def signedQuotient (magic : Int) (p : Nat) (n : Int) : Int :=
  let t := n * magic / 2 ^ p
  t + if t < 0 then 1 else 0

section Multiplier

variable {d : Nat}

theorem multiplier_mul (hd : 0 < d) (p : Nat) :
    multiplier d p * d = 2 ^ p + (d - 2 ^ p % d) := by
  have hdiv := Nat.div_add_mod (2 ^ p) d
  have hmod := Nat.mod_lt (2 ^ p) hd
  rw [multiplier, Nat.succ_mul, Nat.mul_comm (2 ^ p / d) d]
  omega

theorem div_mul_le_mul_multiplier (hd : 0 < d) (p n : Nat) :
    n / d * 2 ^ p ≤ n * multiplier d p := by
  apply Nat.le_of_mul_le_mul_right _ hd
  calc n / d * 2 ^ p * d = n / d * d * 2 ^ p := by ring
    _ ≤ n * 2 ^ p := Nat.mul_le_mul_right _ (Nat.div_mul_le_self n d)
    _ ≤ n * (2 ^ p + (d - 2 ^ p % d)) := Nat.mul_le_mul_left _ (Nat.le_add_right _ _)
    _ = n * multiplier d p * d := by rw [Nat.mul_assoc, multiplier_mul hd]

theorem div_mul_lt_mul_multiplier (hd : 0 < d) (p : Nat) {n : Nat} (hn : 0 < n) :
    n / d * 2 ^ p < n * multiplier d p := by
  have he : 0 < d - 2 ^ p % d := Nat.sub_pos_of_lt (Nat.mod_lt _ hd)
  apply Nat.lt_of_mul_lt_mul_right (a := d)
  calc n / d * 2 ^ p * d = n / d * d * 2 ^ p := by ring
    _ ≤ n * 2 ^ p := Nat.mul_le_mul_right _ (Nat.div_mul_le_self n d)
    _ < n * (2 ^ p + (d - 2 ^ p % d)) :=
      Nat.mul_lt_mul_of_pos_left (Nat.lt_add_of_pos_right he) hn
    _ = n * multiplier d p * d := by rw [Nat.mul_assoc, multiplier_mul hd]

/-- The product stays below the next multiple of `2 ^ p` as long as `e * n < (d - n % d) * 2 ^ p`;
with `≤` it reaches at most that multiple. -/
theorem mul_multiplier_le_of (hd : 0 < d) {p n : Nat}
    (h : (d - 2 ^ p % d) * n ≤ (d - n % d) * 2 ^ p) :
    n * multiplier d p ≤ (n / d + 1) * 2 ^ p := by
  have hn := Nat.div_add_mod' n d
  have hr := Nat.mod_lt n hd
  apply Nat.le_of_mul_le_mul_right _ hd
  calc n * multiplier d p * d = n * 2 ^ p + (d - 2 ^ p % d) * n := by
        rw [Nat.mul_assoc, multiplier_mul hd]; ring
    _ ≤ n * 2 ^ p + (d - n % d) * 2 ^ p := Nat.add_le_add_left h _
    _ = (n + (d - n % d)) * 2 ^ p := by ring
    _ = (n / d + 1) * 2 ^ p * d := by
        rw [show n + (d - n % d) = (n / d + 1) * d by rw [Nat.succ_mul]; omega]; ring

theorem mul_multiplier_lt_of (hd : 0 < d) {p n : Nat}
    (h : (d - 2 ^ p % d) * n < (d - n % d) * 2 ^ p) :
    n * multiplier d p < (n / d + 1) * 2 ^ p := by
  have hn := Nat.div_add_mod' n d
  have hr := Nat.mod_lt n hd
  apply Nat.lt_of_mul_lt_mul_right (a := d)
  calc n * multiplier d p * d = n * 2 ^ p + (d - 2 ^ p % d) * n := by
        rw [Nat.mul_assoc, multiplier_mul hd]; ring
    _ < n * 2 ^ p + (d - n % d) * 2 ^ p := Nat.add_lt_add_left h _
    _ = (n + (d - n % d)) * 2 ^ p := by ring
    _ = (n / d + 1) * 2 ^ p * d := by
        rw [show n + (d - n % d) = (n / d + 1) * d by rw [Nat.succ_mul]; omega]; ring

/-- The numerator `2 ^ k` never overshoots, whatever `d`: `(d - 2 ^ k % d) * 2 ^ (p - k)` is a
positive number congruent to `e` modulo `d`, so it is at least `e`. -/
theorem pow_mul_multiplier_le (hd : 0 < d) {k p : Nat} (hk : k ≤ p) :
    2 ^ k * multiplier d p ≤ (2 ^ k / d + 1) * 2 ^ p := by
  apply mul_multiplier_le_of hd
  set r := 2 ^ k % d
  set x := (d - r) * 2 ^ (p - k)
  have hr : r < d := Nat.mod_lt _ hd
  have hpow : 2 ^ p = 2 ^ k * 2 ^ (p - k) := by rw [← Nat.pow_add, Nat.add_sub_cancel' hk]
  -- both `x` and `e` are `-2 ^ p` modulo `d`
  have hx : (x + 2 ^ p) % d = 0 := by
    have hsplit : x + 2 ^ p = (1 + 2 ^ k / d) * 2 ^ (p - k) * d := by
      have := Nat.div_add_mod (2 ^ k) d
      rw [hpow, show x = (d - r) * 2 ^ (p - k) from rfl]
      rw [show (1 + 2 ^ k / d) * 2 ^ (p - k) * d = (d + d * (2 ^ k / d)) * 2 ^ (p - k) by ring]
      rw [← Nat.add_mul]
      congr 1
      omega
    rw [hsplit, Nat.mul_mod_left]
  have he : ((d - 2 ^ p % d) + 2 ^ p) % d = 0 := by
    rw [Nat.add_comm, ← multiplier_mul hd, Nat.mul_mod_left]
  have hcong : x % d = (d - 2 ^ p % d) % d := Nat.ModEq.add_right_cancel' (2 ^ p) (hx.trans he.symm)
  have hxpos : 0 < x := Nat.mul_pos (Nat.sub_pos_of_lt hr) (Nat.two_pow_pos _)
  have hele : d - 2 ^ p % d ≤ x := by
    by_contra hlt
    rw [not_le] at hlt
    have hxd : x < d := Nat.lt_of_lt_of_le hlt (Nat.sub_le _ _)
    rw [Nat.mod_eq_of_lt hxd] at hcong
    rcases Nat.eq_zero_or_pos (2 ^ p % d) with h0 | hpos
    · rw [h0, Nat.sub_zero, Nat.mod_self] at hcong
      omega
    · rw [Nat.mod_eq_of_lt (Nat.sub_lt hd hpos)] at hcong
      omega
  calc (d - 2 ^ p % d) * 2 ^ k ≤ x * 2 ^ k := Nat.mul_le_mul_right _ hele
    _ = (d - r) * 2 ^ p := by rw [hpow]; ring

end Multiplier

/-- The conditions under which `multiplier d p` divides every numerator up to `N`: `nc` is the
largest numerator up to `N` that leaves the remainder `d - 1`, and `nc * e < 2 ^ p`. -/
structure Exact (d p N nc : Nat) : Prop where
  pos : 0 < d
  le_succ : d ≤ N + 1
  nc_succ : nc + 1 = (N + 1) / d * d
  lt_pow : nc * (d - 2 ^ p % d) < 2 ^ p

namespace Exact

variable {d p N nc : Nat}

theorem pred_le (h : Exact d p N nc) : d - 1 ≤ nc := by
  have hK : 1 ≤ (N + 1) / d := (Nat.le_div_iff_mul_le h.pos).2 (by simpa using h.le_succ)
  have := Nat.mul_le_mul_right d hK
  have := h.nc_succ
  omega

/-- The key estimate `e * n < (d - n % d) * 2 ^ p`, for every `n ≤ N`. -/
theorem mul_lt (h : Exact d p N nc) {n : Nat} (hn : n ≤ N) :
    (d - 2 ^ p % d) * n < (d - n % d) * 2 ^ p := by
  have hr := Nat.mod_lt n h.pos
  have hlt : nc * (d - 2 ^ p % d) < 2 ^ p := h.lt_pow
  by_cases hsmall : n ≤ nc
  · calc (d - 2 ^ p % d) * n ≤ (d - 2 ^ p % d) * nc := Nat.mul_le_mul_left _ hsmall
      _ < 2 ^ p := by rw [Nat.mul_comm]; exact hlt
      _ ≤ (d - n % d) * 2 ^ p := Nat.le_mul_of_pos_left _ (by omega)
  · -- `n` lies in the last, incomplete run of `d` numerators: `n = nc + 1 + n % d`
    set K := (N + 1) / d
    have hnc : nc + 1 = K * d := h.nc_succ
    have hN : N + 1 < K * d + d := by
      have := Nat.lt_mul_div_succ (N + 1) h.pos
      rwa [Nat.mul_add_one, Nat.mul_comm d K] at this
    have hq : n / d = K := Nat.div_eq_of_lt_le (by omega) (by rw [Nat.succ_mul]; omega)
    have hsplit : K * d + n % d = n := by rw [← hq]; exact Nat.div_add_mod' n d
    have hj : n % d + 2 ≤ d := by omega
    have hpred := h.pred_le
    have htail : (d - 2 ^ p % d) * (n % d + 1) < 2 ^ p :=
      calc (d - 2 ^ p % d) * (n % d + 1) ≤ (d - 2 ^ p % d) * nc :=
            Nat.mul_le_mul_left _ (by omega)
        _ < 2 ^ p := by rw [Nat.mul_comm]; exact hlt
    calc (d - 2 ^ p % d) * n = (d - 2 ^ p % d) * nc + (d - 2 ^ p % d) * (n % d + 1) := by
          rw [← Nat.mul_add]; congr 1; omega
      _ < 2 ^ p + 2 ^ p := Nat.add_lt_add (by rw [Nat.mul_comm]; exact hlt) htail
      _ ≤ (d - n % d) * 2 ^ p := by rw [← Nat.two_mul]; exact Nat.mul_le_mul_right _ (by omega)

/-- The high part of `n * m` is the quotient, for every `n ≤ N`. -/
theorem mul_multiplier_div (h : Exact d p N nc) {n : Nat} (hn : n ≤ N) :
    n * multiplier d p / 2 ^ p = n / d :=
  Nat.div_eq_of_lt_le (div_mul_le_mul_multiplier h.pos p n)
    (mul_multiplier_lt_of h.pos (h.mul_lt hn))

theorem mul_multiplier_le (h : Exact d p N nc) {n : Nat} (hn : n ≤ N) :
    n * multiplier d p ≤ (n / d + 1) * 2 ^ p :=
  (mul_multiplier_lt_of h.pos (h.mul_lt hn)).le

end Exact

/-! ### Signed numerators -/

section Signed

variable {d p : Nat}

/-- A product strictly inside `(q * 2 ^ p, (q + 1) * 2 ^ p]`, negated, has floor `-q - 1`. -/
theorem neg_ediv_eq {a q : Nat} (hlo : q * 2 ^ p < a) (hhi : a ≤ (q + 1) * 2 ^ p) :
    -(a : Int) / 2 ^ p = -(q : Int) - 1 := by
  have hpos : (0 : Int) < 2 ^ p := by positivity
  rw [Int.ediv_eq_iff_of_pos hpos]
  have hlo' : (q : Int) * 2 ^ p < a := by exact_mod_cast hlo
  have hhi' : (a : Int) ≤ ((q : Int) + 1) * 2 ^ p := by exact_mod_cast hhi
  constructor <;> linarith

/-- A non-negative product with high part `q`. -/
theorem ediv_eq_of_nat {a q : Nat} (h : a / 2 ^ p = q) : (a : Int) / 2 ^ p = q := by
  rw [← h]
  push_cast
  rfl

/-- A numerator that overshoots by at most one multiple gives the truncated quotient of `-n`. -/
theorem signedQuotient_neg_of_bounds (hd : 0 < d) {n : Nat} (hn : 0 < n)
    (hhi : n * multiplier d p ≤ (n / d + 1) * 2 ^ p) :
    signedQuotient (multiplier d p) p (-(n : Int)) = (-(n : Int)).tdiv d := by
  have ht : -(n : Int) * (multiplier d p : Int) / 2 ^ p = -((n / d : Nat) : Int) - 1 := by
    rw [Int.neg_mul, ← Int.natCast_mul]
    exact neg_ediv_eq (div_mul_lt_mul_multiplier hd p hn) hhi
  have hq : (-(n : Int)).tdiv d = -((n / d : Nat) : Int) := by
    rw [Int.neg_tdiv, Int.tdiv_eq_ediv_of_nonneg (by positivity)]
    push_cast
    rfl
  have hneg : -((n / d : Nat) : Int) - 1 < 0 := by
    have := Int.natCast_nonneg (n / d)
    linarith
  rw [signedQuotient, ht, if_pos hneg, hq, Int.sub_add_cancel]

/-- For a positive divisor the magic number is the multiplier itself: with `N = 2 ^ k - 1`,
every `w`-bit numerator (`k = w - 1`) is divided exactly. -/
theorem signedQuotient_of_exact {k nc : Nat} (h : Exact d p (2 ^ k - 1) nc) (hk : k ≤ p)
    {n : Int} (hlo : -2 ^ k ≤ n) (hhi : n < 2 ^ k) :
    signedQuotient (multiplier d p) p n = n.tdiv d := by
  rcases le_or_gt 0 n with hn | hn
  · lift n to Nat using hn
    have hle : n ≤ 2 ^ k - 1 := by
      have : (n : Int) < 2 ^ k := hhi
      have : n < 2 ^ k := by exact_mod_cast this
      omega
    have ht : (n : Int) * (multiplier d p : Int) / 2 ^ p = ((n / d : Nat) : Int) := by
      rw [← Int.natCast_mul]
      exact ediv_eq_of_nat (h.mul_multiplier_div hle)
    rw [signedQuotient, ht, Int.tdiv_eq_ediv_of_nonneg (by positivity)]
    have : ¬ ((n / d : Nat) : Int) < 0 := not_lt.2 (Int.natCast_nonneg _)
    simp only [this, if_false, Int.add_zero]
    push_cast
    rfl
  · obtain ⟨m, rfl⟩ : ∃ m : Nat, n = -(m : Int) := ⟨n.natAbs, by omega⟩
    have hm : 0 < m := by omega
    have hmk : m ≤ 2 ^ k := by
      have : -(2 : Int) ^ k ≤ -(m : Int) := hlo
      have : (m : Int) ≤ 2 ^ k := by linarith
      exact_mod_cast this
    apply signedQuotient_neg_of_bounds h.pos hm
    rcases Nat.lt_or_ge m (2 ^ k) with hlt | hge
    · exact h.mul_multiplier_le (by omega)
    · rw [show m = 2 ^ k by omega]
      exact pow_mul_multiplier_le h.pos hk

/-- For a negative divisor `-d` the magic number is `-multiplier d p`: with `N = 2 ^ k` the
numerators `-2 ^ k ≤ n < 2 ^ k` of a `w`-bit integer are divided exactly. -/
theorem signedQuotient_neg_of_exact {k nc : Nat} (h : Exact d p (2 ^ k) nc)
    {n : Int} (hlo : -2 ^ k ≤ n) (hhi : n < 2 ^ k) :
    signedQuotient (-(multiplier d p : Int)) p n = n.tdiv (-(d : Int)) := by
  rw [Int.tdiv_neg]
  rcases lt_or_ge 0 n with hn | hn
  · lift n to Nat using hn.le
    have hn' : 0 < n := by exact_mod_cast hn
    have hle : n ≤ 2 ^ k := by
      have : (n : Int) < 2 ^ k := hhi
      have : n < 2 ^ k := by exact_mod_cast this
      omega
    have hsq := signedQuotient_neg_of_bounds h.pos hn' (h.mul_multiplier_le hle)
    rw [Int.neg_tdiv] at hsq
    rw [signedQuotient, Int.mul_neg, ← Int.neg_mul]
    exact hsq
  · obtain ⟨m, rfl⟩ : ∃ m : Nat, n = -(m : Int) := ⟨n.natAbs, by omega⟩
    have hmk : m ≤ 2 ^ k := by
      have : -(2 : Int) ^ k ≤ -(m : Int) := hlo
      have : (m : Int) ≤ 2 ^ k := by linarith
      exact_mod_cast this
    have ht : -(m : Int) * -(multiplier d p : Int) / 2 ^ p = ((m / d : Nat) : Int) := by
      rw [Int.neg_mul_neg, ← Int.natCast_mul]
      exact ediv_eq_of_nat (h.mul_multiplier_div hmk)
    rw [signedQuotient, ht, Int.neg_tdiv, Int.tdiv_eq_ediv_of_nonneg (by positivity)]
    have : ¬ ((m / d : Nat) : Int) < 0 := not_lt.2 (Int.natCast_nonneg _)
    simp only [this, if_false, Int.add_zero, Int.neg_neg]
    push_cast
    rfl

end Signed

end MagicDivision
