import Mathlib.Data.List.Pairwise
import Mathlib.Data.List.GetD
import Mathlib.Tactic.SplitIfs

/-!
# Linear probing

A table of `n` slots, each empty (`none`) or holding an element. An element is looked for from
the slot its hash picks, `hash % n`, then slot after slot and around the end of the table, up to
the first empty slot. That finds every element exactly when each element sits at the end of an
occupied run from its hash's slot (`Clustered`), so this is the invariant of the table.

`dist n a b` counts the steps from slot `a` forward to slot `b`; `Reach t a b` says every slot on
the way, `b` excluded, holds an element. `scan` is the probing loop: the first slot from `a` on at
which a test holds (`scan_eq_some`, `scan_isSome`, `scan_eq_none`).

Writing an element into the empty slot where its probe ended keeps the table clustered
(`Clustered.set_some`), and a probe that ended at an empty slot without meeting an element has
seen every element of that hash slot (`Clustered.not_of_scanned`). Deleting with a backward shift
keeps it clustered as well: the hole moves forward, an element whose run passes the hole is moved
into it, and the loop stops at the next empty slot. `ShiftInv` is the invariant of that loop,
kept by `ShiftInv.keep` and `ShiftInv.move` and closed by `ShiftInv.finish`.

`elems t` are the table's elements in slot order; writing an empty slot or emptying one adds or
removes one of them (`elems_set_some_perm`, `elems_set_none_perm`).
-/

namespace LinearProbe

/-! ### Going around a table -/

/-- The number of steps from slot `a` forward to slot `b` in a table of `n` slots, around the
end. -/
def dist (n a b : Nat) : Nat := (b + n - a) % n

section Dist

variable {n a b c k : Nat}

theorem dist_eq (ha : a < n) (hb : b < n) :
    dist n a b = if a ≤ b then b - a else b + n - a := by
  unfold dist
  split_ifs with h
  · rw [show b + n - a = (b - a) + n by omega, Nat.add_mod_right, Nat.mod_eq_of_lt (by omega)]
  · exact Nat.mod_eq_of_lt (by omega)

theorem mod_eq_of_lt_two_mul {x : Nat} (h : x < 2 * n) : x % n = if x < n then x else x - n := by
  split_ifs with hx
  · exact Nat.mod_eq_of_lt hx
  · rw [Nat.mod_eq_sub_mod (by omega), Nat.mod_eq_of_lt (by omega)]

theorem dist_lt (ha : a < n) (hb : b < n) : dist n a b < n := by
  rw [dist_eq ha hb]
  split_ifs <;> omega

theorem add_dist_mod (ha : a < n) (hb : b < n) : (a + dist n a b) % n = b := by
  rw [dist_eq ha hb]
  split_ifs with h
  · rw [Nat.add_sub_cancel' h, Nat.mod_eq_of_lt hb]
  · rw [mod_eq_of_lt_two_mul (by omega), if_neg (by omega)]
    omega

theorem dist_add_mod (ha : a < n) (hk : k < n) : dist n a ((a + k) % n) = k := by
  have hlt : (a + k) % n < n := Nat.mod_lt _ (by omega)
  rw [dist_eq ha hlt, mod_eq_of_lt_two_mul (by omega)]
  split_ifs <;> omega

theorem dist_self (a : Nat) : dist n a a = 0 := by
  simp [dist]

theorem dist_eq_zero_iff (ha : a < n) (hb : b < n) : dist n a b = 0 ↔ a = b := by
  rw [dist_eq ha hb]
  split_ifs <;> omega

/-- Going from `a` to `b` through `c`, where `c` comes first. -/
theorem dist_add_dist (ha : a < n) (hb : b < n) (hc : c < n) (h : dist n a c ≤ dist n a b) :
    dist n a c + dist n c b = dist n a b := by
  rw [dist_eq ha hb, dist_eq ha hc] at h
  rw [dist_eq ha hb, dist_eq ha hc, dist_eq hc hb]
  split_ifs at h ⊢ <;> omega

theorem dist_add_dist_swap (ha : a < n) (hb : b < n) (hne : a ≠ b) :
    dist n a b + dist n b a = n := by
  rw [dist_eq ha hb, dist_eq hb ha]
  split_ifs <;> omega

/-- `k` steps past `b` is `dist n a b + k` steps past `a`. -/
theorem add_dist_add_mod (ha : a < n) (hb : b < n) (k : Nat) :
    (a + (dist n a b + k)) % n = (b + k) % n := by
  rw [← Nat.add_assoc, ← Nat.mod_add_mod, add_dist_mod ha hb]

theorem dist_succ (ha : a < n) (hb : b < n) (h : dist n a b + 1 < n) :
    dist n a ((b + 1) % n) = dist n a b + 1 := by
  have hd := dist_add_mod ha h
  rwa [add_dist_add_mod ha hb] at hd

/-- One step forward from `a` is one step nearer to `b`. -/
theorem dist_succ_left (ha : a < n) (hb : b < n) (hne : a ≠ b) :
    dist n ((a + 1) % n) b + 1 = dist n a b := by
  have hlt : (a + 1) % n < n := Nat.mod_lt _ (by omega)
  rw [dist_eq ha hb, dist_eq hlt hb, mod_eq_of_lt_two_mul (by omega)]
  split_ifs <;> omega

end Dist

/-! ### Tables -/

variable {α : Type}

/-- Slot `i` of the table holds an element. -/
def Occupied (t : List (Option α)) (i : Nat) : Prop := (t.getD i none).isSome = true

/-- Every slot on the way from `a` forward to `b`, `b` excluded, holds an element. -/
def Reach (t : List (Option α)) (a b : Nat) : Prop :=
  ∀ k < dist t.length a b, Occupied t ((a + k) % t.length)

/-- Every element sits at the end of an occupied run from the slot its hash picks: the invariant
of a table with linear probing. -/
def Clustered (hash : α → Nat) (t : List (Option α)) : Prop :=
  ∀ i e, t.getD i none = some e → Reach t (hash e % t.length) i

/-- The elements of the table, in slot order. -/
def elems (t : List (Option α)) : List α := t.filterMap id

@[simp] theorem elems_nil : elems ([] : List (Option α)) = [] := rfl

@[simp] theorem elems_cons_none (t : List (Option α)) : elems (none :: t) = elems t := rfl

@[simp] theorem elems_cons_some (x : α) (t : List (Option α)) :
    elems (some x :: t) = x :: elems t := rfl

variable {t t' : List (Option α)} {a b c i : Nat} {e : α}

theorem lt_length_of_getD_eq_some (h : t.getD i none = some e) : i < t.length := by
  by_contra hi
  rw [List.getD_eq_default _ _ (by omega)] at h
  cases h

theorem occupied_of_getD_eq_some (h : t.getD i none = some e) : Occupied t i := by
  rw [Occupied, h]
  rfl

theorem getD_set (t : List (Option α)) (i j : Nat) (x : Option α) :
    (t.set i x).getD j none = if i = j ∧ i < t.length then x else t.getD j none := by
  rw [List.getD_eq_getElem?_getD, List.getElem?_set, List.getD_eq_getElem?_getD]
  by_cases hij : i = j
  · subst hij
    by_cases hi : i < t.length
    · rw [if_pos rfl, if_pos hi, if_pos ⟨rfl, hi⟩]
      rfl
    · rw [if_pos rfl, if_neg hi, if_neg (fun h => hi h.2), List.getElem?_eq_none (by omega)]
  · rw [if_neg hij, if_neg (fun h => hij h.1)]

theorem Reach.mono (hlen : t'.length = t.length) (hocc : ∀ i, Occupied t i → Occupied t' i)
    (h : Reach t a b) : Reach t' a b := fun k hk => by
  rw [hlen] at hk ⊢
  exact hocc _ (h k hk)

/-- A run reaches every slot before its end. -/
theorem Reach.shorten (h : Reach t a b) (hc : dist t.length a c ≤ dist t.length a b) :
    Reach t a c := fun k hk => h k (Nat.lt_of_lt_of_le hk hc)

theorem Reach.occupied (h : Reach t a b) (ha : a < t.length) (hc : c < t.length)
    (hlt : dist t.length a c < dist t.length a b) : Occupied t c := by
  have hocc := h _ hlt
  rwa [add_dist_mod ha hc] at hocc

/-- A run does not look at its end: writing there keeps it. -/
theorem Reach.set_end (h : Reach t a b) (ha : a < t.length) (hb : b < t.length) (x : Option α) :
    Reach (t.set b x) a b := fun k hk => by
  rw [List.length_set] at hk ⊢
  have hne : b ≠ (a + k) % t.length := fun hbk => by
    have := dist_add_mod ha (Nat.lt_trans hk (dist_lt ha hb))
    rw [← hbk] at this
    omega
  unfold Occupied
  rw [getD_set, if_neg fun h' => hne h'.1]
  exact h k hk

/-! ### Probing -/

/-- The first of the slots `a`, `a + 1`, ... (around a table of `n` slots) at which `stop` holds,
looking at `fuel` slots at most. -/
def scan (n : Nat) (stop : Nat → Bool) (a : Nat) : Nat → Option Nat
  | 0 => none
  | fuel + 1 => if stop a then some a else scan n stop ((a + 1) % n) fuel

section Scan

variable {n : Nat} {stop : Nat → Bool}

/-- `scan` stops at the first slot where the test holds. -/
theorem scan_eq_some {fuel : Nat} (ha : a < n) (h : scan n stop a fuel = some b) :
    ∃ k < fuel, b = (a + k) % n ∧ stop b = true ∧ ∀ j < k, stop ((a + j) % n) = false := by
  induction fuel generalizing a with
  | zero => cases h
  | succ fuel ih =>
    rw [scan] at h
    split_ifs at h with hstop
    · cases h
      exact ⟨0, Nat.succ_pos _, by rw [Nat.add_zero, Nat.mod_eq_of_lt ha], hstop,
        fun j hj => absurd hj (Nat.not_lt_zero j)⟩
    · -- the rest of the scan starts one slot further
      obtain ⟨k, hk, rfl, hb, hbefore⟩ := ih (Nat.mod_lt _ (by omega)) h
      refine ⟨k + 1, by omega, by rw [Nat.mod_add_mod, Nat.add_assoc, Nat.add_comm 1 k], hb,
        fun j hj => ?_⟩
      rcases j with _ | j
      · rw [Nat.add_zero, Nat.mod_eq_of_lt ha]
        exact Bool.eq_false_iff.2 hstop
      · have := hbefore j (by omega)
        rwa [Nat.mod_add_mod, Nat.add_assoc, Nat.add_comm 1 j] at this

/-- `scan` stops where the test holds within its fuel. -/
theorem scan_isSome {fuel k : Nat} (ha : a < n) (hk : k < fuel)
    (hstop : stop ((a + k) % n) = true) : (scan n stop a fuel).isSome := by
  induction fuel generalizing a k with
  | zero => exact absurd hk (Nat.not_lt_zero k)
  | succ fuel ih =>
    rw [scan]
    split_ifs with ha'
    · rfl
    · rcases k with _ | k
      · rw [Nat.add_zero, Nat.mod_eq_of_lt ha] at hstop
        exact absurd hstop ha'
      · refine ih (Nat.mod_lt _ (by omega)) (Nat.lt_of_succ_lt_succ hk) ?_
        rwa [Nat.mod_add_mod, Nat.add_assoc, Nat.add_comm 1 k]

/-- `scan` stops at a slot where the test holds after slots where it fails. -/
theorem scan_eq_of_first {fuel k : Nat} (ha : a < n) (hk : k < fuel)
    (hstop : stop ((a + k) % n) = true) (hbefore : ∀ j < k, stop ((a + j) % n) = false) :
    scan n stop a fuel = some ((a + k) % n) := by
  obtain ⟨b, hb⟩ := Option.isSome_iff_exists.1 (scan_isSome ha hk hstop)
  obtain ⟨k', -, rfl, hstop', hbefore'⟩ := scan_eq_some ha hb
  rw [hb]
  -- both slots are the first where the test holds
  rcases Nat.lt_trichotomy k' k with hlt | rfl | hgt
  · rw [hbefore k' hlt] at hstop'
    cases hstop'
  · rfl
  · rw [hbefore' k hgt] at hstop
    cases hstop

/-- Where the test holds at none of the slots looked at, `scan` finds nothing. -/
theorem scan_eq_none {fuel : Nat} (ha : a < n) (h : ∀ k < fuel, stop ((a + k) % n) = false) :
    scan n stop a fuel = none := by
  induction fuel generalizing a with
  | zero => rfl
  | succ fuel ih =>
    have h0 := h 0 (Nat.succ_pos _)
    rw [Nat.add_zero, Nat.mod_eq_of_lt ha] at h0
    rw [scan, if_neg (by rw [h0]; decide)]
    refine ih (Nat.mod_lt _ (by omega)) fun k hk => ?_
    have := h (k + 1) (by omega)
    rwa [Nat.mod_add_mod, Nat.add_assoc, Nat.add_comm 1 k]

end Scan

/-! ### Clustered tables -/

section Clustered

variable {hash : α → Nat}

/-- Writing an element into an empty slot at the end of an occupied run from its hash's slot. -/
theorem Clustered.set_some (hc : Clustered hash t) (hq : t.getD i none = none)
    (hreach : Reach t (hash e % t.length) i) : Clustered hash (t.set i (some e)) := by
  have hocc : ∀ j, Occupied t j → Occupied (t.set i (some e)) j := fun j hj => by
    unfold Occupied at hj ⊢
    rw [getD_set]
    split_ifs <;> simp_all
  intro j e' hj
  rw [List.length_set]
  rw [getD_set] at hj
  split_ifs at hj with hij
  · cases hj
    rw [← hij.1]
    exact hreach.mono List.length_set hocc
  · exact (hc j e' hj).mono List.length_set hocc

/-- A probe from slot `s` that ended at the empty slot `q` without meeting an element satisfying
`P` has seen every element of hash slot `s`: none of them satisfies `P`. -/
theorem Clustered.not_of_scanned {P : α → Prop} (hc : Clustered hash t) {s q : Nat}
    (hs : s < t.length) (hq : t.getD q none = none) (hqlt : q < t.length)
    (hscanned : ∀ k < dist t.length s q, ∀ b, t.getD ((s + k) % t.length) none = some b → ¬P b)
    {p : Nat} {b : α} (hp : t.getD p none = some b) (hb : hash b % t.length = s) : ¬P b := by
  have hplt := lt_length_of_getD_eq_some hp
  have hreach := hc p b hp
  rw [hb] at hreach
  rcases Nat.lt_trichotomy (dist t.length s p) (dist t.length s q) with hlt | heq | hgt
  · -- the probe passed `p`
    have := hscanned _ hlt b
    rw [add_dist_mod hs hplt] at this
    exact this hp
  · have hpq : p = q := by
      have h1 := add_dist_mod hs hplt
      rw [heq, add_dist_mod hs hqlt] at h1
      exact h1.symm
    rw [hpq, hq] at hp
    cases hp
  · -- the run to `p` would pass the empty slot `q`
    have hocc := hreach.occupied hs hqlt hgt
    rw [Occupied, hq] at hocc
    cases hocc

end Clustered

/-! ### Deleting with a backward shift -/

/-- The invariant of the backward-shift loop with the hole at `hole`, every slot up to `j` looked
at: the hole still holds an element (it is emptied last); every slot after the hole up to `j`
holds one; every other element sits at the end of an occupied run from its hash's slot; and for
the elements looked at, that run does not pass the hole. -/
structure ShiftInv (hash : α → Nat) (t : List (Option α)) (hole j : Nat) : Prop where
  hole_lt : hole < t.length
  j_lt : j < t.length
  hole_occupied : Occupied t hole
  occupied : ∀ k, 0 < k → k ≤ dist t.length hole j → Occupied t ((hole + k) % t.length)
  reach : ∀ p e, p ≠ hole → t.getD p none = some e → Reach t (hash e % t.length) p
  before : ∀ p e, p ≠ hole → t.getD p none = some e →
    dist t.length hole p ≤ dist t.length hole j →
      dist t.length (hash e % t.length) p < dist t.length (hash e % t.length) hole

section Shift

variable {hash : α → Nat} {hole j z : Nat}

theorem ShiftInv.start (hc : Clustered hash t) (hi : i < t.length) (hocc : Occupied t i) :
    ShiftInv hash t i i := by
  refine ⟨hi, hi, hocc, fun k hk hle => ?_, fun p e _ hp => hc p e hp, fun p e hp _ hle => ?_⟩
  · rw [dist_self] at hle
    omega
  · rw [dist_self] at hle
    have := (dist_eq_zero_iff hi (lt_length_of_getD_eq_some ‹_›)).1 (Nat.le_zero.1 hle)
    exact absurd this.symm hp

/-- The slot looked at last holds an element. -/
theorem ShiftInv.occupied_j (h : ShiftInv hash t hole j) : Occupied t j := by
  by_cases h0 : dist t.length hole j = 0
  · rw [← (dist_eq_zero_iff h.hole_lt h.j_lt).1 h0]
    exact h.hole_occupied
  · have hocc := h.occupied _ (Nat.pos_of_ne_zero h0) (Nat.le_refl _)
    rwa [add_dist_mod h.hole_lt h.j_lt] at hocc

/-- An empty slot lies past the slots looked at. -/
theorem ShiftInv.dist_lt_of_empty (h : ShiftInv hash t hole j) (hz : t.getD z none = none)
    (hzlt : z < t.length) : dist t.length hole j < dist t.length hole z := by
  by_contra hle
  have hzne : z ≠ hole := fun hzh => by
    have := h.hole_occupied
    rw [Occupied, ← hzh, hz] at this
    cases this
  have hpos : 0 < dist t.length hole z := Nat.pos_of_ne_zero fun h0 =>
    hzne ((dist_eq_zero_iff h.hole_lt hzlt).1 h0).symm
  have hocc := h.occupied _ hpos (Nat.le_of_not_lt hle)
  rw [add_dist_mod h.hole_lt hzlt, Occupied, hz] at hocc
  cases hocc

/-- The next slot holds an element whose run, from its hash's slot `d`, does not pass the hole:
it stays, and the slots looked at grow by one. -/
theorem ShiftInv.keep (h : ShiftInv hash t hole j) (hz : t.getD z none = none)
    (hzlt : z < t.length) (hnext : t.getD ((j + 1) % t.length) none = some e)
    (hd : 0 < dist t.length hole (hash e % t.length) ∧
      dist t.length hole (hash e % t.length) ≤ dist t.length hole ((j + 1) % t.length)) :
    ShiftInv hash t hole ((j + 1) % t.length) := by
  have hn : 0 < t.length := Nat.lt_of_le_of_lt (Nat.zero_le _) h.hole_lt
  have hjz := h.dist_lt_of_empty hz hzlt
  have hzd := dist_lt h.hole_lt hzlt
  have hsucc := dist_succ h.hole_lt h.j_lt (by omega)
  have hj'lt : (j + 1) % t.length < t.length := Nat.mod_lt _ hn
  have hdlt : hash e % t.length < t.length := Nat.mod_lt _ hn
  refine ⟨h.hole_lt, hj'lt, h.hole_occupied, fun k hk hle => ?_, h.reach, fun p e' hp hpe hle => ?_⟩
  · rw [hsucc] at hle
    rcases Nat.lt_or_ge k (dist t.length hole j + 1) with hlt | hge
    · exact h.occupied k hk (by omega)
    · rw [show k = dist t.length hole j + 1 by omega, ← hsucc, add_dist_mod h.hole_lt hj'lt]
      exact occupied_of_getD_eq_some hnext
  · rw [hsucc] at hle
    rcases Nat.lt_or_ge (dist t.length hole j) (dist t.length hole p) with hgt | hle'
    · -- `p` is the slot just looked at: its run starts after the hole
      have hpj : p = (j + 1) % t.length := by
        have hplt := lt_length_of_getD_eq_some hpe
        have h1 := add_dist_mod h.hole_lt hplt
        rw [show dist t.length hole p = dist t.length hole ((j + 1) % t.length) by omega,
          add_dist_mod h.hole_lt hj'lt] at h1
        exact h1.symm
      subst hpj
      rw [hnext] at hpe
      cases hpe
      have hsplit := dist_add_dist h.hole_lt hj'lt hdlt hd.2
      have hdh : hash e % t.length ≠ hole := fun heq => by
        rw [heq, dist_self] at hd
        exact absurd hd.1 (Nat.lt_irrefl 0)
      have hswap := dist_add_dist_swap h.hole_lt hdlt (Ne.symm hdh)
      have := dist_lt h.hole_lt hj'lt
      omega
    · exact h.before p e' hp hpe hle'

/-- The next slot holds an element whose run passes the hole: it moves into the hole, and its old
slot is the new hole. -/
theorem ShiftInv.move (h : ShiftInv hash t hole j) (hz : t.getD z none = none)
    (hzlt : z < t.length) (hnext : t.getD ((j + 1) % t.length) none = some e)
    (hd : ¬(0 < dist t.length hole (hash e % t.length) ∧
      dist t.length hole (hash e % t.length) ≤ dist t.length hole ((j + 1) % t.length))) :
    ShiftInv hash (t.set hole (some e)) ((j + 1) % t.length) ((j + 1) % t.length) := by
  have hn : 0 < t.length := Nat.lt_of_le_of_lt (Nat.zero_le _) h.hole_lt
  have hjz := h.dist_lt_of_empty hz hzlt
  have hzd := dist_lt h.hole_lt hzlt
  have hsucc := dist_succ h.hole_lt h.j_lt (by omega)
  have hj'lt : (j + 1) % t.length < t.length := Nat.mod_lt _ hn
  have hdlt : hash e % t.length < t.length := Nat.mod_lt _ hn
  have hj'ne : (j + 1) % t.length ≠ hole := fun heq => by
    rw [heq, dist_self] at hsucc
    omega
  -- the hole held an element, so every slot holds one exactly where it did before
  have hocc : ∀ q, Occupied (t.set hole (some e)) q ↔ Occupied t q := fun q => by
    unfold Occupied
    rw [getD_set]
    split_ifs with hq
    · rw [← hq.1]
      exact iff_of_true rfl h.hole_occupied
    · exact Iff.rfl
  have hreach : ∀ {a b}, Reach (t.set hole (some e)) a b ↔ Reach t a b := fun {a b} =>
    ⟨Reach.mono List.length_set.symm fun q hq => (hocc q).1 hq,
      Reach.mono List.length_set fun q hq => (hocc q).2 hq⟩
  -- the element's run to its old slot passes the hole, so it reaches the hole
  have hrun : Reach t (hash e % t.length) hole := by
    refine (h.reach _ e hj'ne hnext).shorten ?_
    by_cases hdh : hash e % t.length = hole
    · rw [hdh, dist_self]
      exact Nat.zero_le _
    · have hswap := dist_add_dist_swap h.hole_lt hdlt (Ne.symm hdh)
      have hpos : 0 < dist t.length hole (hash e % t.length) := Nat.pos_of_ne_zero fun h0 =>
        hdh ((dist_eq_zero_iff h.hole_lt hdlt).1 h0).symm
      have hgt : dist t.length hole ((j + 1) % t.length) <
          dist t.length hole (hash e % t.length) := by omega
      have hsplit := dist_add_dist h.hole_lt hdlt hj'lt (Nat.le_of_lt hgt)
      have hswap' := dist_add_dist_swap hj'lt hdlt (fun heq => by rw [heq] at hgt; omega)
      have hpos' : 0 < dist t.length hole ((j + 1) % t.length) := by omega
      omega
  refine ⟨by rw [List.length_set]; exact hj'lt, by rw [List.length_set]; exact hj'lt,
    (hocc _).2 (occupied_of_getD_eq_some hnext), fun k hk hle => ?_, fun p e' hp hpe => ?_,
    fun p e' hp hpe hle => ?_⟩
  · rw [List.length_set, dist_self] at hle
    omega
  · rw [List.length_set]
    refine hreach.2 ?_
    rw [getD_set] at hpe
    split_ifs at hpe with hph
    · cases hpe
      rw [← hph.1]
      exact hrun
    · exact h.reach p e' (fun hp' => hph ⟨hp'.symm, h.hole_lt⟩) hpe
  · rw [List.length_set, dist_self] at hle
    have hplt : p < t.length := by
      have := lt_length_of_getD_eq_some hpe
      rwa [List.length_set] at this
    exact absurd ((dist_eq_zero_iff hj'lt hplt).1 (Nat.le_zero.1 hle)).symm hp

/-- The next slot is empty: emptying the hole leaves a clustered table. -/
theorem ShiftInv.finish (h : ShiftInv hash t hole j)
    (hnext : t.getD ((j + 1) % t.length) none = none) : Clustered hash (t.set hole none) := by
  have hn : 0 < t.length := Nat.lt_of_le_of_lt (Nat.zero_le _) h.hole_lt
  have hj'lt : (j + 1) % t.length < t.length := Nat.mod_lt _ hn
  have hjz := h.dist_lt_of_empty hnext hj'lt
  have hsucc := dist_succ h.hole_lt h.j_lt (Nat.lt_of_le_of_lt hjz (dist_lt h.hole_lt hj'lt))
  intro p e' hpe
  rw [getD_set] at hpe
  by_cases hph : hole = p ∧ hole < t.length
  · rw [if_pos hph] at hpe
    cases hpe
  rw [if_neg hph] at hpe
  have hp : p ≠ hole := fun hp' => hph ⟨hp'.symm, h.hole_lt⟩
  have hplt := lt_length_of_getD_eq_some hpe
  have hdlt : hash e' % t.length < t.length := Nat.mod_lt _ hn
  -- the run to `p` does not pass the hole
  have hbefore : dist t.length (hash e' % t.length) p < dist t.length (hash e' % t.length) hole := by
    by_cases hle : dist t.length hole p ≤ dist t.length hole j
    · exact h.before p e' hp hpe hle
    · -- a run that passed the hole would pass the empty slot after `j` too
      by_contra hge
      have hpj : p ≠ (j + 1) % t.length := fun heq => by rw [heq, hnext] at hpe; cases hpe
      have hgt : dist t.length hole ((j + 1) % t.length) < dist t.length hole p := by
        rcases Nat.lt_or_ge (dist t.length hole ((j + 1) % t.length)) (dist t.length hole p)
          with hlt | hge'
        · exact hlt
        · exfalso
          have : dist t.length hole p = dist t.length hole ((j + 1) % t.length) := by omega
          apply hpj
          have h1 := add_dist_mod h.hole_lt hplt
          rw [this, add_dist_mod h.hole_lt hj'lt] at h1
          exact h1.symm
      have hholep : dist t.length (hash e' % t.length) hole ≤
          dist t.length (hash e' % t.length) p := Nat.le_of_not_lt hge
      have hsplit := dist_add_dist hdlt hplt h.hole_lt hholep
      have hocc := h.reach p e' hp hpe (dist t.length (hash e' % t.length) hole +
        dist t.length hole ((j + 1) % t.length)) (by omega)
      rw [add_dist_add_mod hdlt h.hole_lt, add_dist_mod h.hole_lt hj'lt, Occupied,
        hnext] at hocc
      cases hocc
  intro k hk
  rw [List.length_set] at hk ⊢
  unfold Occupied
  rw [getD_set, if_neg]
  · exact h.reach p e' hp hpe k hk
  · rintro ⟨hhole, -⟩
    have := dist_add_mod hdlt (Nat.lt_of_lt_of_le hk (Nat.le_of_lt (dist_lt hdlt hplt)))
    rw [← hhole] at this
    omega

end Shift

/-! ### The elements -/

theorem mem_elems_iff {t : List (Option α)} {x : α} :
    x ∈ elems t ↔ ∃ p, t.getD p none = some x := by
  rw [elems, List.mem_filterMap]
  simp only [id_eq, exists_eq_right, List.getD_eq_getElem?_getD]
  rw [List.mem_iff_getElem?]
  constructor
  · rintro ⟨p, hp⟩
    exact ⟨p, by rw [hp]; rfl⟩
  · rintro ⟨p, hp⟩
    refine ⟨p, ?_⟩
    -- a slot past the end reads as empty
    cases h : t[p]? with
    | none => rw [h] at hp; cases hp
    | some y => rw [h] at hp; exact congrArg some hp

theorem length_elems_le : ∀ t : List (Option α), (elems t).length ≤ t.length
  | [] => Nat.le_refl 0
  | none :: t => by
    rw [elems_cons_none, List.length_cons]
    exact Nat.le_succ_of_le (length_elems_le t)
  | some _ :: t => by
    rw [elems_cons_some, List.length_cons, List.length_cons]
    exact Nat.succ_le_succ (length_elems_le t)

/-- A table with fewer elements than slots has an empty slot. -/
theorem exists_empty_of_length_lt : ∀ {t : List (Option α)}, (elems t).length < t.length →
    ∃ z, t.getD z none = none ∧ z < t.length
  | [], h => absurd h (Nat.not_lt_zero _)
  | none :: _, _ => ⟨0, rfl, Nat.succ_pos _⟩
  | some _ :: t, h => by
    rw [elems_cons_some, List.length_cons, List.length_cons] at h
    obtain ⟨z, hz, hzlt⟩ := exists_empty_of_length_lt (t := t) (Nat.lt_of_succ_lt_succ h)
    exact ⟨z + 1, hz, Nat.succ_lt_succ hzlt⟩

@[simp] theorem elems_replicate_none (m : Nat) :
    elems (List.replicate m (none : Option α)) = [] := by
  induction m with
  | zero => rfl
  | succ m ih => rw [List.replicate_succ, elems_cons_none, ih]

theorem clustered_replicate_none (hash : α → Nat) (m : Nat) :
    Clustered hash (List.replicate m (none : Option α)) := by
  intro i e h
  rw [List.getD_eq_getElem?_getD, List.getElem?_replicate] at h
  split_ifs at h <;> cases h

theorem elems_set_some_perm : ∀ {t : List (Option α)} {i : Nat}, t.getD i none = none →
    i < t.length → (elems (t.set i (some e))).Perm (e :: elems t)
  | [], _, _, hi => absurd hi (Nat.not_lt_zero _)
  | x :: t, 0, hx, _ => by
    cases hx
    rw [List.set_cons_zero, elems_cons_some, elems_cons_none]
  | x :: t, i + 1, hx, hi => by
    have ih := elems_set_some_perm (t := t) (i := i) hx (Nat.lt_of_succ_lt_succ hi)
    rw [List.set_cons_succ]
    cases x with
    | none => rwa [elems_cons_none, elems_cons_none]
    | some y =>
      rw [elems_cons_some, elems_cons_some]
      exact (ih.cons y).trans (List.Perm.swap e y _)

theorem elems_set_none_perm : ∀ {t : List (Option α)} {i : Nat}, t.getD i none = some e →
    (e :: elems (t.set i none)).Perm (elems t)
  | [], _, hx => by cases hx
  | x :: t, 0, hx => by
    cases hx
    rw [List.set_cons_zero, elems_cons_none, elems_cons_some]
  | x :: t, i + 1, hx => by
    have ih := elems_set_none_perm (t := t) (i := i) hx
    rw [List.set_cons_succ]
    cases x with
    | none => rwa [elems_cons_none, elems_cons_none]
    | some y =>
      rw [elems_cons_some, elems_cons_some]
      exact (List.Perm.swap y e _).trans (ih.cons y)

theorem elems_drop_of_getD_some (h : t.getD i none = some e) :
    elems (t.drop i) = e :: elems (t.drop (i + 1)) := by
  have hi := lt_length_of_getD_eq_some h
  rw [List.getD_eq_getElem _ _ hi] at h
  rw [List.drop_eq_getElem_cons hi, h, elems_cons_some]

theorem elems_drop_of_getD_none (h : t.getD i none = none) :
    elems (t.drop i) = elems (t.drop (i + 1)) := by
  by_cases hi : i < t.length
  · rw [List.getD_eq_getElem _ _ hi] at h
    rw [List.drop_eq_getElem_cons hi, h, elems_cons_none]
  · rw [List.drop_eq_nil_of_le (Nat.le_of_not_lt hi),
      List.drop_eq_nil_of_le (Nat.le_succ_of_le (Nat.le_of_not_lt hi))]

/-- Empty slots between `i` and `j` hold nothing, so dropping them leaves the same elements. -/
theorem elems_drop_of_free {j : Nat} (hij : i ≤ j)
    (hfree : ∀ k, i ≤ k → k < j → t.getD k none = none) :
    elems (t.drop i) = elems (t.drop j) := by
  obtain ⟨d, rfl⟩ := Nat.exists_eq_add_of_le hij
  induction d with
  | zero => rfl
  | succ d ih =>
    rw [ih (Nat.le_add_right i d) fun k hik hkj => hfree k hik (by omega), ← Nat.add_assoc,
      elems_drop_of_getD_none (hfree (i + d) (Nat.le_add_right i d) (by omega))]

end LinearProbe
