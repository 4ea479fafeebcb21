import Mathlib.Logic.Equiv.Basic

/-!
# Sequential code for a parallel assignment

A parallel assignment writes, at once, each destination with the value its source held before
(`parallel`). Sequential code for it is a list of moves and swaps (`Instr`); after a swap of `a`
and `b` the state is the old one read through `Equiv.swap a b`.

`Progress` is the invariant of a resolver that emits such code one instruction at a time. The
moves still to do are the `live` indices; each reads its value from its current source. Every
location that no live move writes already holds its final value. The invariant survives three
steps:
- a move whose destination no other live move reads (`Progress.move`);
- a swap of a move's source and destination, where the source is the destination of another live
  move (`Progress.swap`; every source is then renamed through the swap);
- dropping a move whose source is its destination (`Progress.drop`).

With no live move left, the state is the target (`Progress.eq_target`).
-/

namespace ParallelAssignment

variable {α V : Type} [DecidableEq α]

/-- One instruction of the sequential code. -/
inductive Instr (α : Type) where
  | move (source destination : α)
  | swap (a b : α)
deriving DecidableEq, Repr

/-- The state after one instruction. -/
def Instr.exec (σ : α → V) : Instr α → α → V
  | .move source destination => Function.update σ destination (σ source)
  | .swap a b => σ ∘ Equiv.swap a b

/-- The state after the code, from `σ`. -/
def exec (σ : α → V) (code : List (Instr α)) : α → V := code.foldl Instr.exec σ

@[simp] theorem exec_nil (σ : α → V) : exec σ [] = σ := rfl

@[simp] theorem exec_append (σ : α → V) (code code' : List (Instr α)) :
    exec σ (code ++ code') = exec (exec σ code) code' := List.foldl_append

@[simp] theorem exec_singleton (σ : α → V) (i : Instr α) : exec σ [i] = i.exec σ := rfl

/-- The parallel assignment of `moves`, pairs of a source and a destination: a destination gets
what the first move that writes it reads; every other location keeps its value. -/
def parallel (moves : List (α × α)) (σ : α → V) (x : α) : V :=
  match moves.find? (fun m => m.2 = x) with
  | some m => σ m.1
  | none => σ x

theorem parallel_cons (m : α × α) (moves : List (α × α)) (σ : α → V) (x : α) :
    parallel (m :: moves) σ x = if m.2 = x then σ m.1 else parallel moves σ x := by
  by_cases h : m.2 = x <;> simp [parallel, List.find?_cons, h]

/-- With distinct destinations, a destination gets the value of its own move's source. -/
theorem parallel_of_mem {moves : List (α × α)} (hnd : (moves.map Prod.snd).Nodup) {s d : α}
    (h : (s, d) ∈ moves) (σ : α → V) : parallel moves σ d = σ s := by
  induction moves with
  | nil => cases h
  | cons m rest ih =>
    obtain ⟨hm, hrest⟩ := List.nodup_cons.1 hnd
    rcases List.mem_cons.1 h with rfl | h'
    · simp [parallel]
    · -- the head move writes another location
      have hne : m.2 ≠ d := fun he => hm (List.mem_map.2 ⟨(s, d), h', he.symm⟩)
      simpa [parallel, hne] using ih hrest h'

/-- A location that no move writes keeps its value. -/
theorem parallel_of_forall_ne {moves : List (α × α)} {x : α} (h : ∀ m ∈ moves, m.2 ≠ x)
    (σ : α → V) : parallel moves σ x = σ x := by
  have : moves.find? (fun m => m.2 = x) = none := by
    simpa [List.find?_eq_none] using h
  simp [parallel, this]

/-- Moves from a location to itself can be dropped. -/
theorem parallel_filter {moves : List (α × α)} (hnd : (moves.map Prod.snd).Nodup)
    {p : α × α → Bool} (hp : ∀ m ∈ moves, p m = false → m.1 = m.2) (σ : α → V) :
    parallel (moves.filter p) σ = parallel moves σ := by
  induction moves with
  | nil => rfl
  | cons m rest ih =>
    obtain ⟨hm, hrest⟩ := List.nodup_cons.1 hnd
    have ih' := ih hrest fun m' hm' => hp m' (List.mem_cons_of_mem _ hm')
    funext x
    by_cases hpm : p m = true
    · rw [List.filter_cons_of_pos hpm, parallel_cons, parallel_cons, ih']
    · rw [List.filter_cons_of_neg hpm, ih', parallel_cons]
      split_ifs with hx
      · -- `m` reads the location it writes, which no other move writes
        rw [hp m (List.mem_cons_self ..) (by simpa using hpm), hx]
        exact parallel_of_forall_ne (fun m' hm' he => hm (List.mem_map.2 ⟨m', hm', he.trans hx.symm⟩)) σ
      · rfl

variable {ι : Type} {target : α → V} {src src' dst : ι → α} {val : ι → V}
  {live live' : ι → Prop} {σ : α → V}

/-- `σ` is on its way to `target`: every live move reads its value `val` from its source `src`, and
every location that no live move writes holds its target. -/
structure Progress (target : α → V) (src dst : ι → α) (val : ι → V) (live : ι → Prop)
    (σ : α → V) : Prop where
  reads : ∀ i, live i → σ (src i) = val i
  settled : ∀ x, (∀ i, live i → dst i ≠ x) → σ x = target x

omit [DecidableEq α] in
/-- Only the live moves and their sources matter. -/
theorem Progress.congr (h : Progress target src dst val live σ) (hlive : ∀ i, live' i ↔ live i)
    (hsrc : ∀ i, live i → src' i = src i) : Progress target src' dst val live' σ where
  reads i hi := by
    have hi' := (hlive i).1 hi
    rw [hsrc i hi']
    exact h.reads i hi'
  settled x hx := h.settled x fun i hi => hx i ((hlive i).2 hi)

omit [DecidableEq α] in
/-- A location that neither `k` nor another live move writes holds its target. -/
theorem Progress.settled_of_ne (h : Progress target src dst val live σ) {k : ι} {x : α}
    (hxk : x ≠ dst k) (hx : ∀ i, live i ∧ i ≠ k → dst i ≠ x) : σ x = target x :=
  h.settled x fun i hi => by
    by_cases hik : i = k
    · subst hik
      exact Ne.symm hxk
    · exact hx i ⟨hi, hik⟩

section step

variable {k : ι} (h : Progress target src dst val live σ) (hk : live k)
  (ht : target (dst k) = val k)
include h hk ht

/-- Moving `k` once no other live move reads its destination. -/
theorem Progress.move (hfree : ∀ i, live i → i ≠ k → src i ≠ dst k) :
    Progress target src dst val (fun i => live i ∧ i ≠ k)
      ((Instr.move (src k) (dst k)).exec σ) where
  reads i hi := by
    rw [Instr.exec, Function.update_of_ne (hfree i hi.1 hi.2)]
    exact h.reads i hi.1
  settled x hx := by
    by_cases hxk : x = dst k
    · subst hxk
      rw [Instr.exec, Function.update_self, h.reads k hk, ht]
    · rw [Instr.exec, Function.update_of_ne hxk]
      exact h.settled_of_ne hxk hx

/-- Swapping `k`'s source and destination, where the source is what another live move writes:
`k` is done, and every other move reads its value at its source renamed through the swap. -/
theorem Progress.swap (hcycle : ∃ j, live j ∧ j ≠ k ∧ dst j = src k) :
    Progress target (fun i => Equiv.swap (src k) (dst k) (src i)) dst val
      (fun i => live i ∧ i ≠ k) ((Instr.swap (src k) (dst k)).exec σ) where
  reads i hi := by
    simp only [Instr.exec, Function.comp_apply, Equiv.swap_apply_self]
    exact h.reads i hi.1
  settled x hx := by
    obtain ⟨j, hj, hjk, hdj⟩ := hcycle
    -- the source of `k` is still written by `j`, so `x` is not it
    have hxs : x ≠ src k := fun he => hx j ⟨hj, hjk⟩ (hdj.trans he.symm)
    by_cases hxk : x = dst k
    · subst hxk
      simp only [Instr.exec, Function.comp_apply, Equiv.swap_apply_right]
      rw [h.reads k hk, ht]
    · simp only [Instr.exec, Function.comp_apply, Equiv.swap_apply_of_ne_of_ne hxs hxk]
      exact h.settled_of_ne hxk hx

/-- Dropping `k` when it reads its own destination. -/
theorem Progress.drop (hsame : src k = dst k) :
    Progress target src dst val (fun i => live i ∧ i ≠ k) σ where
  reads i hi := h.reads i hi.1
  settled x hx := by
    by_cases hxk : x = dst k
    · subst hxk
      calc σ (dst k) = σ (src k) := by rw [hsame]
        _ = val k := h.reads k hk
        _ = target (dst k) := ht.symm
    · exact h.settled_of_ne hxk hx

end step

omit [DecidableEq α] in
/-- With no live move left, the state is the target. -/
theorem Progress.eq_target (h : Progress target src dst val live σ) (hnone : ∀ i, ¬live i) :
    σ = target :=
  funext fun x => h.settled x fun i hi => absurd hi (hnone i)

end ParallelAssignment
