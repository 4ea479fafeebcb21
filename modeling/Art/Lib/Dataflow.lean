import Mathlib.Data.Finset.Basic

/-!
# Backward dataflow problems and the loops that solve them

A loop `do { changed = pass(); } while (changed)` is `ChangedLoop.run pass fuel`, `none` where
`fuel` passes do not suffice. `run_inv` is its invariant rule: the result is what a pass that
reported no change returned, from a state where the invariant held. `run_isSome` bounds the passes:
where a pass that reports a change raises a measure that the invariant bounds by `B`, `B + 1`
passes suffice.

A backward gen/kill problem over blocks `β` asks for sets `liveIn` and `liveOut` of elements `α`,
above given initial sets, such that what is live out of a block holds what is live into each of
its successors, and what is live into a block holds what is live out of it and not killed in it
(`Solves`). The least solution (`IsLeastSolution`) satisfies the two conditions as equations
(`IsLeastSolution.mem_liveOut`, `IsLeastSolution.mem_liveIn`).
-/

namespace ChangedLoop

variable {σ : Type} (pass : σ → σ × Bool)

/-- `do { (s, changed) = pass(s); } while (changed)`, for at most `fuel` passes. -/
def run : Nat → σ → Option σ
  | 0, _ => none
  | fuel + 1, s => if (pass s).2 then run fuel (pass s).1 else some (pass s).1

variable {pass} (I : σ → Prop)

/-- The result of the loop is what a pass that reported no change returned, from a state where an
invariant of the passes held. -/
theorem run_inv (hpass : ∀ s, I s → I (pass s).1) :
    ∀ {fuel : Nat} {s r : σ}, I s → run pass fuel s = some r → ∃ s₀, I s₀ ∧ pass s₀ = (r, false)
  | 0, _, _, _, h => by cases h
  | fuel + 1, s, r, hs, h => by
    rw [run] at h
    split_ifs at h with hc
    · exact run_inv hpass (hpass s hs) h
    · cases h
      exact ⟨s, hs, Prod.ext rfl (by simpa using hc)⟩

/-- A pass that reports a change raises a measure bounded by `B` on the invariant: from a state
of measure `μ s`, more than `B - μ s` passes end the loop. -/
theorem run_isSome (hpass : ∀ s, I s → I (pass s).1) (μ : σ → Nat) {B : Nat}
    (hB : ∀ s, I s → μ s ≤ B) (hgrow : ∀ s, I s → (pass s).2 = true → μ s < μ (pass s).1) :
    ∀ {fuel : Nat} {s : σ}, I s → B < fuel + μ s → ∃ r, run pass fuel s = some r
  | 0, s, hs, hfuel => absurd (hB s hs) (by omega)
  | fuel + 1, s, hs, hfuel => by
    rw [run]
    split_ifs with hc
    · -- the pass raised the measure by at least one
      have := hgrow s hs hc
      exact run_isSome hpass μ hB hgrow (hpass s hs) (by omega)
    · exact ⟨_, rfl⟩

end ChangedLoop

namespace Dataflow

variable {β α : Type} [DecidableEq α] (successors : β → List β) (kill initIn initOut : β → Finset α)

/-- Sets above the initial ones that solve the backward problem. -/
structure Solves (liveIn liveOut : β → Finset α) : Prop where
  initIn_subset : ∀ b, initIn b ⊆ liveIn b
  initOut_subset : ∀ b, initOut b ⊆ liveOut b
  succ_subset : ∀ b, ∀ s ∈ successors b, liveIn s ⊆ liveOut b
  sdiff_subset : ∀ b, liveOut b \ kill b ⊆ liveIn b

/-- The solution below every solution. -/
structure IsLeastSolution (liveIn liveOut : β → Finset α) : Prop where
  solves : Solves successors kill initIn initOut liveIn liveOut
  least : ∀ liveIn' liveOut', Solves successors kill initIn initOut liveIn' liveOut' →
    (∀ b, liveIn b ⊆ liveIn' b) ∧ ∀ b, liveOut b ⊆ liveOut' b

variable {successors kill initIn initOut} {liveIn liveOut : β → Finset α}

theorem Solves.mem_liveOut (h : Solves successors kill initIn initOut liveIn liveOut) {b : β}
    {x : α} (hx : x ∈ initOut b ∨ ∃ s ∈ successors b, x ∈ liveIn s) : x ∈ liveOut b := by
  rcases hx with hx | ⟨s, hs, hx⟩
  exacts [h.initOut_subset b hx, h.succ_subset b s hs hx]

theorem Solves.mem_liveIn (h : Solves successors kill initIn initOut liveIn liveOut)
    {b : β} {x : α} (hx : x ∈ initIn b ∨ (x ∈ liveOut b ∧ x ∉ kill b)) : x ∈ liveIn b := by
  rcases hx with hx | ⟨hx, hk⟩
  exacts [h.initIn_subset b hx, h.sdiff_subset b (Finset.mem_sdiff.2 ⟨hx, hk⟩)]

/-- The least solution keeps only what the equations bring in: cut down to those elements, it is
still a solution. -/
theorem IsLeastSolution.justified (h : IsLeastSolution successors kill initIn initOut liveIn liveOut)
    {b : β} {x : α} :
    (x ∈ liveOut b → x ∈ initOut b ∨ ∃ s ∈ successors b, x ∈ liveIn s) ∧
      (x ∈ liveIn b → x ∈ initIn b ∨ (x ∈ liveOut b ∧ x ∉ kill b)) := by
  -- the solution cut down to the elements the equations justify
  let liveOut' : β → Finset α := fun b =>
    (liveOut b).filter fun x => x ∈ initOut b ∨ ∃ s ∈ successors b, x ∈ liveIn s
  let liveIn' : β → Finset α := fun b =>
    (liveIn b).filter fun x => x ∈ initIn b ∨ (x ∈ liveOut' b ∧ x ∉ kill b)
  have hsolves : Solves successors kill initIn initOut liveIn' liveOut' := by
    refine ⟨fun b x hx => ?_, fun b x hx => ?_, fun b s hs x hx => ?_, fun b x hx => ?_⟩
    · exact Finset.mem_filter.2 ⟨h.solves.initIn_subset b hx, Or.inl hx⟩
    · exact Finset.mem_filter.2 ⟨h.solves.initOut_subset b hx, Or.inl hx⟩
    · have hx' := (Finset.mem_filter.1 hx).1
      exact Finset.mem_filter.2 ⟨h.solves.succ_subset b s hs hx', Or.inr ⟨s, hs, hx'⟩⟩
    · obtain ⟨hout, hk⟩ := Finset.mem_sdiff.1 hx
      have hin := h.solves.mem_liveIn (Or.inr ⟨(Finset.mem_filter.1 hout).1, hk⟩)
      exact Finset.mem_filter.2 ⟨hin, Or.inr ⟨hout, hk⟩⟩
  obtain ⟨hin, hout⟩ := h.least liveIn' liveOut' hsolves
  refine ⟨fun hx => (Finset.mem_filter.1 (hout b hx)).2, fun hx => ?_⟩
  rcases (Finset.mem_filter.1 (hin b hx)).2 with hx' | ⟨hx', hk⟩
  exacts [Or.inl hx', Or.inr ⟨(Finset.mem_filter.1 hx').1, hk⟩]

/-- What is live out of a block, in the least solution: its initial set and what is live into a
successor. -/
theorem IsLeastSolution.mem_liveOut
    (h : IsLeastSolution successors kill initIn initOut liveIn liveOut) {b : β} {x : α} :
    x ∈ liveOut b ↔ x ∈ initOut b ∨ ∃ s ∈ successors b, x ∈ liveIn s :=
  ⟨h.justified.1, h.solves.mem_liveOut⟩

/-- What is live into a block, in the least solution: its initial set and what is live out of it
and not killed in it. -/
theorem IsLeastSolution.mem_liveIn
    (h : IsLeastSolution successors kill initIn initOut liveIn liveOut) {b : β} {x : α} :
    x ∈ liveIn b ↔ x ∈ initIn b ∨ (x ∈ liveOut b ∧ x ∉ kill b) :=
  ⟨h.justified.2, h.solves.mem_liveIn⟩

end Dataflow
