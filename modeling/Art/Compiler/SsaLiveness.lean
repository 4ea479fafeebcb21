import Art.Base.BitVectorSet
import Art.Lib.Dataflow
import Mathlib.Algebra.Order.BigOperators.Group.Finset
import Mathlib.Data.Fintype.Card
import Mathlib.Algebra.Group.Action.Defs

/-!
# The live-in and live-out sets (`SsaLivenessAnalysis::ComputeLiveInAndLiveOutSets`)

`ComputeLiveRanges` leaves each block with its kill set (the SSA values it defines), a live-in set
computed along the linear order without the back edges, and an empty live-out set.
`ComputeLiveInAndLiveOutSets` then makes passes over the post order until a pass changes no
live-in set: `UpdateLiveOut` joins the successors' live-in sets into a block's live-out set, and,
only where that changed it, `UpdateLiveIn` joins the live-out values the block does not kill into
its live-in set.

The sets are `BitVector`s. Read as finite sets (`BlockInfo.view`), a pass on vectors within the
`BitVector` bound does what `absPass` does on the sets (`computeLiveInAndLiveOutSetsPass_refines`).
On the sets, every pass keeps the sets between those it started from and every solution of the
liveness equations above them (`Bounds`), and a pass that changed a live-in set grew their total
size. So from sets whose live-out values not killed are live in, the loop ends within a bounded
number of passes, with the least solution of the equations above the sets it started from
(`computeLiveInAndLiveOutSets_least`): a value is live out of a block exactly when it is live into
a successor or was live out already, and live into a block exactly when it is live out of it and
not defined in it, or was live in already.
-/

namespace Art

namespace SsaLiveness

open BitVector

/-- `BlockInfo`: the live-in, live-out and kill sets of a block, over SSA indices. -/
structure BlockInfo where
  liveIn : BitVector
  liveOut : BitVector
  kill : BitVector

variable {β : Type} [DecidableEq β]

/-! ### The model -/

/-- `UpdateLiveOut(block)`: each successor's live-in set joined into the block's live-out set, and
whether one of the unions changed it. -/
def updateLiveOut (successors : β → List β) (infos : β → BlockInfo) (block : β) :
    (β → BlockInfo) × Bool :=
  let r := (successors block).foldl
    (fun (acc : BitVector × Bool) successor =>
      let u := acc.1.union (infos successor).liveIn
      (u.1, acc.2 || u.2))
    ((infos block).liveOut, false)
  (Function.update infos block { infos block with liveOut := r.1 }, r.2)

/-- `UpdateLiveIn(block)`: the block's live-out values that it does not kill joined into its
live-in set, and whether that changed it. -/
def updateLiveIn (infos : β → BlockInfo) (block : β) : (β → BlockInfo) × Bool :=
  let u := (infos block).liveIn.unionIfNotIn (infos block).liveOut (infos block).kill
  (Function.update infos block { infos block with liveIn := u.1 }, u.2)

/-- The body of the loop over the post order: `UpdateLiveIn` runs only where `UpdateLiveOut`
changed the live-out set, and the pass has changed something where both did. -/
def passStep (successors : β → List β) (acc : (β → BlockInfo) × Bool) (block : β) :
    (β → BlockInfo) × Bool :=
  let out := updateLiveOut successors acc.1 block
  if out.2 then
    let inn := updateLiveIn out.1 block
    (inn.1, acc.2 || inn.2)
  else (out.1, acc.2)

/-- One pass of `ComputeLiveInAndLiveOutSets` over the post order, and whether it changed a
live-in set. -/
def computeLiveInAndLiveOutSetsPass (successors : β → List β) (postOrder : List β)
    (infos : β → BlockInfo) : (β → BlockInfo) × Bool :=
  postOrder.foldl (passStep successors) (infos, false)

/-- `ComputeLiveInAndLiveOutSets()`: passes until one changes nothing; `none` where `fuel` passes
do not suffice. -/
def computeLiveInAndLiveOutSets (successors : β → List β) (postOrder : List β) (fuel : Nat)
    (infos : β → BlockInfo) : Option (β → BlockInfo) :=
  ChangedLoop.run (computeLiveInAndLiveOutSetsPass successors postOrder) fuel infos

/-! ### The passes on sets -/

/-- The live-in and live-out sets of a block. -/
structure LiveSets where
  liveIn : Finset ℕ
  liveOut : Finset ℕ

variable (successors : β → List β) (kill : β → Finset ℕ)

/-- A block's live-out set joined with its successors' live-in sets. -/
def joinSuccessors (S : β → LiveSets) (block : β) : Finset ℕ :=
  (S block).liveOut ∪ (successors block).toFinset.biUnion fun s => (S s).liveIn

/-- `UpdateLiveOut` then `UpdateLiveIn` of a block, on the sets. -/
def blockStep (S : β → LiveSets) (block : β) : β → LiveSets :=
  Function.update S block
    ⟨(S block).liveIn ∪ (joinSuccessors successors S block \ kill block),
      joinSuccessors successors S block⟩

/-- The body of a pass on the sets: whether the block's live-in set changed. -/
def absPassStep (acc : (β → LiveSets) × Bool) (block : β) : (β → LiveSets) × Bool :=
  (blockStep successors kill acc.1 block,
    acc.2 || decide ((blockStep successors kill acc.1 block block).liveIn ≠ (acc.1 block).liveIn))

/-- A pass on the sets over the post order. -/
def absPass (postOrder : List β) (S : β → LiveSets) : (β → LiveSets) × Bool :=
  postOrder.foldl (absPassStep successors kill) (S, false)

/-- Live-out values not killed are live in: what `UpdateLiveIn` restores after each change of the
live-out set. -/
def Inv (S : β → LiveSets) : Prop := ∀ b, (S b).liveOut \ kill b ⊆ (S b).liveIn

variable {successors kill}

theorem mem_joinSuccessors {S : β → LiveSets} {block : β} {x : ℕ} :
    x ∈ joinSuccessors successors S block ↔
      x ∈ (S block).liveOut ∨ ∃ s ∈ successors block, x ∈ (S s).liveIn := by
  simp [joinSuccessors]

@[simp] theorem blockStep_self (S : β → LiveSets) (block : β) :
    blockStep successors kill S block block =
      ⟨(S block).liveIn ∪ (joinSuccessors successors S block \ kill block),
        joinSuccessors successors S block⟩ :=
  Function.update_self ..

@[simp] theorem blockStep_of_ne (S : β → LiveSets) {block c : β} (h : c ≠ block) :
    blockStep successors kill S block c = S c :=
  Function.update_of_ne h ..

variable (successors kill) in
/-- A block step only adds values. -/
theorem subset_blockStep (S : β → LiveSets) (block c : β) :
    (S c).liveIn ⊆ (blockStep successors kill S block c).liveIn ∧
      (S c).liveOut ⊆ (blockStep successors kill S block c).liveOut := by
  by_cases hc : c = block
  · subst hc
    rw [blockStep_self]
    exact ⟨Finset.subset_union_left, Finset.subset_union_left⟩
  · rw [blockStep_of_ne S hc]
    exact ⟨subset_rfl, subset_rfl⟩

theorem Inv.blockStep {S : β → LiveSets} (h : Inv kill S) (block : β) :
    Inv kill (blockStep successors kill S block) := by
  intro c
  by_cases hc : c = block
  · subst hc
    rw [blockStep_self]
    exact Finset.subset_union_right
  · rw [blockStep_of_ne S hc]
    exact h c

/-! ### One pass on the vectors is one pass on the sets -/

/-- The three vectors of a block within the `BitVector` bound. -/
def BlockInfo.Fits (info : BlockInfo) : Prop :=
  info.liveIn.Fits ∧ info.liveOut.Fits ∧ info.kill.Fits

/-- The sets a block's vectors hold. -/
def BlockInfo.view (info : BlockInfo) : LiveSets := ⟨info.liveIn.elems, info.liveOut.elems⟩

variable (kill) in
/-- Vectors within the bound that hold the sets `S` and the kill sets `kill`. -/
structure Refines (infos : β → BlockInfo) (S : β → LiveSets) : Prop where
  fits : ∀ b, (infos b).Fits
  kill_elems : ∀ b, (infos b).kill.elems = kill b
  view : (fun b => (infos b).view) = S

/-- Where a union grows a set in steps, the last differs from the first exactly when a step
changed it. -/
theorem ne_or_ne_iff {a b c : Finset ℕ} (hab : a ⊆ b) (hbc : b ⊆ c) :
    (b ≠ a ∨ c ≠ b) ↔ c ≠ a := by
  constructor
  · rintro (h | h) rfl
    exacts [h (Finset.Subset.antisymm hbc hab), h (Finset.Subset.antisymm hab hbc)]
  · intro h
    by_contra hne
    rw [not_or, not_not, not_not] at hne
    exact h (hne.2.trans hne.1)

/-- The loop of `UpdateLiveOut` joins the successors' live-in sets into the vector and reports
whether it changed. -/
theorem foldl_union_elems {infos : β → BlockInfo} (hfits : ∀ b, (infos b).Fits) :
    ∀ (l : List β) (acc : BitVector × Bool), acc.1.Fits →
      let r := l.foldl (fun (acc : BitVector × Bool) successor =>
        let u := acc.1.union (infos successor).liveIn
        (u.1, acc.2 || u.2)) acc
      r.1.Fits ∧ r.1.elems = acc.1.elems ∪ l.toFinset.biUnion (fun s => (infos s).liveIn.elems) ∧
        (r.2 = true ↔ acc.2 = true ∨ r.1.elems ≠ acc.1.elems)
  | [], acc, hacc => by simp [hacc]
  | s :: l, acc, hacc => by
    obtain ⟨-, hu, -⟩ := union_spec hacc (hfits s).1
    have helems := elems_union hacc (hfits s).1
    have hchanged := union_changed_iff hacc (hfits s).1
    obtain ⟨hr, hrelems, hrchanged⟩ := foldl_union_elems hfits l
      ((acc.1.union (infos s).liveIn).1, acc.2 || (acc.1.union (infos s).liveIn).2) hu
    refine ⟨hr, ?_, ?_⟩
    · rw [List.foldl_cons, hrelems, helems, List.toFinset_cons, Finset.biUnion_insert,
        Finset.union_assoc]
    · rw [List.foldl_cons, hrchanged, Bool.or_eq_true, hchanged, or_assoc, helems]
      rw [helems] at hrelems
      -- the set only grows: first `acc`, then the union with `s`, then the rest
      rw [ne_or_ne_iff Finset.subset_union_left (hrelems ▸ Finset.subset_union_left)]

variable (successors) in
/-- `UpdateLiveOut` on the vectors is the join of the successors' sets into the block's
live-out set, and reports whether it changed. -/
theorem updateLiveOut_refines {infos : β → BlockInfo} {S : β → LiveSets}
    (h : Refines kill infos S) (block : β) :
    Refines kill (updateLiveOut successors infos block).1
        (Function.update S block ⟨(S block).liveIn, joinSuccessors successors S block⟩) ∧
      ((updateLiveOut successors infos block).2 = true ↔
        joinSuccessors successors S block ≠ (S block).liveOut) := by
  obtain ⟨hfits, hkill, rfl⟩ := h
  obtain ⟨hr, hrelems, hrchanged⟩ :=
    foldl_union_elems hfits (successors block) ((infos block).liveOut, false) (hfits block).2.1
  refine ⟨⟨fun b => ?_, fun b => ?_, funext fun b => ?_⟩, ?_⟩
  · by_cases hb : b = block
    · subst hb
      simp only [updateLiveOut, Function.update_self]
      exact ⟨(hfits b).1, hr, (hfits b).2.2⟩
    · simp only [updateLiveOut, Function.update_of_ne hb]
      exact hfits b
  · by_cases hb : b = block
    · subst hb
      simp only [updateLiveOut, Function.update_self]
      exact hkill b
    · simp only [updateLiveOut, Function.update_of_ne hb]
      exact hkill b
  · by_cases hb : b = block
    · subst hb
      simp only [updateLiveOut, Function.update_self, BlockInfo.view]
      rw [hrelems]
      rfl
    · simp only [updateLiveOut, Function.update_of_ne hb]
  · simp only [updateLiveOut]
    rw [hrchanged, hrelems]
    simp [joinSuccessors, BlockInfo.view]

/-- `UpdateLiveIn` on the vectors joins the live-out values not killed into the live-in set, and
reports whether it changed. -/
theorem updateLiveIn_refines {infos : β → BlockInfo} {S : β → LiveSets}
    (h : Refines kill infos S) (block : β) :
    Refines kill (updateLiveIn infos block).1
        (Function.update S block ⟨(S block).liveIn ∪ ((S block).liveOut \ kill block),
          (S block).liveOut⟩) ∧
      ((updateLiveIn infos block).2 = true ↔
        (S block).liveIn ∪ ((S block).liveOut \ kill block) ≠ (S block).liveIn) := by
  obtain ⟨hfits, hkill, rfl⟩ := h
  obtain ⟨hin, hout, hk⟩ := hfits block
  have helems := elems_unionIfNotIn hin hout hk
  have hchanged := unionIfNotIn_changed_iff hin hout hk
  refine ⟨⟨fun b => ?_, fun b => ?_, funext fun b => ?_⟩, ?_⟩
  · by_cases hb : b = block
    · subst hb
      simp only [updateLiveIn, Function.update_self]
      exact ⟨(unionIfNotIn_spec hin hout).2.1, hout, hk⟩
    · simp only [updateLiveIn, Function.update_of_ne hb]
      exact hfits b
  · by_cases hb : b = block
    · subst hb
      simp only [updateLiveIn, Function.update_self]
      exact hkill b
    · simp only [updateLiveIn, Function.update_of_ne hb]
      exact hkill b
  · by_cases hb : b = block
    · subst hb
      simp only [updateLiveIn, Function.update_self, BlockInfo.view]
      rw [helems, hkill]
    · simp only [updateLiveIn, Function.update_of_ne hb]
  · simp only [updateLiveIn]
    rw [hchanged, helems, hkill]
    rfl

variable (successors) in
/-- A step of the loop on the vectors is a block step on the sets, where live-out values not
killed are live in: where `UpdateLiveOut` changes nothing, skipping `UpdateLiveIn` skips a union
that would change nothing either. -/
theorem passStep_refines {acc : (β → BlockInfo) × Bool} {S : β → LiveSets}
    (h : Refines kill acc.1 S) (hinv : Inv kill S) (block : β) :
    Refines kill (passStep successors acc block).1 (blockStep successors kill S block) ∧
      (passStep successors acc block).2 = (absPassStep successors kill (S, acc.2) block).2 := by
  obtain ⟨hout, hchanged⟩ := updateLiveOut_refines successors h block
  dsimp only [passStep]
  split_ifs with hc
  · -- both updates run
    obtain ⟨hin, hinChanged⟩ := updateLiveIn_refines hout block
    simp only [Function.update_self, Function.update_idem] at hin hinChanged
    refine ⟨hin, ?_⟩
    simp only [absPassStep, blockStep_self]
    rw [Bool.eq_iff_iff, Bool.or_eq_true, Bool.or_eq_true, hinChanged, decide_eq_true_iff]
  · -- the live-out set did not change, so neither would the live-in set
    have hjoin : joinSuccessors successors S block = (S block).liveOut := by
      by_contra hne
      exact hc (hchanged.2 hne)
    have hkeep : (S block).liveIn ∪ ((S block).liveOut \ kill block) = (S block).liveIn :=
      Finset.union_eq_left.2 (hinv block)
    refine ⟨?_, ?_⟩
    · have hS : blockStep successors kill S block =
          Function.update S block ⟨(S block).liveIn, joinSuccessors successors S block⟩ := by
        rw [blockStep, hjoin, hkeep]
      rw [hS]
      exact hout
    · simp only [absPassStep, blockStep_self, hjoin, hkeep, ne_eq, not_true_eq_false,
        decide_false, Bool.or_false]

/-- A pass on the vectors is a pass on the sets. -/
theorem foldl_passStep_refines (postOrder : List β) :
    ∀ {acc : (β → BlockInfo) × Bool} {S : β → LiveSets}, Refines kill acc.1 S → Inv kill S →
      Refines kill (postOrder.foldl (passStep successors) acc).1
          (postOrder.foldl (absPassStep successors kill) (S, acc.2)).1 ∧
        (postOrder.foldl (passStep successors) acc).2 =
          (postOrder.foldl (absPassStep successors kill) (S, acc.2)).2 := by
  induction postOrder with
  | nil => exact fun h _ => ⟨h, rfl⟩
  | cons block rest ih =>
    intro acc S h hinv
    obtain ⟨hstep, hflag⟩ := passStep_refines successors h hinv block
    have ih' := ih hstep (hinv.blockStep block)
    rw [List.foldl_cons, List.foldl_cons]
    rw [hflag] at ih'
    exact ih'

theorem computeLiveInAndLiveOutSetsPass_refines (postOrder : List β) {infos : β → BlockInfo}
    {S : β → LiveSets} (h : Refines kill infos S) (hinv : Inv kill S) :
    Refines kill (computeLiveInAndLiveOutSetsPass successors postOrder infos).1
        (absPass successors kill postOrder S).1 ∧
      (computeLiveInAndLiveOutSetsPass successors postOrder infos).2 =
        (absPass successors kill postOrder S).2 :=
  foldl_passStep_refines postOrder (show Refines kill (infos, false).1 S from h) hinv

/-! ### What a pass does to the sets -/

variable (successors kill) in
/-- A pass only adds values. -/
theorem subset_foldl_absPassStep :
    ∀ (l : List β) (acc : (β → LiveSets) × Bool) (c : β),
      (acc.1 c).liveIn ⊆ ((l.foldl (absPassStep successors kill) acc).1 c).liveIn ∧
        (acc.1 c).liveOut ⊆ ((l.foldl (absPassStep successors kill) acc).1 c).liveOut
  | [], _, _ => ⟨subset_rfl, subset_rfl⟩
  | b :: l, acc, c => by
    rw [List.foldl_cons]
    obtain ⟨hin, hout⟩ := subset_blockStep successors kill acc.1 b c
    obtain ⟨hin', hout'⟩ := subset_foldl_absPassStep l (absPassStep successors kill acc b) c
    exact ⟨hin.trans hin', hout.trans hout'⟩

/-- A pass reports a change exactly where it changed a live-in set. -/
theorem foldl_absPassStep_changed :
    ∀ (l : List β) (acc : (β → LiveSets) × Bool),
      (l.foldl (absPassStep successors kill) acc).2 = true ↔
        acc.2 = true ∨
          ∃ c, ((l.foldl (absPassStep successors kill) acc).1 c).liveIn ≠ (acc.1 c).liveIn
  | [], acc => by simp
  | b :: l, acc => by
    rw [List.foldl_cons, foldl_absPassStep_changed l]
    -- each live-in set grows through the block step, then through the rest of the pass
    have hchain : ∀ c, ((absPassStep successors kill acc b).1 c).liveIn ≠ (acc.1 c).liveIn ∨
        ((l.foldl (absPassStep successors kill) (absPassStep successors kill acc b)).1 c).liveIn ≠
          ((absPassStep successors kill acc b).1 c).liveIn ↔
        ((l.foldl (absPassStep successors kill) (absPassStep successors kill acc b)).1 c).liveIn ≠
          (acc.1 c).liveIn := fun c =>
      ne_or_ne_iff (subset_blockStep successors kill acc.1 b c).1
        (subset_foldl_absPassStep successors kill l _ c).1
    simp only [absPassStep, Bool.or_eq_true, decide_eq_true_iff, or_assoc]
    refine or_congr_right ⟨?_, fun ⟨c, hc⟩ => ?_⟩
    · rintro (hb | ⟨c, hc⟩)
      exacts [⟨b, (hchain b).1 (Or.inl hb)⟩, ⟨c, (hchain c).1 (Or.inr hc)⟩]
    · rcases (hchain c).2 hc with hc' | hc'
      · -- only the block stepped changes
        by_cases hcb : c = b
        · exact Or.inl (hcb ▸ hc')
        · have hkeep : (absPassStep successors kill acc b).1 c = acc.1 c := blockStep_of_ne acc.1 hcb
          exact absurd (congrArg LiveSets.liveIn hkeep) hc'
      · exact Or.inr ⟨c, hc'⟩

/-- After a pass that reported no change, each block of the pass holds its successors' live-in
sets in its live-out set. -/
theorem foldl_absPassStep_stable :
    ∀ (l : List β) (acc : (β → LiveSets) × Bool),
      (l.foldl (absPassStep successors kill) acc).2 = false →
        ∀ b ∈ l, ∀ s ∈ successors b,
          ((l.foldl (absPassStep successors kill) acc).1 s).liveIn ⊆
            ((l.foldl (absPassStep successors kill) acc).1 b).liveOut
  | [], _, _ => fun _ hb => absurd hb List.not_mem_nil
  | b :: l, acc, hflag => by
    -- no live-in set changed during the pass
    have hsame : ∀ c, ((List.foldl (absPassStep successors kill) acc (b :: l)).1 c).liveIn =
        (acc.1 c).liveIn := by
      have hnone := (foldl_absPassStep_changed (b :: l) acc).not.1
        (by rw [hflag]; exact Bool.false_ne_true)
      exact fun c => not_not.1 fun hc => hnone (Or.inr ⟨c, hc⟩)
    rw [List.foldl_cons] at hflag hsame ⊢
    intro b' hb' s hs
    rcases List.mem_cons.1 hb' with rfl | hb'
    · rw [hsame s]
      have hjoin : (acc.1 s).liveIn ⊆ joinSuccessors successors acc.1 b' := fun x hx =>
        mem_joinSuccessors.2 (Or.inr ⟨s, hs, hx⟩)
      refine hjoin.trans ?_
      have := (subset_foldl_absPassStep successors kill l
        (absPassStep successors kill acc b') b').2
      simpa [absPassStep] using this
    · exact foldl_absPassStep_stable l _ hflag b' hb' s hs

/-! ### Runs of passes -/

variable (successors kill) in
/-- Sets between those a run started from and every solution of the liveness equations above
them, within the values they started with, and whose live-out values not killed are live in. -/
structure Bounds (S₀ S : β → LiveSets) (values : Finset ℕ) : Prop where
  inv : Inv kill S
  ge : ∀ b, (S₀ b).liveIn ⊆ (S b).liveIn ∧ (S₀ b).liveOut ⊆ (S b).liveOut
  le : ∀ liveIn liveOut, Dataflow.Solves successors kill (fun b => (S₀ b).liveIn)
    (fun b => (S₀ b).liveOut) liveIn liveOut → ∀ b, (S b).liveIn ⊆ liveIn b ∧ (S b).liveOut ⊆ liveOut b
  within : ∀ b, (S b).liveIn ⊆ values ∧ (S b).liveOut ⊆ values

omit [DecidableEq β] in
theorem bounds_init {S₀ : β → LiveSets} (hinv : Inv kill S₀) {values : Finset ℕ}
    (hvalues : ∀ b, (S₀ b).liveIn ⊆ values ∧ (S₀ b).liveOut ⊆ values) :
    Bounds successors kill S₀ S₀ values :=
  ⟨hinv, fun _ => ⟨subset_rfl, subset_rfl⟩,
    fun _ _ h b => ⟨h.initIn_subset b, h.initOut_subset b⟩, hvalues⟩

/-- A block step keeps the sets within their bounds: what it adds is live into a successor, or
live out and not killed, so lies in every solution. -/
theorem Bounds.blockStep {S₀ S : β → LiveSets} {values : Finset ℕ}
    (h : Bounds successors kill S₀ S values) (block : β) :
    Bounds successors kill S₀ (SsaLiveness.blockStep successors kill S block) values := by
  -- the joined set lies in every solution's live-out set, and within the values
  have hjoin : ∀ liveIn liveOut, Dataflow.Solves successors kill (fun b => (S₀ b).liveIn)
      (fun b => (S₀ b).liveOut) liveIn liveOut →
        joinSuccessors successors S block ⊆ liveOut block := by
    intro liveIn liveOut hsol x hx
    rcases mem_joinSuccessors.1 hx with hx | ⟨s, hs, hx⟩
    · exact (h.le liveIn liveOut hsol block).2 hx
    · exact hsol.succ_subset block s hs ((h.le liveIn liveOut hsol s).1 hx)
  have hjoinValues : joinSuccessors successors S block ⊆ values := by
    intro x hx
    rcases mem_joinSuccessors.1 hx with hx | ⟨s, -, hx⟩
    exacts [(h.within block).2 hx, (h.within s).1 hx]
  refine ⟨h.inv.blockStep block, fun b => ?_, fun liveIn liveOut hsol b => ?_, fun b => ?_⟩
  · obtain ⟨hin, hout⟩ := subset_blockStep successors kill S block b
    exact ⟨(h.ge b).1.trans hin, (h.ge b).2.trans hout⟩
  · by_cases hb : b = block
    · subst hb
      rw [blockStep_self]
      refine ⟨Finset.union_subset (h.le liveIn liveOut hsol b).1 ?_, hjoin liveIn liveOut hsol⟩
      exact (Finset.sdiff_subset_sdiff (hjoin liveIn liveOut hsol) subset_rfl).trans
        (hsol.sdiff_subset b)
    · rw [blockStep_of_ne S hb]
      exact h.le liveIn liveOut hsol b
  · by_cases hb : b = block
    · subst hb
      rw [blockStep_self]
      exact ⟨Finset.union_subset (h.within b).1 (Finset.sdiff_subset.trans hjoinValues),
        hjoinValues⟩
    · rw [blockStep_of_ne S hb]
      exact h.within b

theorem Bounds.foldl {S₀ : β → LiveSets} {values : Finset ℕ} :
    ∀ (l : List β) {acc : (β → LiveSets) × Bool}, Bounds successors kill S₀ acc.1 values →
      Bounds successors kill S₀ (l.foldl (absPassStep successors kill) acc).1 values
  | [], _, h => h
  | b :: l, _, h => Bounds.foldl l (h.blockStep b)

variable [Fintype β]

/-- The values of the sets a run starts from. -/
def values (S₀ : β → LiveSets) : Finset ℕ :=
  Finset.univ.biUnion fun b => (S₀ b).liveIn ∪ (S₀ b).liveOut

omit [DecidableEq β] in
theorem subset_values (S₀ : β → LiveSets) (b : β) :
    (S₀ b).liveIn ⊆ values S₀ ∧ (S₀ b).liveOut ⊆ values S₀ := by
  have hb : (S₀ b).liveIn ∪ (S₀ b).liveOut ⊆ values S₀ :=
    Finset.subset_biUnion_of_mem (fun b => (S₀ b).liveIn ∪ (S₀ b).liveOut) (Finset.mem_univ b)
  exact ⟨Finset.subset_union_left.trans hb, Finset.subset_union_right.trans hb⟩

/-- The total size of the live-in sets, which every pass that reports a change raises. -/
def liveInSize (S : β → LiveSets) : Nat := ∑ b, (S b).liveIn.card

omit [DecidableEq β] in
theorem Bounds.liveInSize_le {S₀ S : β → LiveSets} {values : Finset ℕ}
    (h : Bounds successors kill S₀ S values) :
    liveInSize S ≤ Fintype.card β * values.card := by
  calc liveInSize S ≤ ∑ _b : β, values.card :=
        Finset.sum_le_sum fun b _ => Finset.card_le_card (h.within b).1
    _ = Fintype.card β * values.card := by rw [Finset.sum_const, Finset.card_univ, smul_eq_mul]

theorem liveInSize_lt_absPass (postOrder : List β) (S : β → LiveSets)
    (hflag : (absPass successors kill postOrder S).2 = true) :
    liveInSize S < liveInSize (absPass successors kill postOrder S).1 := by
  obtain ⟨c, hc⟩ := ((foldl_absPassStep_changed postOrder (S, false)).1 hflag).resolve_left
    Bool.false_ne_true
  have hsub := fun b => (subset_foldl_absPassStep successors kill
    postOrder (S, false) b).1
  refine Finset.sum_lt_sum (fun b _ => Finset.card_le_card (hsub b)) ⟨c, Finset.mem_univ c, ?_⟩
  exact Finset.card_lt_card (Finset.ssubset_iff_subset_ne.2 ⟨hsub c, Ne.symm hc⟩)

/-! ### The loop -/

/-- From vectors within the bound whose live-out values not killed are live in, more passes than
blocks times values end `ComputeLiveInAndLiveOutSets`, and the sets it leaves are the least
solution of the liveness equations above those it started from: each block's live-out set is its
successors' live-in sets joined (with what it held), and each block's live-in set its live-out
values that it does not kill (with what it held). -/
theorem computeLiveInAndLiveOutSets_least (successors : β → List β) {postOrder : List β}
    (hpost : ∀ b, b ∈ postOrder) {infos : β → BlockInfo} (hfits : ∀ b, (infos b).Fits)
    (hinv : ∀ b, (infos b).liveOut.elems \ (infos b).kill.elems ⊆ (infos b).liveIn.elems)
    {fuel : Nat} (hfuel : Fintype.card β * (values fun b => (infos b).view).card < fuel) :
    ∃ r, computeLiveInAndLiveOutSets successors postOrder fuel infos = some r ∧
      Dataflow.IsLeastSolution successors (fun b => (infos b).kill.elems)
        (fun b => (infos b).liveIn.elems) (fun b => (infos b).liveOut.elems)
        (fun b => (r b).liveIn.elems) (fun b => (r b).liveOut.elems) := by
  let kill : β → Finset ℕ := fun b => (infos b).kill.elems
  let S₀ : β → LiveSets := fun b => (infos b).view
  -- the vectors hold sets within their bounds
  let I : (β → BlockInfo) → Prop := fun infos' =>
    Refines kill infos' (fun b => (infos' b).view) ∧
      Bounds successors kill S₀ (fun b => (infos' b).view) (values S₀)
  have hpass : ∀ infos', I infos' →
      I (computeLiveInAndLiveOutSetsPass successors postOrder infos').1 ∧
        (computeLiveInAndLiveOutSetsPass successors postOrder infos').2 =
          (absPass successors kill postOrder fun b => (infos' b).view).2 ∧
        (fun b => ((computeLiveInAndLiveOutSetsPass successors postOrder infos').1 b).view) =
          (absPass successors kill postOrder fun b => (infos' b).view).1 := by
    intro infos' ⟨href, hbounds⟩
    obtain ⟨href', hflag⟩ := computeLiveInAndLiveOutSetsPass_refines postOrder href hbounds.inv
    have hview := href'.view
    refine ⟨⟨?_, ?_⟩, hflag, hview⟩
    · rw [hview]
      exact href'
    · rw [hview]
      exact Bounds.foldl postOrder hbounds
  have hstart : I infos :=
    ⟨⟨hfits, fun _ => rfl, rfl⟩, bounds_init (fun b => hinv b) (subset_values S₀)⟩
  -- the loop ends: each pass that reports a change raises the total size of the live-in sets
  obtain ⟨r, hr⟩ := ChangedLoop.run_isSome I (fun s hs => (hpass s hs).1)
    (fun infos' => liveInSize fun b => (infos' b).view)
    (fun s hs => hs.2.liveInSize_le)
    (fun s hs hflag => by
      obtain ⟨-, hflag', hview⟩ := hpass s hs
      rw [hview]
      exact liveInSize_lt_absPass postOrder _ (hflag' ▸ hflag))
    hstart (Nat.lt_of_lt_of_le hfuel (Nat.le_add_right _ _))
  refine ⟨r, hr, ?_⟩
  -- the last pass changed no live-in set
  obtain ⟨s₀, hs₀, hlast⟩ := ChangedLoop.run_inv I (fun s hs => (hpass s hs).1) hstart hr
  obtain ⟨hI, hflag, hview⟩ := hpass s₀ hs₀
  rw [hlast] at hI hflag hview
  have hbounds := hI.2
  have hstable : ∀ b ∈ postOrder, ∀ s ∈ successors b,
      ((absPass successors kill postOrder fun b => (s₀ b).view).1 s).liveIn ⊆
        ((absPass successors kill postOrder fun b => (s₀ b).view).1 b).liveOut :=
    foldl_absPassStep_stable postOrder ((fun b => (s₀ b).view), false) hflag.symm
  refine ⟨⟨fun b => (hbounds.ge b).1, fun b => (hbounds.ge b).2, fun b s hs => ?_,
    fun b => hbounds.inv b⟩, fun liveIn liveOut hsol => ?_⟩
  · have := hstable b (hpost b) s hs
    rw [← hview] at this
    exact this
  · exact ⟨fun b => (hbounds.le liveIn liveOut hsol b).1, fun b => (hbounds.le liveIn liveOut hsol b).2⟩

/-- Two blocks in a loop: block 0 defines value 0, block 1 uses values 0 and 1. -/
theorem computeLiveInAndLiveOutSets_least_loop :
    ∃ r, computeLiveInAndLiveOutSets (fun b : Fin 2 => [b + 1]) [1, 0] 100
        (fun b => if b = 0 then ⟨⟨[]⟩, ⟨[]⟩, ⟨[1#32]⟩⟩ else ⟨⟨[3#32]⟩, ⟨[]⟩, ⟨[]⟩⟩) = some r ∧
      Dataflow.IsLeastSolution (fun b : Fin 2 => [b + 1])
        (fun b => (if b = 0 then (⟨⟨[]⟩, ⟨[]⟩, ⟨[1#32]⟩⟩ : BlockInfo)
          else ⟨⟨[3#32]⟩, ⟨[]⟩, ⟨[]⟩⟩).kill.elems)
        (fun b => (if b = 0 then (⟨⟨[]⟩, ⟨[]⟩, ⟨[1#32]⟩⟩ : BlockInfo)
          else ⟨⟨[3#32]⟩, ⟨[]⟩, ⟨[]⟩⟩).liveIn.elems)
        (fun b => (if b = 0 then (⟨⟨[]⟩, ⟨[]⟩, ⟨[1#32]⟩⟩ : BlockInfo)
          else ⟨⟨[3#32]⟩, ⟨[]⟩, ⟨[]⟩⟩).liveOut.elems)
        (fun b => (r b).liveIn.elems) (fun b => (r b).liveOut.elems) :=
  computeLiveInAndLiveOutSets_least _ (by decide)
    (Fin.forall_fin_two.2 ⟨⟨by decide, by decide, by decide⟩, ⟨by decide, by decide, by decide⟩⟩)
    (by decide) (by decide)

end SsaLiveness

end Art
