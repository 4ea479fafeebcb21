import Art.Compiler.ParallelMoveResolver
import Mathlib.Data.Finset.Card
import Mathlib.Data.List.Chain

/-!
# `ParallelMoveResolverWithSwap::EmitNativeCode` performs the parallel move

The code `EmitNativeCode` emits, run from any state, ends in the state the parallel move
describes. This holds when every location holds the value moved through it, and when no two
locations of the parallel move overlap unless they are equal (`Good`). The resolver assumes that
last condition itself: see the `DCHECK`s of `Location::OverlapsWith`.

The invariant `Inv` of a run of `PerformMove` is kept over the pending moves `S`, top first. Its
main parts:
- each pending move reads the destination of the move below it (`chain`). `PerformMove` was
  called for it because it blocked that move;
- `Progress` holds for the state the calls so far produce (`progress`).

A cycle can only close on the bottom of that stack. The only pending move that may read the
destination of the top one is therefore the bottom. There are two consequences:
- a swap's source is always the destination of a move still to do, the one below;
- a 64-bit move that a 32-bit move returns up the recursion (`required_swap`) is the bottom. So
  the restart of the dependency loop never happens.

The loop performs every free move that reads the destination before it ends (`LoopDone`). So a
swap renames no free move onto a destination still to be written (`Frame`).
-/

namespace Art
namespace ParallelMoveResolver

open MoveOperands Resolver ParallelAssignment

section Good

variable (orig : List MoveOperands)

/-- The source of move `j` as `BuildInitialMoveList` left it. -/
def origSrc (j : Nat) : Location := (orig.getD j default).source

/-- The destination of move `j` as `BuildInitialMoveList` left it. -/
def origDst (j : Nat) : Location := (orig.getD j default).destination

/-- A source or a destination of the moves. -/
def InPlay (x : Location) : Prop := ∃ j < orig.length, x = origSrc orig j ∨ x = origDst orig j

/-- The moves as `EmitNativeCode` takes them: valid sources and destinations, distinct
destinations that are not constants, no move from a location to itself, and no two locations that
overlap unless they are equal. -/
structure Good : Prop where
  source_ne : ∀ j < orig.length, origSrc orig j ≠ .invalid
  destination_ne : ∀ j < orig.length, origDst orig j ≠ .invalid
  destination_not_constant : ∀ j < orig.length, (origDst orig j).isConstant = false
  source_ne_destination : ∀ j < orig.length, origSrc orig j ≠ origDst orig j
  nodup : (orig.map MoveOperands.destination).Nodup
  overlap : ∀ x y, InPlay orig x → InPlay orig y → x.overlapsWith y = true → x = y

end Good

theorem origSrc_of_lt {orig : List MoveOperands} {j : Nat} (hj : j < orig.length) :
    origSrc orig j = orig[j].source := by
  rw [origSrc, List.getD_eq_getElem _ _ hj]

theorem origDst_of_lt {orig : List MoveOperands} {j : Nat} (hj : j < orig.length) :
    origDst orig j = orig[j].destination := by
  rw [origDst, List.getD_eq_getElem _ _ hj]

/-- Move `j` has not been eliminated. -/
def Live (r : Resolver) (j : Nat) : Prop := (r.get j).source ≠ .invalid

section Inv

variable {V : Type} (orig : List MoveOperands) (σ₀ : Location → V)

/-- The state the parallel move asks for. -/
def target : Location → V := parallel (orig.map fun m => (m.source, m.destination)) σ₀

/-- The invariant of the resolver with the pending moves `S`, top first. -/
structure Inv (S : List Nat) (r : Resolver) : Prop where
  length : r.moves.length = orig.length
  pending : ∀ j ∈ S, Live r j
  /-- a live move has its destination, or the cleared one while it is pending -/
  destination : ∀ j, Live r j → (r.get j).destination = if j ∈ S then .invalid else origDst orig j
  inPlay : ∀ j, Live r j → InPlay orig (r.get j).source
  constant : ∀ j, Live r j → (r.get j).source.isConstant = (origSrc orig j).isConstant
  nodup : S.Nodup
  /-- a pending move reads the destination of the pending move below it -/
  chain : S.IsChain fun t p => (r.get t).source = origDst orig p
  progress : Progress (target orig σ₀) (fun j => (r.get j).source) (origDst orig)
    (fun j => σ₀ (origSrc orig j)) (Live r) (exec σ₀ (r.code.map Emit.instr))

end Inv

variable {V : Type} {orig : List MoveOperands} {σ₀ : Location → V} {S : List Nat}
  {r r' : Resolver} {index j : Nat}

/-! ### The moves -/

namespace Good

variable (hg : Good orig)
include hg

theorem destination_inj {i j : Nat} (hi : i < orig.length) (hj : j < orig.length)
    (h : origDst orig i = origDst orig j) : i = j := by
  have hlen : (orig.map MoveOperands.destination).length = orig.length := List.length_map _
  refine (@List.Nodup.getElem_inj_iff _ _ hg.nodup i (hlen ▸ hi) j (hlen ▸ hj)).1 ?_
  rw [origDst_of_lt hi, origDst_of_lt hj] at h
  simpa using h

/-- The parallel move writes each destination with its source. -/
theorem target_origDst (hj : j < orig.length) :
    target orig σ₀ (origDst orig j) = σ₀ (origSrc orig j) := by
  refine parallel_of_mem ?_ ?_ σ₀
  · simpa [List.map_map, Function.comp_def] using hg.nodup
  · exact List.mem_map.2 ⟨orig[j], List.getElem_mem hj, by
      rw [origSrc_of_lt hj, origDst_of_lt hj]⟩

/-- Among the locations of the moves, `Blocks` is reading the location itself. -/
theorem blocks_iff {m : MoveOperands} {loc : Location}
    (hm : m.source ≠ .invalid → InPlay orig m.source) (hloc : InPlay orig loc) :
    m.blocks loc = true ↔ m.source ≠ .invalid ∧ m.source = loc := by
  by_cases hs : m.source = .invalid
  · simp [blocks_of_source_eq_invalid hs, hs]
  · constructor
    · intro h
      have hov : m.source.overlapsWith loc = true := by
        simpa [blocks, isEliminated, hs] using h
      exact ⟨hs, hg.overlap _ _ (hm hs) hloc hov⟩
    · rintro ⟨-, rfl⟩
      simp [blocks, isEliminated, hs]

end Good

theorem inPlay_origDst (hj : j < orig.length) : InPlay orig (origDst orig j) := ⟨j, hj, .inr rfl⟩

/-- A chain whose links into the tail are kept is kept. -/
private theorem isChain_of_tail {α : Type} {R R' : α → α → Prop} {l : List α} (h : l.IsChain R)
    (hR : ∀ a ∈ l, ∀ b ∈ l.tail, R a b → R' a b) : l.IsChain R' := by
  cases l with
  | nil => exact .nil
  | cons x rest =>
    obtain ⟨hx, hrest⟩ := List.isChain_cons.1 h
    refine List.isChain_cons.2 ⟨fun y hy => hR x (by simp) y ?_ (hx y hy), ?_⟩
    · exact List.mem_of_mem_head? hy
    · exact (List.IsChain.iff_mem.1 hrest).imp fun a b ⟨ha, hb, hab⟩ =>
        hR a (List.mem_cons_of_mem _ ha) b hb hab

/-! ### The invariant -/

namespace Inv

theorem lt_of_live (h : Inv orig σ₀ S r) (hj : Live r j) : j < orig.length := by
  by_contra hge
  exact hj (by rw [get_eq_default (by rw [h.length]; omega)]; rfl)

theorem get_modify (h : Inv orig σ₀ S r) (hidx : Live r index) (f : MoveOperands → MoveOperands)
    (j : Nat) : (r.modify index f).get j = if j = index then f (r.get j) else r.get j := by
  split_ifs with hj
  · subst hj
    exact get_modify_self (by rw [h.length]; exact h.lt_of_live hidx) f
  · exact get_modify_of_ne hj f

section
variable (hg : Good orig) (h : Inv orig σ₀ S r)
include hg h

theorem blocks_iff {loc : Location} (hloc : InPlay orig loc) :
    (r.get j).blocks loc = true ↔ Live r j ∧ (r.get j).source = loc :=
  hg.blocks_iff (h.inPlay j) hloc

theorem isPending_iff (hj : Live r j) : (r.get j).isPending = true ↔ j ∈ S := by
  have hsrc : (r.get j).source.isValid = true := Location.isValid_eq_true_iff.2 hj
  rw [isPending, h.destination j hj, hsrc]
  by_cases hS : j ∈ S
  · simp [hS, Location.isValid]
  · simp [hS, Location.isValid_eq_true_iff.2 (hg.destination_ne j (h.lt_of_live hj))]

end

/-- The chain read down to the bottom: only the bottom of the stack may read the destination of a
move that is not pending. -/
theorem getLast?_of_source (hg : Good orig) (h : Inv orig σ₀ S r) (hj : j ∈ S) {q : Nat}
    (hq : q < orig.length) (hqS : q ∉ S) (hsrc : (r.get j).source = origDst orig q) :
    S.getLast? = some j := by
  -- the move after `j`, if any, is the one whose destination `j` reads
  have key : ∀ l : List Nat, l.IsChain (fun t p => (r.get t).source = origDst orig p) →
      (∀ p ∈ l, p < orig.length ∧ p ≠ q) → j ∈ l → l.getLast? = some j := by
    intro l
    induction l with
    | nil => intro _ _ hj; cases hj
    | cons a rest ih =>
      intro hc hl hj
      cases rest with
      | nil => simp_all
      | cons b rest' =>
        obtain ⟨hab, hc'⟩ := List.isChain_cons_cons.1 hc
        rw [List.getLast?_cons_cons]
        rcases List.mem_cons.1 hj with rfl | hj'
        · exfalso
          have hb := hl b (by simp)
          exact hb.2 (hg.destination_inj hb.1 hq (hab.symm.trans hsrc))
        · exact ih hc' (fun p hp => hl p (List.mem_cons_of_mem _ hp)) hj'
  refine key S h.chain (fun p hp => ⟨h.lt_of_live (h.pending p hp), ?_⟩) hj
  rintro rfl
  exact hqS hp

/-- A stack of distinct moves is no longer than the moves. -/
private theorem length_le_of_nodup {n : Nat} {l : List Nat} (hnd : l.Nodup)
    (hlt : ∀ p ∈ l, p < n) : l.length ≤ n := by
  have hsub : l.toFinset ⊆ Finset.range n := fun p hp =>
    Finset.mem_range.2 (hlt p (List.mem_toFinset.1 hp))
  have := Finset.card_le_card hsub
  rwa [List.toFinset_card_of_nodup hnd, Finset.card_range] at this

theorem length_le (h : Inv orig σ₀ S r) : S.length ≤ orig.length :=
  length_le_of_nodup h.nodup fun p hp => h.lt_of_live (h.pending p hp)

theorem length_lt (h : Inv orig σ₀ S r) (hidx : Live r index) (hS : index ∉ S) :
    S.length < orig.length := by
  have := length_le_of_nodup (List.nodup_cons.2 ⟨hS, h.nodup⟩) fun p hp =>
    (List.mem_cons.1 hp).elim (fun he => he ▸ h.lt_of_live hidx) fun hp => h.lt_of_live (h.pending p hp)
  rw [List.length_cons] at this
  omega

theorem destination_of_not_mem (h : Inv orig σ₀ S r) (hidx : Live r index) (hS : index ∉ S) :
    (r.get index).destination = origDst orig index := by
  simp [h.destination index hidx, hS]

/-- A change in place that keeps sources keeps every source. -/
theorem source_modify (h : Inv orig σ₀ S r) (hidx : Live r index)
    {f : MoveOperands → MoveOperands} (hf : ∀ m, (f m).source = m.source) (j : Nat) :
    ((r.modify index f).get j).source = (r.get j).source := by
  rw [h.get_modify hidx]
  split_ifs
  exacts [hf _, rfl]

/-! ### One step at a time -/

/-- `MarkPending()` on a free move that reads the destination of the top pending move. -/
theorem markPending (h : Inv orig σ₀ S r) (hidx : Live r index) (hS : index ∉ S)
    (hchain : ∀ p ∈ S.head?, (r.get index).source = origDst orig p) :
    Inv orig σ₀ (index :: S) (r.modify index MoveOperands.markPending) := by
  have hget := h.get_modify hidx MoveOperands.markPending
  have hsrc := h.source_modify hidx (f := MoveOperands.markPending) fun _ => rfl
  have hlive : ∀ j, Live (r.modify index MoveOperands.markPending) j ↔ Live r j := by
    intro j
    simp only [Live, hsrc]
  refine ⟨by simp [h.length], ?_, ?_, ?_, ?_, List.nodup_cons.2 ⟨hS, h.nodup⟩, ?_, ?_⟩
  · intro j hj
    rw [hlive]
    rcases List.mem_cons.1 hj with rfl | hj
    exacts [hidx, h.pending j hj]
  · intro j hj
    rw [hlive] at hj
    rw [hget]
    by_cases hji : j = index
    · subst hji
      simp
    · simp only [hji, if_false, List.mem_cons, false_or]
      exact h.destination j hj
  · intro j hj
    rw [hsrc]
    exact h.inPlay j ((hlive j).1 hj)
  · intro j hj
    rw [hsrc]
    exact h.constant j ((hlive j).1 hj)
  · rw [List.isChain_cons]
    simp only [hsrc]
    exact ⟨hchain, h.chain⟩
  · exact h.progress.congr hlive fun j _ => hsrc j

/-- `ClearPending(destination)` on the top pending move. -/
theorem clearPending (h : Inv orig σ₀ (index :: S) r) :
    Inv orig σ₀ S (r.modify index (·.clearPending (origDst orig index))) := by
  have hidx := h.pending index (List.mem_cons_self ..)
  have hS := (List.nodup_cons.1 h.nodup).1
  have hget := h.get_modify hidx (·.clearPending (origDst orig index))
  have hsrc := h.source_modify hidx (f := (·.clearPending (origDst orig index))) fun _ => rfl
  have hlive : ∀ j, Live (r.modify index (·.clearPending (origDst orig index))) j ↔ Live r j := by
    intro j
    simp only [Live, hsrc]
  refine ⟨by simp [h.length], ?_, ?_, ?_, ?_, (List.nodup_cons.1 h.nodup).2, ?_, ?_⟩
  · intro j hj
    rw [hlive]
    exact h.pending j (List.mem_cons_of_mem _ hj)
  · intro j hj
    rw [hlive] at hj
    rw [hget]
    by_cases hji : j = index
    · subst hji
      simp [hS]
    · simp only [hji, if_false, h.destination j hj, List.mem_cons, false_or]
  · intro j hj
    rw [hsrc]
    exact h.inPlay j ((hlive j).1 hj)
  · intro j hj
    rw [hsrc]
    exact h.constant j ((hlive j).1 hj)
  · simp only [hsrc]
    exact h.chain.tail
  · exact h.progress.congr hlive fun j _ => hsrc j

theorem live_modify_eliminate (h : Inv orig σ₀ S r) (hidx : Live r index) :
    Live (r.modify index MoveOperands.eliminate) j ↔ Live r j ∧ j ≠ index := by
  rw [Live, h.get_modify hidx]
  by_cases hji : j = index
  · simp [hji]
  · simp [hji, Live]

/-- A step that eliminates the live move `index`, not pending, and renames the sources of the
other moves through `ρ` keeps the invariant, given the new `Progress`. -/
theorem of_step (h : Inv orig σ₀ S r) (hidx : Live r index) (hS : index ∉ S)
    {ρ : Location → Location} (hvalid : ∀ x, ρ x = .invalid ↔ x = .invalid)
    (hinPlay : ∀ x, InPlay orig x → InPlay orig (ρ x))
    (hconst : ∀ x, (ρ x).isConstant = x.isConstant)
    (hfix : ∀ p ∈ S.tail, ρ (origDst orig p) = origDst orig p)
    (hlen : r'.moves.length = r.moves.length) (helim : (r'.get index).source = .invalid)
    (hget : ∀ j, j ≠ index → r'.get j = (r.get j).setSource (ρ (r.get j).source))
    (hprog : Progress (target orig σ₀) (fun j => (r'.get j).source) (origDst orig)
      (fun j => σ₀ (origSrc orig j)) (fun j => Live r j ∧ j ≠ index)
      (exec σ₀ (r'.code.map Emit.instr))) :
    Inv orig σ₀ S r' := by
  have hlive : ∀ j, Live r' j ↔ Live r j ∧ j ≠ index := by
    intro j
    by_cases hji : j = index
    · subst hji
      simp [Live, helim]
    · simp only [Live, hget j hji, source_setSource, ne_eq, hvalid, hji, not_false_eq_true, and_true]
  have hne : ∀ j ∈ S, j ≠ index := fun j hj hji => hS (hji ▸ hj)
  refine ⟨by rw [hlen, h.length], ?_, ?_, ?_, ?_, h.nodup, ?_, ?_⟩
  · intro j hj
    exact (hlive j).2 ⟨h.pending j hj, hne j hj⟩
  · intro j hj
    obtain ⟨hj, hji⟩ := (hlive j).1 hj
    rw [hget j hji, destination_setSource, h.destination j hj]
  · intro j hj
    obtain ⟨hj, hji⟩ := (hlive j).1 hj
    rw [hget j hji, source_setSource]
    exact hinPlay _ (h.inPlay j hj)
  · intro j hj
    obtain ⟨hj, hji⟩ := (hlive j).1 hj
    rw [hget j hji, source_setSource, hconst, h.constant j hj]
  · refine isChain_of_tail h.chain fun t ht p hp htp => ?_
    rw [hget t (hne t ht), source_setSource, htp, hfix p hp]
  · exact hprog.congr hlive fun _ _ => rfl

section step

variable (hg : Good orig) (h : Inv orig σ₀ S r)
include hg h

/-- A move that reads its own destination is eliminated. -/
theorem eliminate (hidx : Live r index) (hS : index ∉ S)
    (hsame : (r.get index).source = origDst orig index) :
    Inv orig σ₀ S (r.modify index MoveOperands.eliminate) := by
  have hget := h.get_modify hidx MoveOperands.eliminate
  refine h.of_step hidx hS (ρ := id) (fun _ => Iff.rfl) (fun _ hx => hx) (fun _ => rfl)
    (fun _ _ => rfl) (by simp) (by simp [hget]) (fun j hji => by simp [hget, hji]; rfl) ?_
  have hprog := h.progress.drop hidx (hg.target_origDst (h.lt_of_live hidx)) hsame
  exact hprog.congr (fun _ => Iff.rfl) fun j hj => by simp [hget, hj.2]

/-- `EmitMove(index)` and `Eliminate()` once no other live move reads the destination. -/
theorem doMove (hidx : Live r index) (hS : index ∉ S)
    (hfree : ∀ j, Live r j → j ≠ index → (r.get j).source ≠ origDst orig index) :
    Inv orig σ₀ S (r.doMove index) := by
  have hget := h.get_modify hidx MoveOperands.eliminate
  have hdst := h.destination_of_not_mem hidx hS
  refine h.of_step hidx hS (ρ := id) (fun _ => Iff.rfl) (fun _ hx => hx) (fun _ => rfl)
    (fun _ _ => rfl) (by simp) (by simp [get_doMove, hget])
    (fun j hji => by simp only [get_doMove, hget, hji, if_false]; rfl) ?_
  have hprog := h.progress.move hidx (hg.target_origDst (h.lt_of_live hidx)) hfree
  rw [code_doMove, List.map_append, exec_append]
  simp only [List.map_cons, List.map_nil, exec_singleton, Emit.instr, hdst]
  exact hprog.congr (fun _ => Iff.rfl) fun j hj => by
    simp only [get_doMove, hget, hj.2, if_false]

end step

theorem swap_eq_invalid_iff {a b x : Location} (ha : a ≠ .invalid) (hb : b ≠ .invalid) :
    Equiv.swap a b x = .invalid ↔ x = .invalid := by
  rw [Equiv.swap_apply_eq_iff, Equiv.swap_apply_of_ne_of_ne (Ne.symm ha) (Ne.symm hb)]

theorem source_doSwap_self (h : Inv orig σ₀ S r) (hidx : Live r index) :
    ((r.doSwap index).get index).source = .invalid := by
  rw [get_doSwap, h.get_modify hidx, if_pos rfl, swapUpdate]
  simp [blocks_of_source_eq_invalid (source_eliminate _)]

section swap

variable (hg : Good orig) (h : Inv orig σ₀ S r) (hidx : Live r index) (hS : index ∉ S)
include hg h hidx hS

/-- After the swap, every move other than `index` reads its source renamed through the swap of
`index`'s source and destination: `UpdateSourceOf` never takes a half of a pair here. -/
theorem get_doSwap_of_ne (hj : j ≠ index) :
    (r.doSwap index).get j = (r.get j).setSource
      (Equiv.swap (r.get index).source (r.get index).destination (r.get j).source) := by
  have hdst := h.destination_of_not_mem hidx hS
  have ha : InPlay orig (r.get index).source := h.inPlay index hidx
  have hb : InPlay orig (r.get index).destination := hdst ▸ inPlay_origDst (h.lt_of_live hidx)
  have hbne : (r.get index).destination ≠ .invalid :=
    hdst ▸ hg.destination_ne _ (h.lt_of_live hidx)
  rw [get_doSwap, h.get_modify hidx, if_neg hj, swapUpdate]
  by_cases hsa : (r.get j).source = (r.get index).source
  · -- it read the swapped source: it now reads the swapped destination
    have hbl : (r.get j).blocks (r.get index).source = true :=
      (h.blocks_iff hg ha).2 ⟨by unfold Live; rw [hsa]; exact hidx, hsa⟩
    rw [if_pos hbl, updateSourceOf_of_source_eq hidx hsa, hsa, Equiv.swap_apply_left]
  · have hbl : (r.get j).blocks (r.get index).source = false :=
      Bool.eq_false_iff.2 fun hbl => hsa ((h.blocks_iff hg ha).1 hbl).2
    by_cases hsb : (r.get j).source = (r.get index).destination
    · have hbl' : (r.get j).blocks (r.get index).destination = true :=
        (h.blocks_iff hg hb).2 ⟨by unfold Live; rw [hsb]; exact hbne, hsb⟩
      rw [if_neg (by simp [hbl]), if_pos hbl', updateSourceOf_of_source_eq hbne hsb, hsb,
        Equiv.swap_apply_right]
    · have hbl' : (r.get j).blocks (r.get index).destination = false :=
        Bool.eq_false_iff.2 fun hbl' => hsb ((h.blocks_iff hg hb).1 hbl').2
      rw [if_neg (by simp [hbl]), if_neg (by simp [hbl']), Equiv.swap_apply_of_ne_of_ne hsa hsb]
      rfl

/-- `EmitSwap(index)`, `Eliminate()` and the sources updated. The swap's source must be the
destination of another live move, and no pending move below the top may write it. -/
theorem doSwap (hconst : (r.get index).source.isConstant = false)
    (hcycle : ∃ q, Live r q ∧ q ≠ index ∧ origDst orig q = (r.get index).source)
    (hchain : ∀ p ∈ S.tail, origDst orig p ≠ (r.get index).source) :
    Inv orig σ₀ S (r.doSwap index) := by
  have hlt := h.lt_of_live hidx
  have hdst := h.destination_of_not_mem hidx hS
  have ha : InPlay orig (r.get index).source := h.inPlay index hidx
  have hb : InPlay orig (r.get index).destination := hdst ▸ inPlay_origDst hlt
  have hbne : (r.get index).destination ≠ .invalid := hdst ▸ hg.destination_ne _ hlt
  have hbconst : (r.get index).destination.isConstant = false :=
    hdst ▸ hg.destination_not_constant _ hlt
  refine h.of_step hidx hS (ρ := Equiv.swap (r.get index).source (r.get index).destination)
    (fun x => ?_) (fun x hx => ?_) (fun x => ?_) (fun p hp => ?_) (by simp) ?_
    (fun j hj => h.get_doSwap_of_ne hg hidx hS hj) ?_
  · exact swap_eq_invalid_iff hidx hbne
  · rw [Equiv.swap_apply_def]
    split_ifs
    exacts [hb, ha, hx]
  · rw [Equiv.swap_apply_def]
    split_ifs with h1 h2
    · rw [h1, hbconst, hconst]
    · rw [h2, hbconst, hconst]
    · rfl
  · -- a pending move below the top is neither the swapped source nor `index`
    have hpS : p ∈ S := List.mem_of_mem_tail hp
    have hpne : origDst orig p ≠ (r.get index).destination := by
      rw [hdst]
      intro he
      exact hS (hg.destination_inj (h.lt_of_live (h.pending p hpS)) hlt he ▸ hpS)
    exact Equiv.swap_apply_of_ne_of_ne (hchain p hp) hpne
  · exact h.source_doSwap_self hidx
  · have hprog := h.progress.swap hidx (hg.target_origDst hlt) hcycle
    rw [code_doSwap, List.map_append, exec_append]
    simp only [List.map_cons, List.map_nil, exec_singleton, Emit.instr, hdst]
    refine hprog.congr (fun _ => Iff.rfl) fun j hj => ?_
    rw [h.get_doSwap_of_ne hg hidx hS hj.2, source_setSource, hdst]

theorem live_doSwap : Live (r.doSwap index) j ↔ Live r j ∧ j ≠ index := by
  by_cases hji : j = index
  · subst hji
    simp [Live, h.source_doSwap_self hidx]
  · have hbne : (r.get index).destination ≠ .invalid :=
      h.destination_of_not_mem hidx hS ▸ hg.destination_ne _ (h.lt_of_live hidx)
    simp only [Live, h.get_doSwap_of_ne hg hidx hS hji, source_setSource, ne_eq,
      swap_eq_invalid_iff hidx hbne, hji, not_false_eq_true, and_true]

end swap

end Inv

/-! ### What `PerformMove` and its loop achieve -/

section spec

variable (orig σ₀)

/-- No live move writes `x` any more. -/
def Dead (r : Resolver) (x : Location) : Prop := ∀ q, Live r q → origDst orig q ≠ x

/-- From `r` to `r'`, every live move outside `S` keeps its source, or reads a location that no
live move writes any more. -/
def Frame (S : List Nat) (r r' : Resolver) : Prop :=
  ∀ j, Live r' j → j ∉ S → (r'.get j).source = (r.get j).source ∨ Dead orig r' (r'.get j).source

/-- What `PerformMove(index)`, below the pending moves `S`, returns:
- `nullptr` once `index` is done, with no free move moved onto a destination still to write;
- `index` itself, after the swap a 32-bit move asked of it at the bottom;
- the bottom of `S`, which must swap first, being read by a free move `q`. -/
def Returned (S : List Nat) (index : Nat) (r r' : Resolver) : Option Nat → Prop
  | none => ¬Live r' index ∧ Frame orig S r r'
  | some j => (S = [] ∧ j = index ∧ ¬Live r' index) ∨
      (S.getLast? = some j ∧ ∃ q, Live r' q ∧ q ∉ S ∧ (r'.get j).source = origDst orig q)

/-- `PerformMove(index)` took `r` to `r'` and returned `requiredSwap`. -/
structure Performed (S : List Nat) (index : Nat) (r r' : Resolver) (requiredSwap : Option Nat) :
    Prop where
  inv : Inv orig σ₀ S r'
  mono : ∀ j, Live r' j → Live r j
  returned : Returned orig S index r r' requiredSwap

/-- How the dependency loop of `PerformMove(index)` ended, from `r` to `r'`:
- at its end, every free move that read the destination performed;
- at a break, `index` asked to swap at the bottom;
- at a return, with the bottom of `S` to swap first. -/
def LoopDone (S : List Nat) (index : Nat) (r r' : Resolver) : LoopExit → Prop
  | .done none => (∀ j, Live r' j → j ∉ index :: S → (r'.get j).source ≠ origDst orig index) ∧
      Frame orig (index :: S) r r'
  | .done (some j) => j = index ∧ S = [] ∧
      ∃ q, Live r' q ∧ q ∉ index :: S ∧ (r'.get index).source = origDst orig q
  | .returns j => S.getLast? = some j ∧
      ∃ q, Live r' q ∧ q ∉ index :: S ∧ (r'.get j).source = origDst orig q

/-- The dependency loop of `PerformMove(index)` took `r` to `r'` and ended with `e`. -/
structure Looped (S : List Nat) (index : Nat) (r r' : Resolver) (e : LoopExit) : Prop where
  inv : Inv orig σ₀ (index :: S) r'
  mono : ∀ j, Live r' j → Live r j
  done : LoopDone orig S index r r' e

/-- `PerformMove` with `fuel` performs a free move that reads the destination of the top pending
move. -/
def PerformSpec (fuel : Nat) : Prop :=
  ∀ S r index, Inv orig σ₀ S r → Live r index → index ∉ S →
    (r.get index).source.isConstant = false →
    (∀ p ∈ S.head?, (r.get index).source = origDst orig p) →
    (orig.length + 2) * (orig.length - S.length) ≤ fuel →
    ∃ r' requiredSwap, performMove fuel r index = some (r', requiredSwap) ∧
      Performed orig σ₀ S index r r' requiredSwap

/-- The dependency loop with `fuel`, from `t`, once every free move before `t` that read the
destination is performed. -/
def LoopSpec (fuel : Nat) : Prop :=
  ∀ S r index t, Inv orig σ₀ (index :: S) r → t ≤ orig.length →
    (∀ j < t, Live r j → j ∉ index :: S → (r.get j).source ≠ origDst orig index) →
    orig.length - t + 1 + (orig.length + 2) * (orig.length - (S.length + 1)) ≤ fuel →
    ∃ r' e, performMoveLoop fuel r index (origDst orig index) t = some (r', e) ∧
      Looped orig σ₀ S index r r' e

end spec

namespace Frame

theorem refl : Frame orig S r r := fun _ _ _ => .inl rfl

theorem trans {r'' : Resolver} (h₁ : Frame orig S r r') (h₂ : Frame orig S r' r'')
    (hmono : ∀ j, Live r'' j → Live r' j) : Frame orig S r r'' := by
  intro j hj hjS
  rcases h₂ j hj hjS with h2 | h2
  · rcases h₁ j (hmono j hj) hjS with h1 | h1
    · exact .inl (h2.trans h1)
    · exact .inr fun q hq => h2 ▸ h1 q (hmono q hq)
  · exact .inr h2

/-- A step that changes no source but `index`'s. -/
theorem of_source (h : ∀ j, j ≠ index → (r'.get j).source = (r.get j).source) :
    Frame orig (index :: S) r r' :=
  fun j _ hjS => .inl (h j fun hji => hjS (hji ▸ List.mem_cons_self ..))

/-- Steps that change no source leave a frame from `r` a frame from `r'`. -/
theorem of_source_left {r₀ : Resolver} (h : Frame orig S r₀ r')
    (hsrc : ∀ j, (r₀.get j).source = (r.get j).source) : Frame orig S r r' := by
  intro j hj hjS
  rw [← hsrc j]
  exact h j hj hjS

/-- Once `index` is eliminated, it no longer counts. -/
theorem uncons (h : Frame orig (index :: S) r r') (hidx : ¬Live r' index) : Frame orig S r r' :=
  fun j hj hjS => h j hj fun hm => (List.mem_cons.1 hm).elim (fun he => hidx (he ▸ hj)) hjS

/-- The swap of a move whose destination no free move reads: a free move that read the swapped
source now reads the destination of the eliminated move, which no live move writes. -/
theorem doSwap (hg : Good orig) (h : Inv orig σ₀ S r) (hidx : Live r index) (hS : index ∉ S)
    (hscan : ∀ j, Live r j → j ∉ index :: S → (r.get j).source ≠ origDst orig index) :
    Frame orig (index :: S) r (r.doSwap index) := by
  have hdst := h.destination_of_not_mem hidx hS
  intro j hj hjS
  have hji : j ≠ index := fun he => hjS (he ▸ List.mem_cons_self ..)
  have hlj := ((h.live_doSwap hg hidx hS).1 hj).1
  rw [h.get_doSwap_of_ne hg hidx hS hji, source_setSource, hdst]
  by_cases hsa : (r.get j).source = (r.get index).source
  · right
    rw [hsa, Equiv.swap_apply_left]
    intro q hq he
    have hqi : q ≠ index := ((h.live_doSwap hg hidx hS).1 hq).2
    exact hqi (hg.destination_inj (h.lt_of_live ((h.live_doSwap hg hidx hS).1 hq).1)
      (h.lt_of_live hidx) he)
  · left
    exact Equiv.swap_apply_of_ne_of_ne hsa (hscan j hlj hjS)

end Frame

/-! ### The ways `PerformMove` ends -/

namespace Performed

/-- `PerformMove` returns a move that must swap first, read by the free move `q`. -/
theorem returns {r₃ : Resolver} (h : Inv orig σ₀ S r₃) (hmono : ∀ j, Live r₃ j → Live r j)
    {other q : Nat} (hlast : S.getLast? = some other) (hq : Live r₃ q) (hqS : q ∉ S)
    (hsrc : (r₃.get other).source = origDst orig q) :
    Performed orig σ₀ S index r r₃ (some other) :=
  ⟨h, hmono, .inr ⟨hlast, q, hq, hqS, hsrc⟩⟩

variable (hg : Good orig) {r₃ : Resolver} (h : Inv orig σ₀ S r₃) (hidx : Live r₃ index)
  (hS : index ∉ S) (hmono : ∀ j, Live r₃ j → Live r j)
include hg h hidx hS hmono

/-- The move reads its own destination: `Eliminate()`. -/
theorem eliminate (hframe : Frame orig (index :: S) r r₃)
    (hsame : (r₃.get index).source = origDst orig index) :
    Performed orig σ₀ S index r (r₃.modify index MoveOperands.eliminate) none := by
  have hlive : ∀ j, Live (r₃.modify index MoveOperands.eliminate) j ↔ Live r₃ j ∧ j ≠ index :=
    fun j => h.live_modify_eliminate hidx
  have hgone : ¬Live (r₃.modify index MoveOperands.eliminate) index :=
    fun hl => ((hlive index).1 hl).2 rfl
  refine ⟨h.eliminate hg hidx hS hsame, fun j hj => hmono j ((hlive j).1 hj).1, hgone, ?_⟩
  refine (hframe.trans (Frame.of_source fun j hji => ?_) fun j hj => ((hlive j).1 hj).1).uncons hgone
  rw [h.get_modify hidx, if_neg hji]

/-- The move is not blocked: `EmitMove(index)`. -/
theorem doMove (hframe : Frame orig (index :: S) r r₃)
    (hfree : ∀ j, Live r₃ j → j ≠ index → (r₃.get j).source ≠ origDst orig index) :
    Performed orig σ₀ S index r (r₃.doMove index) none := by
  have hlive : ∀ j, Live (r₃.doMove index) j ↔ Live r₃ j ∧ j ≠ index := by
    intro j
    unfold Live
    rw [get_doMove]
    exact h.live_modify_eliminate hidx
  have hgone : ¬Live (r₃.doMove index) index := fun hl => ((hlive index).1 hl).2 rfl
  refine ⟨h.doMove hg hidx hS hfree, fun j hj => hmono j ((hlive j).1 hj).1, hgone, ?_⟩
  refine (hframe.trans (Frame.of_source fun j hji => ?_) fun j hj => ((hlive j).1 hj).1).uncons hgone
  rw [get_doMove, h.get_modify hidx, if_neg hji]

/-- The swap a 32-bit move asked of the bottom move: `EmitSwap(index)`, and `index` returned. -/
theorem requiredSwap (hconst : (r₃.get index).source.isConstant = false)
    (hcycle : ∃ q, Live r₃ q ∧ q ≠ index ∧ origDst orig q = (r₃.get index).source)
    (hnil : S = []) :
    Performed orig σ₀ S index r (r₃.doSwap index) (some index) := by
  have hlive : ∀ j, Live (r₃.doSwap index) j ↔ Live r₃ j ∧ j ≠ index :=
    fun j => h.live_doSwap hg hidx hS
  refine ⟨h.doSwap hg hidx hS hconst hcycle (by simp [hnil]), fun j hj => hmono j ((hlive j).1 hj).1,
    .inl ⟨hnil, rfl, fun hl => ((hlive index).1 hl).2 rfl⟩⟩

/-- The move closes a cycle on the pending move `top` below it: `EmitSwap(index)`. -/
theorem swap (hframe : Frame orig (index :: S) r r₃)
    (hconst : (r₃.get index).source.isConstant = false)
    (hscan : ∀ j, Live r₃ j → j ∉ index :: S → (r₃.get j).source ≠ origDst orig index)
    {top : Nat} {rest : List Nat} (hS' : S = top :: rest)
    (htop : (r₃.get index).source = origDst orig top) :
    Performed orig σ₀ S index r (r₃.doSwap index) none := by
  have hlive : ∀ j, Live (r₃.doSwap index) j ↔ Live r₃ j ∧ j ≠ index :=
    fun j => h.live_doSwap hg hidx hS
  have hgone : ¬Live (r₃.doSwap index) index := fun hl => ((hlive index).1 hl).2 rfl
  have htopS : top ∈ S := hS' ▸ List.mem_cons_self ..
  have hlt := h.lt_of_live (h.pending top htopS)
  have hcycle : ∃ q, Live r₃ q ∧ q ≠ index ∧ origDst orig q = (r₃.get index).source :=
    ⟨top, h.pending top htopS, fun he => hS (he ▸ htopS), htop.symm⟩
  have hchain : ∀ p ∈ S.tail, origDst orig p ≠ (r₃.get index).source := by
    intro p hp he
    rw [hS'] at hp
    have hpS : p ∈ S := hS' ▸ List.mem_cons_of_mem _ hp
    have hpt := hg.destination_inj (h.lt_of_live (h.pending p hpS)) hlt (he.trans htop)
    have hnd := h.nodup
    rw [hS', List.nodup_cons] at hnd
    exact hnd.1 (hpt ▸ hp)
  refine ⟨h.doSwap hg hidx hS hconst hcycle hchain, fun j hj => hmono j ((hlive j).1 hj).1,
    hgone, ?_⟩
  exact (hframe.trans (Frame.doSwap hg h hidx hS hscan) fun j hj => ((hlive j).1 hj).1).uncons hgone

end Performed

/-- The `moves_` entry that `findIdx?` points at, as `Resolver.get` reads it. -/
private theorem get_of_findIdx? {r : Resolver} {p : MoveOperands → Bool} {i : Nat}
    (h : r.moves.findIdx? p = some i) : p (r.get i) = true := by
  obtain ⟨hi, hp, -⟩ := List.findIdx?_eq_some_iff_getElem.1 h
  rwa [Resolver.get, List.getD_eq_getElem _ _ hi]

private theorem get_of_findIdx?_none {r : Resolver} {p : MoveOperands → Bool} {i : Nat}
    (h : r.moves.findIdx? p = none) (hi : i < r.moves.length) : p (r.get i) = false := by
  rw [Resolver.get, List.getD_eq_getElem _ _ hi]
  exact List.findIdx?_eq_none_iff.1 h _ (List.getElem_mem hi)

/-- `PerformMove(index)` after its dependency loop, which ended with `requiredSwap` as it left it:
`ClearPending`, then the elimination, the move, the swap, or the return of the bottom move. -/
theorem resolve_performed (hg : Good orig) {r₁ r₂ : Resolver} {requiredSwap : Option Nat}
    (h : Inv orig σ₀ S r) (hidx : Live r index) (hS : index ∉ S)
    (hconst : (r.get index).source.isConstant = false)
    (hsrc₁ : ∀ j, (r₁.get j).source = (r.get j).source)
    (hlooped : Looped orig σ₀ S index r₁ r₂ (.done requiredSwap)) :
    Performed orig σ₀ S index r (resolve r₂ index (origDst orig index) requiredSwap).1
      (resolve r₂ index (origDst orig index) requiredSwap).2 := by
  have hlt := h.lt_of_live hidx
  have hidx₂ : Live r₂ index := hlooped.inv.pending index (List.mem_cons_self ..)
  have h₃ := hlooped.inv.clearPending
  have hsrc₃ := hlooped.inv.source_modify hidx₂ (f := (·.clearPending (origDst orig index)))
    fun _ => rfl
  simp only [resolve]
  generalize r₂.modify index (fun x => x.clearPending (origDst orig index)) = r₃ at h₃ hsrc₃
  have hlive₃ : ∀ j, Live r₃ j ↔ Live r₂ j := fun j => by simp only [Live, hsrc₃]
  have hmono₃ : ∀ j, Live r₃ j → Live r j := by
    intro j hj
    have h₁ : Live r₁ j := hlooped.mono j ((hlive₃ j).1 hj)
    unfold Live at h₁ ⊢
    rwa [hsrc₁] at h₁
  have hidx₃ : Live r₃ index := (hlive₃ index).2 hidx₂
  have hconst₃ : (r₃.get index).source.isConstant = false := by
    rw [h₃.constant index hidx₃, ← h.constant index hidx, hconst]
  cases requiredSwap with
  | some j =>
    -- the loop broke: `index` is the bottom, asked to swap by a free move `q` that it reads
    obtain ⟨hj, hnil, q, hq, hqS, hsq⟩ := hlooped.done
    subst j
    have hqi : q ≠ index := fun he => hqS (he ▸ List.mem_cons_self ..)
    have hsq₃ : (r₃.get index).source = origDst orig q := by rw [hsrc₃]; exact hsq
    have hne : (r₃.get index).source ≠ origDst orig index := fun he =>
      hqi (hg.destination_inj (hlooped.inv.lt_of_live hq) hlt (hsq₃.symm.trans he))
    rw [if_neg hne]
    exact Performed.requiredSwap hg h₃ hidx₃ hS hmono₃ hconst₃
      ⟨q, (hlive₃ q).2 hq, hqi, hsq₃.symm⟩ hnil
  | none =>
    obtain ⟨hscan, hframe⟩ := hlooped.done
    have hscan₃ : ∀ j, Live r₃ j → j ∉ index :: S → (r₃.get j).source ≠ origDst orig index := by
      intro j hj hjS
      rw [hsrc₃]
      exact hscan j ((hlive₃ j).1 hj) hjS
    have hframe₃ : Frame orig (index :: S) r r₃ :=
      (hframe.of_source_left hsrc₁).trans (Frame.of_source fun j _ => hsrc₃ j)
        fun j hj => (hlive₃ j).1 hj
    by_cases hsame : (r₃.get index).source = origDst orig index
    · rw [if_pos hsame]
      exact Performed.eliminate hg h₃ hidx₃ hS hmono₃ hframe₃ hsame
    rw [if_neg hsame]
    cases hfind : r₃.moves.findIdx? (·.blocks (origDst orig index)) with
    | none =>
      -- nothing reads the destination: the move is not blocked
      refine Performed.doMove hg h₃ hidx₃ hS hmono₃ hframe₃ fun j hj _ hsj => ?_
      have hblk := get_of_findIdx?_none hfind (by rw [h₃.length]; exact h₃.lt_of_live hj)
      rw [(h₃.blocks_iff hg (inPlay_origDst hlt)).2 ⟨hj, hsj⟩] at hblk
      cases hblk
    | some other =>
      -- a move reads the destination: the pending bottom, since the loop performed the free ones
      obtain ⟨hlo, hso⟩ := (h₃.blocks_iff hg (inPlay_origDst hlt)).1 (get_of_findIdx? hfind)
      have hoS : other ∈ S := by
        by_contra hoS
        refine hscan₃ other hlo (fun hm => ?_) hso
        rcases List.mem_cons.1 hm with rfl | hm
        exacts [hsame hso, hoS hm]
      have hlast := h₃.getLast?_of_source hg hoS hlt hS hso
      obtain ⟨top, rest, hS'⟩ := List.exists_cons_of_ne_nil (List.ne_nil_of_mem hoS)
      have htop : (r₃.get index).source = origDst orig top := by
        have hc := hlooped.inv.chain
        rw [hS', List.isChain_cons_cons] at hc
        rw [hsrc₃]
        exact hc.1
      dsimp only
      split_ifs
      · exact Performed.returns h₃ hmono₃ hlast hidx₃ hS hso
      · exact Performed.swap hg h₃ hidx₃ hS hmono₃ hframe₃ hconst₃ hscan₃ hS' htop

/-! ### The recursion, by induction on the fuel -/

private theorem getLast?_of_cons {a k : Nat} {l : List Nat} (h : (a :: l).getLast? = some k)
    (hk : k ≠ a) : l.getLast? = some k := by
  rw [List.getLast?_cons] at h
  cases hl : l.getLast? with
  | none => exact absurd (by simpa [hl] using h.symm) hk
  | some x => simpa [hl] using h

private theorem eq_nil_of_getLast? {a : Nat} {l : List Nat} (h : (a :: l).getLast? = some a)
    (ha : a ∉ l) : l = [] := by
  rw [List.getLast?_cons] at h
  cases hl : l.getLast? with
  | none => exact List.getLast?_eq_none_iff.1 hl
  | some x =>
    have hx : x = a := by simpa [hl] using h
    exact absurd (hx ▸ List.mem_of_getLast? hl) ha

theorem performSpec_zero : PerformSpec orig σ₀ 0 := by
  intro S r index h hidx hS _ _ hfuel
  have hlen := h.length_lt hidx hS
  have : 0 < (orig.length + 2) * (orig.length - S.length) := Nat.mul_pos (by omega) (by omega)
  omega

theorem loopSpec_zero : LoopSpec orig σ₀ 0 := by
  intro S r index t _ _ _ hfuel
  omega

theorem performSpec_succ (hg : Good orig) {fuel : Nat} (hloop : LoopSpec orig σ₀ fuel) :
    PerformSpec orig σ₀ (fuel + 1) := by
  intro S r index h hidx hS hconst hchain hfuel
  have hlt := h.lt_of_live hidx
  have hdst := h.destination_of_not_mem hidx hS
  rw [performMove]
  by_cases hred : (r.get index).isRedundant = true
  · -- a free move is redundant when it reads its own destination
    have hsame : (r.get index).source = origDst orig index :=
      (by simpa [isRedundant, isEliminated, hdst, hg.destination_ne index hlt] using hred :
        (r.get index).source = .invalid ∨ _).resolve_left hidx
    rw [if_pos hred]
    exact ⟨_, _, rfl, Performed.eliminate hg h hidx hS (fun _ hj => hj) Frame.refl hsame⟩
  rw [if_neg hred]
  have h₁ := h.markPending hidx hS hchain
  have hsrc₁ := h.source_modify hidx (f := MoveOperands.markPending) fun _ => rfl
  -- the loop starts with `fuel`: one unit less than the call, which spends `n + 2` per level
  have hlen := h.length_lt hidx hS
  have hfuel' : orig.length - 0 + 1 + (orig.length + 2) * (orig.length - (S.length + 1)) ≤ fuel := by
    have hd : orig.length - S.length = orig.length - (S.length + 1) + 1 := by omega
    rw [hd, Nat.mul_succ] at hfuel
    omega
  obtain ⟨r₂, e, hrun, hlooped⟩ := hloop S _ index 0 h₁ (Nat.zero_le _)
    (fun j hj => absurd hj (Nat.not_lt_zero j)) hfuel'
  simp only [hdst, hrun]
  cases e with
  | returns j =>
    -- a move further down the cycle must swap first: pass it on
    obtain ⟨hlast, q, hq, hqS, hsq⟩ := hlooped.done
    have hidx₂ : Live r₂ index := hlooped.inv.pending index (List.mem_cons_self ..)
    have hsrc₃ := hlooped.inv.source_modify hidx₂ (f := (·.clearPending (origDst orig index)))
      fun _ => rfl
    have hmono : ∀ j, Live (r₂.modify index (·.clearPending (origDst orig index))) j → Live r j := by
      intro j hj
      have h₁ : Live (r.modify index MoveOperands.markPending) j := by
        apply hlooped.mono j
        unfold Live at hj ⊢
        rwa [hsrc₃] at hj
      unfold Live at h₁ ⊢
      rwa [hsrc₁] at h₁
    refine ⟨_, _, rfl, Performed.returns hlooped.inv.clearPending hmono hlast ?_
      (fun hm => hqS (List.mem_cons_of_mem _ hm)) (by rw [hsrc₃]; exact hsq)⟩
    unfold Live at hq ⊢
    rwa [hsrc₃]
  | done requiredSwap =>
    exact ⟨_, _, rfl, resolve_performed hg h hidx hS hconst hsrc₁ hlooped⟩

theorem loopSpec_succ (hg : Good orig) {fuel : Nat} (hperf : PerformSpec orig σ₀ fuel)
    (hloop : LoopSpec orig σ₀ fuel) : LoopSpec orig σ₀ (fuel + 1) := by
  intro S r index t h ht hscan hfuel
  have hidx : Live r index := h.pending index (List.mem_cons_self ..)
  have hS : index ∉ S := (List.nodup_cons.1 h.nodup).1
  have hlt := h.lt_of_live hidx
  have hlen : S.length + 1 ≤ orig.length := by simpa using h.length_le
  rw [performMoveLoop]
  by_cases htn : t < r.moves.length
  swap
  · -- the loop is over: every free move that read the destination is performed
    rw [if_neg htn]
    refine ⟨r, .done none, rfl, h, fun _ hj => hj, fun j hj hjS => hscan j ?_ hj hjS, Frame.refl⟩
    have := h.lt_of_live hj
    rw [h.length] at htn
    omega
  rw [if_pos htn]
  have htn' : t < orig.length := h.length ▸ htn
  -- the loop's test: a free move that reads the destination
  have hcond : ((r.get t).blocks (origDst orig index) && !(r.get t).isPending) = true ↔
      Live r t ∧ t ∉ index :: S ∧ (r.get t).source = origDst orig index := by
    rw [Bool.and_eq_true, h.blocks_iff hg (inPlay_origDst hlt), Bool.not_eq_true']
    constructor
    · rintro ⟨⟨hl, hs⟩, hp⟩
      exact ⟨hl, fun hm => by simp [(h.isPending_iff hg hl).2 hm] at hp, hs⟩
    · rintro ⟨hl, hm, hs⟩
      exact ⟨⟨hl, hs⟩, Bool.eq_false_iff.2 fun hp => hm ((h.isPending_iff hg hl).1 hp)⟩
  dsimp only
  by_cases hc : Live r t ∧ t ∉ index :: S ∧ (r.get t).source = origDst orig index
  swap
  · -- `moves_[t]` does not block: go on
    rw [if_neg fun hc' => hc (hcond.1 hc')]
    refine hloop S r index (t + 1) h htn' (fun j hj => ?_) (by omega)
    rcases Nat.lt_succ_iff_lt_or_eq.1 hj with hj | rfl
    · exact hscan j hj
    · exact fun hl hjS hs => hc ⟨hl, hjS, hs⟩
  rw [if_pos (hcond.2 hc)]
  obtain ⟨hlt', htS, hst⟩ := hc
  have hconst : (r.get t).source.isConstant = false := by
    rw [hst]
    exact hg.destination_not_constant index hlt
  have hfuel' : (orig.length + 2) * (orig.length - (index :: S).length) ≤ fuel := by
    rw [List.length_cons]
    omega
  obtain ⟨r', res, hrun, hperf'⟩ :=
    hperf (index :: S) r t h hlt' htS hconst (by simp [hst]) hfuel'
  simp only [hrun]
  cases res with
  | none =>
    -- `moves_[t]` is performed: go on
    obtain ⟨hgone, hframe⟩ := hperf'.returned
    have hscan' : ∀ j < t + 1, Live r' j → j ∉ index :: S →
        (r'.get j).source ≠ origDst orig index := by
      intro j hj hl hjS
      rcases Nat.lt_succ_iff_lt_or_eq.1 hj with hj | rfl
      · rcases hframe j hl hjS with hs | hdead
        · rw [hs]
          exact hscan j hj (hperf'.mono j hl) hjS
        · exact fun he => hdead index (hperf'.inv.pending index (List.mem_cons_self ..)) he.symm
      · exact absurd hl hgone
    obtain ⟨r'', e, hrun', hlooped⟩ :=
      hloop S r' index (t + 1) hperf'.inv htn' hscan' (by omega)
    refine ⟨r'', e, hrun', hlooped.inv, fun j hj => hperf'.mono j (hlooped.mono j hj), ?_⟩
    have hdone := hlooped.done
    cases e with
    | done requiredSwap =>
      cases requiredSwap with
      | none => exact ⟨hdone.1, hframe.trans hdone.2 hlooped.mono⟩
      | some _ => exact hdone
    | returns _ => exact hdone
  | some k =>
    -- `PerformMove(t)` returned the bottom move
    dsimp only
    rcases hperf'.returned with ⟨hnil, -, -⟩ | ⟨hlast, q, hq, hqS, hsq⟩
    · exact absurd hnil (List.cons_ne_nil _ _)
    have hkt : k ≠ t := fun he => htS (he ▸ List.mem_of_getLast? hlast)
    by_cases hki : k = index
    · -- it is this move: break, and swap
      subst k
      rw [if_pos rfl]
      exact ⟨_, _, rfl, hperf'.inv, hperf'.mono, rfl, eq_nil_of_getLast? hlast hS, q, hq, hqS, hsq⟩
    · rw [if_neg hki, if_neg hkt]
      exact ⟨_, _, rfl, hperf'.inv, hperf'.mono, getLast?_of_cons hlast hki, q, hq, hqS, hsq⟩

/-- `PerformMove` and its loop, for every fuel. -/
theorem performSpec_loopSpec (hg : Good orig) (fuel : Nat) :
    PerformSpec orig σ₀ fuel ∧ LoopSpec orig σ₀ fuel := by
  induction fuel with
  | zero => exact ⟨performSpec_zero, loopSpec_zero⟩
  | succ fuel ih => exact ⟨performSpec_succ hg ih.2, loopSpec_succ hg ih.1 ih.2⟩

/-! ### `EmitNativeCode` -/

/-- A parallel move as the register allocator builds it: valid sources and destinations
(`HParallelMove::AddMove`), destinations that are not constants and are pairwise distinct, and
no two of its locations overlapping unless they are equal. -/
structure WellFormed (parallelMove : List MoveOperands) : Prop where
  source_ne : ∀ m ∈ parallelMove, m.source ≠ .invalid
  destination_ne : ∀ m ∈ parallelMove, m.destination ≠ .invalid
  destination_not_constant : ∀ m ∈ parallelMove, m.destination.isConstant = false
  nodup : (parallelMove.map MoveOperands.destination).Nodup
  overlap : ∀ m ∈ parallelMove, ∀ m' ∈ parallelMove, ∀ x ∈ [m.source, m.destination],
    ∀ y ∈ [m'.source, m'.destination], x.overlapsWith y = true → x = y

namespace WellFormed

variable {parallelMove : List MoveOperands} (hwf : WellFormed parallelMove)
include hwf

/-- What `BuildInitialMoveList` keeps of a well-formed parallel move is what the resolver takes. -/
theorem good : Good (buildInitialMoveList parallelMove) := by
  have hmem : ∀ j (hj : j < (buildInitialMoveList parallelMove).length),
      (buildInitialMoveList parallelMove)[j] ∈ parallelMove ∧
        (buildInitialMoveList parallelMove)[j].isRedundant = false := by
    intro j hj
    have := List.mem_filter.1 (List.getElem_mem hj)
    exact ⟨this.1, by simpa using this.2⟩
  have hloc : ∀ j (hj : j < (buildInitialMoveList parallelMove).length) x,
      x = origSrc (buildInitialMoveList parallelMove) j ∨
        x = origDst (buildInitialMoveList parallelMove) j →
      x ∈ [(buildInitialMoveList parallelMove)[j].source,
        (buildInitialMoveList parallelMove)[j].destination] := by
    intro j hj x hx
    rw [origSrc_of_lt hj, origDst_of_lt hj] at hx
    rcases hx with rfl | rfl <;> simp
  refine ⟨fun j hj => ?_, fun j hj => ?_, fun j hj => ?_, fun j hj => ?_, ?_, ?_⟩
  · rw [origSrc_of_lt hj]
    exact hwf.source_ne _ (hmem j hj).1
  · rw [origDst_of_lt hj]
    exact hwf.destination_ne _ (hmem j hj).1
  · rw [origDst_of_lt hj]
    exact hwf.destination_not_constant _ (hmem j hj).1
  · rw [origSrc_of_lt hj, origDst_of_lt hj]
    intro he
    have := (hmem j hj).2
    simp [isRedundant, he] at this
  · exact (List.filter_sublist.map _).nodup hwf.nodup
  · rintro x y ⟨i, hi, hx⟩ ⟨j, hj, hy⟩ hxy
    exact hwf.overlap _ (hmem i hi).1 _ (hmem j hj).1 x (hloc i hi x hx) y (hloc j hj y hy) hxy

/-- Dropping the redundant moves leaves the parallel move what it was. -/
theorem target_eq (σ₀ : Location → V) :
    target (buildInitialMoveList parallelMove) σ₀ =
      parallel (parallelMove.map fun m => (m.source, m.destination)) σ₀ := by
  let keep : Location × Location → Bool := fun p => !(!p.1.isValid || !p.2.isValid || p.1 == p.2)
  have hkeep : (buildInitialMoveList parallelMove).map (fun m => (m.source, m.destination)) =
      (parallelMove.map fun m => (m.source, m.destination)).filter keep := by
    rw [List.filter_map]
    rfl
  rw [target, hkeep]
  refine parallel_filter (by simpa [List.map_map, Function.comp_def] using hwf.nodup) ?_ σ₀
  intro p hp hk
  obtain ⟨m, hm, rfl⟩ := List.mem_map.1 hp
  simpa [keep, hwf.source_ne m hm, hwf.destination_ne m hm] using hk

end WellFormed

/-- A sweep over the moves `l` calls `PerformMove` at the top level, which eliminates the move.
What holds of a move once the sweep has passed it (`Done`) holds at the end. -/
theorem foldlM_performMove (hg : Good orig) {fuel : Nat}
    (hfuel : (orig.length + 2) * orig.length ≤ fuel) (cond : MoveOperands → Bool)
    (hcond : ∀ m, cond m = true → m.source ≠ .invalid ∧ m.source.isConstant = false)
    (Done : Nat → Resolver → Prop)
    (hdone : ∀ r j, Inv orig σ₀ [] r → (¬Live r j ∨ cond (r.get j) = false) → Done j r)
    (hstable : ∀ r r' j, (∀ k, Live r' k → Live r k) → Done j r → Done j r') :
    ∀ (l : List Nat) (r : Resolver), Inv orig σ₀ [] r → ∃ r',
      l.foldlM (fun r i => if cond (r.get i) then (performMove fuel r i).map Prod.fst else some r)
        r = some r' ∧ Inv orig σ₀ [] r' ∧ (∀ k, Live r' k → Live r k) ∧ ∀ j ∈ l, Done j r' := by
  intro l
  induction l with
  | nil => exact fun r h => ⟨r, rfl, h, fun _ hk => hk, fun _ hj => absurd hj List.not_mem_nil⟩
  | cons i rest ih =>
    intro r h
    -- the step at `i`: afterwards `i` is eliminated, or the sweep does not select it
    obtain ⟨r₁, hstep, h₁, hmono₁, hi⟩ : ∃ r₁,
        (if cond (r.get i) then (performMove fuel r i).map Prod.fst else some r) = some r₁ ∧
        Inv orig σ₀ [] r₁ ∧ (∀ k, Live r₁ k → Live r k) ∧
        (¬Live r₁ i ∨ cond (r₁.get i) = false) := by
      by_cases hc : cond (r.get i) = true
      · obtain ⟨hlive, hconst⟩ := hcond _ hc
        obtain ⟨r₁, res, hrun, hperf⟩ :=
          (performSpec_loopSpec hg fuel).1 [] r i h hlive List.not_mem_nil hconst
            (fun _ hp => absurd hp (by simp)) (by simpa using hfuel)
        refine ⟨r₁, by rw [if_pos hc, hrun]; rfl, hperf.inv, hperf.mono, .inl ?_⟩
        have hret := hperf.returned
        cases res with
        | none => exact hret.1
        | some j =>
          rcases hret with ⟨-, -, hgone⟩ | ⟨hlast, -⟩
          exacts [hgone, absurd hlast (by simp)]
      · exact ⟨r, if_neg hc, h, fun _ hk => hk, .inr (Bool.eq_false_iff.2 hc)⟩
    obtain ⟨r', hrun, h', hmono', hdone'⟩ := ih r₁ h₁
    refine ⟨r', by rw [List.foldlM_cons, hstep]; exact hrun, h',
      fun k hk => hmono₁ k (hmono' k hk), fun j hj => ?_⟩
    rcases List.mem_cons.1 hj with rfl | hj
    · exact hstable _ _ _ hmono' (hdone _ _ h₁ hi)
    · exact hdone' j hj

/-- The constant sweep moves every move left, once all of them load constants. -/
theorem foldl_doMove (hg : Good orig) :
    ∀ (l : List Nat) (r : Resolver), Inv orig σ₀ [] r →
      (∀ j, Live r j → (origSrc orig j).isConstant = true) →
      Inv orig σ₀ []
          (l.foldl (fun r i => if !(r.get i).isEliminated then r.doMove i else r) r) ∧
        (∀ k, Live (l.foldl (fun r i => if !(r.get i).isEliminated then r.doMove i else r) r) k →
          Live r k) ∧
        ∀ j ∈ l, ¬Live (l.foldl (fun r i => if !(r.get i).isEliminated then r.doMove i else r) r) j
  | [], r, h, _ => ⟨h, fun _ hk => hk, fun _ hj => absurd hj List.not_mem_nil⟩
  | i :: rest, r, h, hconst => by
    rw [List.foldl_cons]
    -- the step at `i` moves it if it is live; no live move reads a destination
    obtain ⟨h₁, hlive₁⟩ : Inv orig σ₀ []
        (if !(r.get i).isEliminated then r.doMove i else r) ∧
        ∀ k, Live (if !(r.get i).isEliminated then r.doMove i else r) k ↔ Live r k ∧ k ≠ i := by
      by_cases hi : Live r i
      · have hsel : (!(r.get i).isEliminated) = true := by
          simpa [isEliminated] using (show (r.get i).source ≠ .invalid from hi)
        rw [if_pos hsel]
        refine ⟨h.doMove hg hi List.not_mem_nil fun j hj _ he => ?_, fun k => ?_⟩
        · have hc := h.constant j hj
          rw [hconst j hj, he, hg.destination_not_constant i (h.lt_of_live hi)] at hc
          cases hc
        · unfold Live
          rw [get_doMove]
          exact h.live_modify_eliminate hi
      · have hsel : (!(r.get i).isEliminated) = false := by
          simpa [isEliminated, Live] using hi
        rw [if_neg (by simp [hsel])]
        exact ⟨h, fun k => ⟨fun hk => ⟨hk, fun he => hi (he ▸ hk)⟩, And.left⟩⟩
    obtain ⟨h', hmono', hgone⟩ := foldl_doMove hg rest _ h₁ fun j hj => hconst j ((hlive₁ j).1 hj).1
    refine ⟨h', fun k hk => ((hlive₁ k).1 (hmono' k hk)).1, fun j hj => ?_⟩
    rcases List.mem_cons.1 hj with rfl | hj
    · exact fun hl => ((hlive₁ j).1 (hmono' j hl)).2 rfl
    · exact hgone j hj

/-- The resolver starts from the moves `BuildInitialMoveList` keeps, and nothing emitted. -/
theorem inv_init (hg : Good orig) : Inv orig σ₀ [] ⟨orig, []⟩ := by
  have hlt : ∀ j, Live ⟨orig, []⟩ j → j < orig.length := by
    intro j hj
    by_contra hge
    exact hj (by rw [get_eq_default (by simp; omega)]; rfl)
  refine ⟨rfl, fun _ hj => absurd hj List.not_mem_nil,
    fun j _ => by simp only [List.not_mem_nil, if_false]; rfl,
    fun j hj => ⟨j, hlt j hj, .inl rfl⟩, fun _ _ => rfl, List.nodup_nil, .nil, ?_, ?_⟩
  · exact fun _ _ => rfl
  · -- a location that no move writes keeps its value
    intro x hx
    refine (parallel_of_forall_ne (fun m hm he => ?_) σ₀).symm
    obtain ⟨m', hm', rfl⟩ := List.mem_map.1 hm
    obtain ⟨j, hj, rfl⟩ := List.getElem_of_mem hm'
    refine hx j (hg.source_ne j hj) ?_
    rw [origDst_of_lt hj]
    exact he

/-- `EmitNativeCode` with enough fuel performs the moves `BuildInitialMoveList` keeps. -/
theorem emitNativeCode_exec {parallelMove : List MoveOperands}
    (hg : Good (buildInitialMoveList parallelMove)) {fuel : Nat}
    (hfuel : ((buildInitialMoveList parallelMove).length + 2) *
      (buildInitialMoveList parallelMove).length ≤ fuel) (σ₀ : Location → V) :
    ∃ code, emitNativeCode fuel parallelMove = some code ∧
      exec σ₀ (code.map Emit.instr) = target (buildInitialMoveList parallelMove) σ₀ := by
  have h₀ : Inv (buildInitialMoveList parallelMove) σ₀ [] ⟨buildInitialMoveList parallelMove, []⟩ :=
    inv_init hg
  -- the stack-slot sweep and the sweep of the other moves that do not load a constant
  obtain ⟨r₁, hrun₁, h₁, -, -⟩ := foldlM_performMove hg hfuel isStackToStack
    (fun m hm => by simp_all [isStackToStack, isEliminated])
    (fun _ _ => True) (fun _ _ _ _ => trivial) (fun _ _ _ _ _ => trivial)
    (List.range (buildInitialMoveList parallelMove).length) _ h₀
  obtain ⟨r₂, hrun₂, h₂, -, hconst₂⟩ := foldlM_performMove hg hfuel isNotConstant
    (fun m hm => by simp_all [isNotConstant, isEliminated])
    (fun j r => Live r j → (origSrc (buildInitialMoveList parallelMove) j).isConstant = true)
    (fun r j h hj hl => by
      rcases hj with hj | hj
      · exact absurd hl hj
      · rw [← h.constant j hl]
        simpa [isNotConstant, isEliminated, show (r.get j).source ≠ .invalid from hl] using hj)
    (fun r r' j hmono hd hl => hd (hmono j hl)) (List.range r₁.moves.length) r₁ h₁
  have hall : ∀ j, Live r₂ j → (origSrc (buildInitialMoveList parallelMove) j).isConstant = true :=
    fun j hj => hconst₂ j (List.mem_range.2 (h₁.length ▸ h₂.lt_of_live hj)) hj
  -- the constant sweep
  obtain ⟨h₃, -, hgone⟩ := foldl_doMove hg (List.range r₂.moves.length) r₂ h₂ hall
  refine ⟨_, ?_, h₃.progress.eq_target fun j hj => ?_⟩
  · simp only [emitNativeCode, performSweep, hrun₁, Option.bind_some, hrun₂, Option.map_some,
      emitConstants]
  · exact hgone j (List.mem_range.2 (h₂.length ▸ h₃.lt_of_live hj)) hj

/-- The cycle of the resolver's own comment, `(R0 -> R1)` on 64 bits, `(R1 -> S)` and
`(S -> R0)`, with a constant loaded into `R2`. -/
def cycleWithConstant : List MoveOperands :=
  [⟨.register 0, .register 1, .int64⟩, ⟨.register 1, .stackSlot 8, .int32⟩,
    ⟨.stackSlot 8, .register 0, .int32⟩, ⟨.constant 0, .register 2, .int32⟩]

end ParallelMoveResolver
end Art
