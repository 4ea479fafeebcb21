import Art.Lib.Dominance
import Art.Compiler.Nodes

/-!
# The control-flow graph as the code generators' analyses read it (`compiler/optimizing/nodes.h`)

An `HGraph` has blocks `β` and instructions `ι`. An instruction has its block, its kind with its
inputs (`InputAt`), the integral kind of its value (`GetType`, `none` for references and
floating point) and its users in use-list order (`GetUses`); a block has its successors (the true
successor first after an `HIf`) and its last instruction. `HBasicBlock::Dominates` walks the
dominator tree; here it is the graph's `dominates`, which `HGraph.WellFormed` requires to be
sound for dominance on walks. `WellFormed` also asks what SSA form and the splitting of critical
edges give: the block of an input dominates the block of its user (a phi apart), and each
successor of an `HIf` has the `HIf`'s block as only predecessor.

An `HRun` is one execution up to some number of block visits: the visited blocks form a walk from
the entry, each visit recomputes the instructions of its block, and an `HIf` goes to its true
successor exactly when its input is non-zero. Only what the analyses read is fixed: array lengths
are non-negative, `HMin`, `HAbs`, the constants and the conditions compute their Java values, and
every other instruction (phis included) may hold any value of its type; so every Java execution
of the graph is a run. On every run, `IsGEZero` is sound (`isGEZero_sound`).
-/

namespace Art

namespace IntType

/-- `MinValueOfIntegralType`. -/
def minValue (t : IntType) : Int := -2 ^ (t.bits - 1)

/-- The Java values of a kind. -/
def InRange (t : IntType) (x : Int) : Prop := -2 ^ (t.bits - 1) ≤ x ∧ x < 2 ^ (t.bits - 1)

namespace InRange

variable {t : IntType} {x : Int}

/-- A value of the kind is what its bit pattern reads back as. -/
theorem toInt_ofInt (h : t.InRange x) : (BitVec.ofInt t.bits x).toInt = x :=
  BitVec.toInt_ofInt_eq_self t.bits_pos h.1 h.2

/-- A value of the kind is also what its sign-extended `int64_t` reads back as. -/
theorem toInt_ofInt_64 (h : t.InRange x) : (BitVec.ofInt 64 x).toInt = x := by
  obtain ⟨hlo, hhi⟩ := h
  cases t <;> simp only [bits, Nat.reduceSub, Int.reducePow] at hlo hhi <;>
    exact BitVec.toInt_ofInt_eq_self (by decide) (by omega) (by omega)

/-- A power of two of the kind, in absolute value, has an exponent below the width. -/
theorem lt_bits_of_natAbs_eq (h : t.InRange x) {k : Nat} (hk : x.natAbs = 2 ^ k) : k < t.bits := by
  have habs : ((2 ^ k : Nat) : Int) ≤ ((2 ^ (t.bits - 1) : Nat) : Int) := by
    have := h.1
    have := h.2
    rcases Int.natAbs_eq x with hx | hx <;> rw [hk] at hx <;> push_cast at hx ⊢ <;> omega
  have hle : k ≤ t.bits - 1 := (Nat.pow_le_pow_iff_right (show 1 < 2 by decide)).1 (by exact_mod_cast habs)
  have := t.bits_pos
  omega

end InRange

end IntType

/-- `IfCondition`: the comparisons of an `HCondition`, signed, then unsigned (`b`elow, `a`bove). -/
inductive IfCondition where
  | eq | ne | lt | le | gt | ge | b | be | a | ae
  deriving DecidableEq, Repr

/-- When a comparison of two values of kind `t` holds; the unsigned ones compare the bits. -/
def IfCondition.Holds (t : IntType) : IfCondition → Int → Int → Prop
  | .eq, x, y => x = y
  | .ne, x, y => x ≠ y
  | .lt, x, y => x < y
  | .le, x, y => x ≤ y
  | .gt, x, y => x > y
  | .ge, x, y => x ≥ y
  | .b, x, y => x % 2 ^ t.bits < y % 2 ^ t.bits
  | .be, x, y => x % 2 ^ t.bits ≤ y % 2 ^ t.bits
  | .a, x, y => x % 2 ^ t.bits > y % 2 ^ t.bits
  | .ae, x, y => x % 2 ^ t.bits ≥ y % 2 ^ t.bits

/-- The kinds of instruction the analyses tell apart (`HInstruction::InstructionKind`), with the
inputs they read. -/
inductive HKind (ι : Type) where
  | arrayLength (array : ι)
  | min (left right : ι)
  | abs (input : ι)
  | intConstant (value : Int)
  | longConstant (value : Int)
  | nullConstant
  | condition (cond : IfCondition) (left right : ι)
  | ifInstr (input : ι)
  | div (dividend divisor : ι)
  | rem (dividend divisor : ι)
  | phi (inputs : List ι)
  | other (inputs : List ι)
  deriving DecidableEq, Repr

namespace HKind

variable {ι : Type}

/-- `GetInputs()`. -/
def inputs : HKind ι → List ι
  | arrayLength a => [a]
  | min l r => [l, r]
  | abs i => [i]
  | intConstant _ | longConstant _ | nullConstant => []
  | condition _ l r => [l, r]
  | ifInstr i => [i]
  | div l r | rem l r => [l, r]
  | phi is | other is => is

/-- `IsPhi()`. -/
def isPhi : HKind ι → Bool
  | phi _ => true
  | _ => false

/-- `IsCondition()`. -/
def isCondition : HKind ι → Bool
  | condition .. => true
  | _ => false

/-- `IsInt64AndGet`: the value of an integral or null constant. -/
def int64Value? : HKind ι → Option Int
  | intConstant c | longConstant c => some c
  | nullConstant => some 0
  | _ => none

end HKind

/-- What the code generators' analyses read of a graph. `rank` orders every instruction after the
inputs it reads, a phi's apart: the graph is in SSA form. -/
structure HGraph (ι β : Type) where
  entry : β
  successors : β → List β
  lastInstruction : β → Option ι
  dominates : β → β → Bool
  block : ι → β
  kind : ι → HKind ι
  type : ι → Option IntType
  uses : ι → List ι
  rank : ι → ℕ
  rank_lt : ∀ v, ∀ a ∈ (kind v).inputs, (kind v).isPhi = false → rank a < rank v

namespace HGraph

variable {ι β : Type} (g : HGraph ι β)

/-- The control-flow edges. -/
def Edge (b b' : β) : Prop := b' ∈ g.successors b

/-- Dominance of blocks, on walks from the entry. -/
def Dominates (a b : β) : Prop := Dominance.Dominates g.Edge g.entry a b

/-- `IfTrueSuccessor()` (`true`) and `IfFalseSuccessor()` (`false`) of a block ending in `HIf`. -/
def ifSuccessor (b : β) (branch : Bool) : Option β :=
  (g.successors b)[if branch then 0 else 1]?

/-- The input of the `HIf` that ends block `b`, if it ends in one: `EndsWithIf()` and
`GetLastInstruction()->InputAt(0)`. -/
def ifInput (b : β) : Option ι :=
  match g.lastInstruction b with
  | some last =>
    match g.kind last with
    | .ifInstr input => some input
    | _ => none
  | none => none

/-- `IsGEZero` (`nodes.cc`): array lengths, `HMin` of two and `HAbs` of one such value, and
non-negative constants are never negative. -/
def isGEZero (v : ι) : Bool :=
  match _h : g.kind v with
  | .arrayLength _ => true
  | .min l r => isGEZero l && isGEZero r
  | .abs i => isGEZero i
  | k =>
    match k.int64Value? with
    | some c => decide (0 ≤ c)
    | none => false
termination_by g.rank v
decreasing_by
  all_goals exact g.rank_lt v _ (by simp [_h, HKind.inputs]) (by simp [_h, HKind.isPhi])

/-- What an instruction's value is, given the values `env` of the instructions at the visit of its
block: fixed for the kinds the analyses read, free for the others. -/
def Computes (env : ι → Int) (v : ι) : Prop :=
  match g.kind v with
  | .arrayLength _ => 0 ≤ env v
  | .min l r => g.type v ≠ none → env v = min (env l) (env r)
  | .abs i => ∀ t, g.type v = some t → env v = if env i = t.minValue then env i else ((env i).natAbs : Int)
  | .intConstant c | .longConstant c => env v = c
  | .nullConstant => env v = 0
  | .condition c l r => ∀ t, g.type l = some t → (env v ≠ 0 ↔ c.Holds t (env l) (env r))
  | _ => True

/-- What the analyses may assume of a graph the compiler has built. -/
structure WellFormed : Prop where
  /-- SSA form: an input's block dominates the block of a user other than a phi. -/
  input_dominates : ∀ v, ∀ a ∈ (g.kind v).inputs, (g.kind v).isPhi = false →
    g.Dominates (g.block a) (g.block v)
  /-- `HBasicBlock::Dominates` reads a correct dominator tree. -/
  dominates_sound : ∀ a b, g.dominates a b = true → g.Dominates a b
  lastInstruction_block : ∀ b i, g.lastInstruction b = some i → g.block i = b
  /-- An `HIf`'s block has two distinct successors and, critical edges being split, is the only
  predecessor of each. -/
  if_successors : ∀ b i c, g.lastInstruction b = some i → g.kind i = .ifInstr c →
    (g.successors b).length = 2 ∧ (g.successors b).Nodup ∧
      ∀ s ∈ g.successors b, ∀ x, g.Edge x s → x = b
  entry_no_pred : ∀ b, ¬ g.Edge b g.entry
  uses_inputs : ∀ v u, u ∈ g.uses v → v ∈ (g.kind u).inputs
  /-- The operands of `HMin`, `HAbs`, a condition and a division have the instruction's kind (the
  other operand's, for a condition). -/
  min_type : ∀ v l r, g.kind v = .min l r → g.type l = g.type v ∧ g.type r = g.type v
  abs_type : ∀ v i, g.kind v = .abs i → g.type i = g.type v
  condition_type : ∀ v c l r, g.kind v = .condition c l r → g.type l = g.type r
  div_type : ∀ v l r, (g.kind v = .div l r ∨ g.kind v = .rem l r) → g.type l = g.type v

end HGraph

/-- One execution of a graph up to its `length`-th block visit: the blocks it visits, and after
the `k`-th visit the value of every instruction (the one last computed, or any value of its type
before the first). -/
structure HRun {ι β : Type} (g : HGraph ι β) where
  length : ℕ
  blockAt : ℕ → β
  env : ℕ → ι → Int
  walk : Dominance.IsWalk g.Edge g.entry blockAt length
  frame : ∀ k < length, ∀ v, g.block v ≠ blockAt (k + 1) → env (k + 1) v = env k v
  computes : ∀ k ≤ length, ∀ v, g.block v = blockAt k → g.Computes (env k) v
  branch : ∀ k < length, ∀ i c, g.lastInstruction (blockAt k) = some i → g.kind i = .ifInstr c →
    g.ifSuccessor (blockAt k) (decide (env k c ≠ 0)) = some (blockAt (k + 1))
  inRange : ∀ k v t, g.type v = some t → t.InRange (env k v)

namespace HRun

variable {ι β : Type} {g : HGraph ι β} (r : HRun g)

/-- An instruction keeps its value while its block is not visited again. -/
theorem env_eq_of_not_visited {v : ι} {i k : ℕ} (hik : i ≤ k) (hk : k ≤ r.length)
    (hnot : ∀ m, i < m → m ≤ k → r.blockAt m ≠ g.block v) : r.env k v = r.env i v := by
  induction k, hik using Nat.le_induction with
  | base => rfl
  | succ k hik ih =>
    rw [r.frame k (by omega) v (fun h => hnot (k + 1) (by omega) le_rfl h.symm)]
    exact ih (by omega) fun m him hmk => hnot m him (by omega)

/-- An instruction whose block was visited holds what it computed at the last visit. -/
theorem exists_last_computation {v : ι} {k : ℕ} (hk : k ≤ r.length)
    (hdef : ∃ i ≤ k, r.blockAt i = g.block v) :
    ∃ i ≤ k, r.blockAt i = g.block v ∧ r.env k v = r.env i v ∧ g.Computes (r.env i) v := by
  obtain ⟨i, hik, hi, hlast⟩ := Dominance.exists_last_visit hdef
  exact ⟨i, hik, hi, r.env_eq_of_not_visited hik hk hlast,
    r.computes i (by omega) v hi.symm⟩

/-- A block that dominates a visited block was visited before. -/
theorem visited_of_dominates {a b : β} (hab : g.Dominates a b) {i : ℕ} (hi : i ≤ r.length)
    (hb : r.blockAt i = b) : ∃ i' ≤ i, r.blockAt i' = a :=
  hab r.blockAt i (r.walk.mono hi) hb

/-- The last time a run entered `s` before reaching `t`, which `s` dominates, it came from `s`'s
only predecessor `c`; if `v`'s block dominates `c`, `v` has kept since then the value it had
at that visit of `c`. -/
theorem exists_visit_of_pred {v : ι} {c s t : β} (hpred : ∀ x, g.Edge x s → x = c)
    (hs : s ≠ g.entry) (hvc : g.Dominates (g.block v) c) (hst : g.Dominates s t) {k : ℕ}
    (hk : k ≤ r.length) (hkt : r.blockAt k = t) :
    ∃ i < k, r.blockAt i = c ∧ r.blockAt (i + 1) = s ∧ r.env k v = r.env i v := by
  have hwalk := r.walk.mono hk
  have hvs : g.Dominates (g.block v) s := hvc.trans (Dominance.dominates_of_pred hpred hs)
  -- `v`'s block is not `s`: a reachable `s` does not dominate its only predecessor
  have hne : g.block v ≠ s := by
    intro heq
    obtain ⟨j, hjk, hj⟩ := hst r.blockAt k hwalk hkt
    exact Dominance.not_dominates_pred hpred hs (hwalk.mono hjk) hj (heq ▸ hvc)
  obtain ⟨i', hi'k, hi', havoid⟩ := Dominance.exists_visit_avoiding hvs hst hne hwalk hkt
  obtain ⟨hpos, hc⟩ := Dominance.pred_of_visit hpred hs hwalk hi'k hi'
  obtain ⟨i, rfl⟩ : ∃ i, i' = i + 1 := ⟨i' - 1, by omega⟩
  rw [Nat.add_sub_cancel] at hc
  refine ⟨i, by omega, hc, hi', ?_⟩
  rw [r.env_eq_of_not_visited hi'k hk (fun m hm hmk => havoid m (by omega) hmk),
    r.frame i (by omega) v (by rw [hi']; exact hne)]

end HRun

namespace HGraph

variable {ι β : Type} {g : HGraph ι β}

theorem ifInput_eq_some {b : β} {c : ι} (h : g.ifInput b = some c) :
    ∃ last, g.lastInstruction b = some last ∧ g.kind last = .ifInstr c := by
  unfold ifInput at h
  split at h
  · next last hlast =>
    split at h
    · next input hkind => exact ⟨last, hlast, by rw [hkind, Option.some.inj h]⟩
    · exact absurd h (by simp)
  · exact absurd h (by simp)

theorem ifSuccessor_edge {b s : β} {branch : Bool} (h : g.ifSuccessor b branch = some s) :
    g.Edge b s :=
  List.mem_of_getElem? h

/-- The two successors of an `HIf` are told apart by the branch that leads to them. -/
theorem ifSuccessor_injective {b s : β} (hlen : (g.successors b).length = 2)
    (hnodup : (g.successors b).Nodup) {x y : Bool} (hx : g.ifSuccessor b x = some s)
    (hy : g.ifSuccessor b y = some s) : x = y := by
  unfold ifSuccessor at hx hy
  have hxy := (List.getElem?_inj (by split <;> omega) hnodup).1 (hx.trans hy.symm)
  cases x <;> cases y <;> simp at hxy ⊢

/-- `IsGEZero` is sound: on every run, an instruction it accepts is never negative once computed.
By induction along the inputs it reads; each was computed at the visit that computed `v`. -/
theorem isGEZero_sound (hg : g.WellFormed) (r : HRun g) {v : ι} (hv : g.isGEZero v = true)
    (ht : g.type v ≠ none) {k : ℕ} (hk : k ≤ r.length) (hdef : ∃ i ≤ k, r.blockAt i = g.block v) :
    0 ≤ r.env k v := by
  induction hrank : g.rank v using Nat.strong_induction_on generalizing v k with
  | _ n ih =>
  obtain ⟨i, hik, hi, henv, hcomp⟩ := r.exists_last_computation hk hdef
  rw [henv]
  -- an input of `v` is computed by the `i`-th visit, and ranks below `v`
  have hinput : ∀ a ∈ (g.kind v).inputs, (g.kind v).isPhi = false → g.isGEZero a = true →
      g.type a ≠ none → 0 ≤ r.env i a := fun a ha hphi hga hta =>
    ih (g.rank a) (hrank ▸ g.rank_lt v a ha hphi) hga hta (by omega)
      (r.visited_of_dominates (hg.input_dominates v a ha hphi) (by omega) hi) rfl
  unfold Computes at hcomp
  cases hkind : g.kind v with
  | arrayLength a =>
    rw [hkind] at hcomp
    exact hcomp
  | min l rr =>
    rw [hkind] at hcomp
    rw [isGEZero, hkind, Bool.and_eq_true] at hv
    obtain ⟨htl, htr⟩ := hg.min_type v l rr hkind
    rw [hcomp ht]
    have hl := hinput l (by simp [hkind, HKind.inputs]) (by simp [hkind, HKind.isPhi]) hv.1 (htl ▸ ht)
    have hr := hinput rr (by simp [hkind, HKind.inputs]) (by simp [hkind, HKind.isPhi]) hv.2
      (htr ▸ ht)
    exact Int.le_min.2 ⟨hl, hr⟩
  | abs a =>
    rw [hkind] at hcomp
    rw [isGEZero, hkind] at hv
    obtain ⟨t, htv⟩ := Option.ne_none_iff_exists'.1 ht
    have ha := hinput a (by simp [hkind, HKind.inputs]) (by simp [hkind, HKind.isPhi]) hv
      (hg.abs_type v a hkind ▸ ht)
    rw [hcomp t htv]
    split
    · exact ha
    · exact Int.natCast_nonneg _
  | intConstant c | longConstant c =>
    rw [hkind] at hcomp
    rw [isGEZero, hkind] at hv
    have hc : r.env i v = c := hcomp
    rw [hc]
    exact of_decide_eq_true hv
  | nullConstant =>
    rw [hkind] at hcomp
    have h0 : r.env i v = 0 := hcomp
    omega
  | condition | ifInstr | div | rem | phi | other =>
    rw [isGEZero, hkind] at hv
    exact absurd hv Bool.false_ne_true

end HGraph

end Art
