import Art.Lib.ParallelAssignment
import Mathlib.Data.List.GetD

/-!
# The parallel move resolver with swaps (`compiler/optimizing/parallel_move_resolver.cc`)

An `HParallelMove` is a list of `MoveOperands`: a source `Location`, a destination and the type
of the value. `ParallelMoveResolverWithSwap::EmitNativeCode` turns it into a sequence of
`EmitMove(index)` and `EmitSwap(index)` calls to the code generator, in three sweeps over
`moves_`:
1. `PerformMove` for the moves from a stack slot to a stack slot;
2. `PerformMove` for the other moves that do not load a constant;
3. `EmitMove` for the constants.

`PerformMove(index)` works in four steps:
- it marks its move pending, by clearing the destination and keeping it in a local;
- it performs, depth first, every move that reads that destination;
- it then moves, or swaps with its source if a pending move still reads the destination (a cycle);
- after a swap, it renames the sources of the other moves (`UpdateSourceOf`).

A 32-bit move in a cycle with a 64-bit move does not swap. It returns the 64-bit move up the
recursion (`required_swap`), and that move swaps first.

The model keeps `moves_` as a list, and a move is known by its index, which stands for its
pointer. The calls to the code generator are recorded with the move as it is at the call
(`Emit`). The recursion is bounded by `fuel`: `performMove` and each turn of its dependency loop
spend one unit, and the result is `none` where it runs out.
-/

namespace Art

/-- `Location` after register allocation: `kInvalid` (`NoLocation()`), `kConstant` with the
identity of its `HConstant`, `kRegister`, `kFpuRegister`, `kRegisterPair`, `kFpuRegisterPair`,
`kStackSlot` and `kDoubleStackSlot` with their stack index. `Equals` compares the encoded
values, which is equality here. -/
inductive Location where
  | invalid
  | constant (constant : Nat)
  | register (reg : Nat)
  | fpuRegister (reg : Nat)
  | registerPair (low high : Nat)
  | fpuRegisterPair (low high : Nat)
  | stackSlot (index : Int)
  | doubleStackSlot (index : Int)
deriving DecidableEq, Repr, Inhabited

namespace Location

/-- `IsValid()`. -/
def isValid : Location → Bool
  | invalid => false
  | _ => true

/-- `IsConstant()`. -/
def isConstant : Location → Bool
  | constant _ => true
  | _ => false

/-- `IsStackSlot()`. -/
def isStackSlot : Location → Bool
  | stackSlot _ => true
  | _ => false

/-- `IsDoubleStackSlot()`. -/
def isDoubleStackSlot : Location → Bool
  | doubleStackSlot _ => true
  | _ => false

/-- `IsPair()`: a register pair or an FPU register pair. -/
def isPair : Location → Bool
  | registerPair _ _ | fpuRegisterPair _ _ => true
  | _ => false

/-- `ToLow()`, asked of pairs and double stack slots only. -/
def toLow : Location → Location
  | registerPair low _ => register low
  | fpuRegisterPair low _ => fpuRegister low
  | doubleStackSlot index => stackSlot index
  | _ => invalid

/-- `ToHigh()`, asked of pairs and double stack slots only; the high word of a double stack slot
is four bytes up (`GetHighStackIndex(4)`). -/
def toHigh : Location → Location
  | registerPair _ high => register high
  | fpuRegisterPair _ high => fpuRegister high
  | doubleStackSlot index => stackSlot (index + 4)
  | _ => invalid

/-- `Contains(other)`: equal, or a half of this pair or double stack slot. -/
def contains (l other : Location) : Bool :=
  l == other || ((l.isPair || l.isDoubleStackSlot) && (l.toLow == other || l.toHigh == other))

/-- `OverlapsWith(other)`. -/
def overlapsWith (l other : Location) : Bool := l.contains other || other.contains l

@[simp] theorem overlapsWith_self (l : Location) : l.overlapsWith l = true := by
  simp [overlapsWith, contains]

@[simp] theorem isValid_eq_false_iff {l : Location} : l.isValid = false ↔ l = invalid := by
  cases l <;> simp [isValid]

@[simp] theorem isValid_eq_true_iff {l : Location} : l.isValid = true ↔ l ≠ invalid := by
  cases l <;> simp [isValid]

end Location

/-- `DataType::Type`. -/
inductive DataType where
  | reference | bool | uint8 | int8 | uint16 | int16 | uint32 | int32 | uint64 | int64
  | float32 | float64 | void
deriving DecidableEq, Repr, Inhabited

/-- `DataType::Is64BitType(type)`. -/
def DataType.is64BitType : DataType → Bool
  | uint64 | int64 | float64 => true
  | _ => false

/-- `MoveOperands`: `source_`, `destination_` and `type_`. -/
structure MoveOperands where
  source : Location
  destination : Location
  type : DataType
deriving DecidableEq, Repr, Inhabited

namespace MoveOperands

/-- `MarkPending()`, the destination cleared; the caller keeps the old one. -/
def markPending (m : MoveOperands) : MoveOperands := { m with destination := .invalid }

/-- `ClearPending(dest)`. -/
def clearPending (m : MoveOperands) (dest : Location) : MoveOperands := { m with destination := dest }

/-- `IsPending()`. -/
def isPending (m : MoveOperands) : Bool := !m.destination.isValid && m.source.isValid

/-- `IsEliminated()`. -/
def isEliminated (m : MoveOperands) : Bool := !m.source.isValid

/-- `Blocks(loc)`: the move still has to read a location that overlaps `loc`. -/
def blocks (m : MoveOperands) (loc : Location) : Bool := !m.isEliminated && m.source.overlapsWith loc

/-- `IsRedundant()`. -/
def isRedundant (m : MoveOperands) : Bool :=
  m.isEliminated || !m.destination.isValid || m.source == m.destination

/-- `Eliminate()`: both operands cleared. -/
def eliminate (m : MoveOperands) : MoveOperands :=
  { m with source := .invalid, destination := .invalid }

/-- `SetSource(value)`. -/
def setSource (m : MoveOperands) (value : Location) : MoveOperands := { m with source := value }

/-- `Is64BitMove()`. -/
def is64BitMove (m : MoveOperands) : Bool := m.type.is64BitType

@[simp] theorem source_markPending (m : MoveOperands) : m.markPending.source = m.source := rfl
@[simp] theorem destination_markPending (m : MoveOperands) :
    m.markPending.destination = .invalid := rfl
@[simp] theorem source_clearPending (m : MoveOperands) (dest : Location) :
    (m.clearPending dest).source = m.source := rfl
@[simp] theorem destination_clearPending (m : MoveOperands) (dest : Location) :
    (m.clearPending dest).destination = dest := rfl
@[simp] theorem source_eliminate (m : MoveOperands) : m.eliminate.source = .invalid := rfl
@[simp] theorem destination_eliminate (m : MoveOperands) :
    m.eliminate.destination = .invalid := rfl
@[simp] theorem source_setSource (m : MoveOperands) (value : Location) :
    (m.setSource value).source = value := rfl
@[simp] theorem destination_setSource (m : MoveOperands) (value : Location) :
    (m.setSource value).destination = m.destination := rfl

@[simp] theorem isEliminated_eq_true_iff {m : MoveOperands} :
    m.isEliminated = true ↔ m.source = .invalid := by
  simp [isEliminated]

/-- An eliminated move blocks nothing. -/
theorem blocks_of_source_eq_invalid {m : MoveOperands} (h : m.source = .invalid) (loc : Location) :
    m.blocks loc = false := by
  simp [blocks, isEliminated, h, Location.isValid]

end MoveOperands

namespace ParallelMoveResolver

open MoveOperands

/-- `ParallelMoveResolver::BuildInitialMoveList`: the moves that are not redundant. -/
def buildInitialMoveList (parallelMove : List MoveOperands) : List MoveOperands :=
  parallelMove.filter fun move => !move.isRedundant

/-- `LowOf(location)`. -/
def lowOf : Location → Location
  | .registerPair low _ => .register low
  | .fpuRegisterPair low _ => .fpuRegister low
  | .doubleStackSlot index => .stackSlot index
  | _ => .invalid

/-- `HighOf(location)`. -/
def highOf : Location → Location
  | .registerPair _ high => .register high
  | .fpuRegisterPair _ high => .fpuRegister high
  | .doubleStackSlot index => .stackSlot (index + 4)
  | _ => .invalid

/-- `UpdateSourceOf(move, updated_location, new_source)`: `updated_location` was swapped with
`new_source`; a move that reads one half of a pair reads that half of the new source. -/
def updateSourceOf (move : MoveOperands) (updatedLocation newSource : Location) : MoveOperands :=
  if lowOf updatedLocation = move.source then move.setSource (lowOf newSource)
  else if highOf updatedLocation = move.source then move.setSource (highOf newSource)
  else move.setSource newSource

theorem lowOf_ne_self {l : Location} (h : l ≠ .invalid) : lowOf l ≠ l := by
  cases l <;> simp_all [lowOf]

theorem highOf_ne_self {l : Location} (h : l ≠ .invalid) : highOf l ≠ l := by
  cases l <;> simp_all [highOf]

/-- A move that reads the swapped location itself, not a half of it, reads the new source. -/
theorem updateSourceOf_of_source_eq {move : MoveOperands} {updatedLocation : Location}
    (hvalid : updatedLocation ≠ .invalid) (h : move.source = updatedLocation)
    (newSource : Location) : updateSourceOf move updatedLocation newSource = move.setSource newSource := by
  subst h
  simp [updateSourceOf, lowOf_ne_self hvalid, highOf_ne_self hvalid]

/-- A call to the code generator, with the move as it is at the call. -/
inductive Emit where
  /-- `EmitMove(index)` -/
  | move (m : MoveOperands)
  /-- `EmitSwap(index)` -/
  | swap (m : MoveOperands)
deriving DecidableEq, Repr

/-- The resolver's state: `moves_`, and the calls to the code generator so far. -/
structure Resolver where
  moves : List MoveOperands
  code : List Emit

namespace Resolver

/-- `moves_[index]`. -/
def get (r : Resolver) (index : Nat) : MoveOperands := r.moves.getD index default

/-- `moves_[index]` changed in place. -/
def modify (r : Resolver) (index : Nat) (f : MoveOperands → MoveOperands) : Resolver :=
  { r with moves := r.moves.modify index f }

@[simp] theorem length_modify (r : Resolver) (index : Nat) (f : MoveOperands → MoveOperands) :
    (r.modify index f).moves.length = r.moves.length := List.length_modify ..

@[simp] theorem code_modify (r : Resolver) (index : Nat) (f : MoveOperands → MoveOperands) :
    (r.modify index f).code = r.code := rfl

theorem get_eq_default {r : Resolver} {index : Nat} (h : r.moves.length ≤ index) :
    r.get index = default := List.getD_eq_default _ _ h

theorem get_modify_self {r : Resolver} {index : Nat} (h : index < r.moves.length)
    (f : MoveOperands → MoveOperands) : (r.modify index f).get index = f (r.get index) := by
  simp [get, modify, List.getD_eq_getElem?_getD, h]

theorem get_modify_of_ne {r : Resolver} {index j : Nat} (h : j ≠ index)
    (f : MoveOperands → MoveOperands) : (r.modify index f).get j = r.get j := by
  simp only [get, modify, List.getD_eq_getElem?_getD, List.getElem?_modify, Ne.symm h, if_false]
  cases r.moves[j]? <;> rfl

/-- The move of `PerformMove` when it is not blocked: `EmitMove(index)`, then `Eliminate()`. -/
def doMove (r : Resolver) (index : Nat) : Resolver :=
  { moves := r.moves.modify index eliminate, code := r.code ++ [.move (r.get index)] }

@[simp] theorem length_doMove (r : Resolver) (index : Nat) :
    (r.doMove index).moves.length = r.moves.length := List.length_modify ..

@[simp] theorem code_doMove (r : Resolver) (index : Nat) :
    (r.doMove index).code = r.code ++ [.move (r.get index)] := rfl

theorem get_doMove (r : Resolver) (index j : Nat) :
    (r.doMove index).get j = (r.modify index eliminate).get j := rfl

/-- The swap of `PerformMove`: `EmitSwap(index)`, `Eliminate()`, and the sources of the moves that
read this move's source or destination updated. -/
def doSwap (r : Resolver) (index : Nat) : Resolver :=
  let move := r.get index
  let source := move.source
  let swapDestination := move.destination
  { moves := (r.moves.modify index eliminate).map fun otherMove =>
      if otherMove.blocks source then updateSourceOf otherMove source swapDestination
      else if otherMove.blocks swapDestination then
        updateSourceOf otherMove swapDestination source
      else otherMove
    code := r.code ++ [.swap move] }

/-- How the swap updates the source of another move. -/
def swapUpdate (source swapDestination : Location) (otherMove : MoveOperands) : MoveOperands :=
  if otherMove.blocks source then updateSourceOf otherMove source swapDestination
  else if otherMove.blocks swapDestination then updateSourceOf otherMove swapDestination source
  else otherMove

theorem doSwap_moves (r : Resolver) (index : Nat) :
    (r.doSwap index).moves = (r.modify index eliminate).moves.map
      (swapUpdate (r.get index).source (r.get index).destination) := rfl

@[simp] theorem length_doSwap (r : Resolver) (index : Nat) :
    (r.doSwap index).moves.length = r.moves.length := by
  simp [doSwap_moves]

@[simp] theorem code_doSwap (r : Resolver) (index : Nat) :
    (r.doSwap index).code = r.code ++ [.swap (r.get index)] := rfl

theorem get_doSwap (r : Resolver) (index j : Nat) :
    (r.doSwap index).get j =
      swapUpdate (r.get index).source (r.get index).destination ((r.modify index eliminate).get j) := by
  have hdefault : swapUpdate (r.get index).source (r.get index).destination default = default := by
    simp [swapUpdate, MoveOperands.blocks_of_source_eq_invalid (m := default) rfl]
  rw [get, doSwap_moves, ← hdefault, List.getD_map]
  rfl

end Resolver

open Resolver

/-- `PerformMove` after its dependency loop, from `required_swap` as the loop leaves it. -/
def resolve (r : Resolver) (index : Nat) (destination : Location) (requiredSwap : Option Nat) :
    Resolver × Option Nat :=
  let r := r.modify index (·.clearPending destination)
  let move := r.get index
  if move.source = destination then
    -- the last move of a cycle, its source renamed to its destination by the swaps
    (r.modify index eliminate, none)
  else
    match requiredSwap with
    | some _ => (r.doSwap index, requiredSwap)
    | none =>
      match r.moves.findIdx? (·.blocks destination) with
      | some other =>
        if !move.is64BitMove && (r.get other).is64BitMove then
          -- a 64-bit move swaps first: go back down the cycle to it
          (r, some other)
        else (r.doSwap index, none)
      | none => (r.doMove index, none)

/-- How the dependency loop of `PerformMove` ends. -/
inductive LoopExit where
  /-- the loop ran to its end, or broke out because this move is `required_swap` -/
  | done (requiredSwap : Option Nat)
  /-- `PerformMove` returns `required_swap`, a move further down the cycle -/
  | returns (requiredSwap : Nat)

mutual

/-- `ParallelMoveResolverWithSwap::PerformMove(index)`, returning `moves_` and the calls made,
with `required_swap`. -/
def performMove : Nat → Resolver → Nat → Option (Resolver × Option Nat)
  | 0, _, _ => none
  | fuel + 1, r, index =>
    let move := r.get index
    if move.isRedundant then some (r.modify index eliminate, none)
    else
      let destination := move.destination
      match performMoveLoop fuel (r.modify index markPending) index destination 0 with
      | none => none
      | some (r, .returns requiredSwap) =>
        some (r.modify index (·.clearPending destination), some requiredSwap)
      | some (r, .done requiredSwap) => some (resolve r index destination requiredSwap)

/-- The dependency loop of `PerformMove(index)` from `i`: every unperformed move that is not
pending and reads `destination` is performed first. -/
def performMoveLoop : Nat → Resolver → Nat → Location → Nat → Option (Resolver × LoopExit)
  | 0, _, _, _, _ => none
  | fuel + 1, r, index, destination, i =>
    if i < r.moves.length then
      let otherMove := r.get i
      if otherMove.blocks destination && !otherMove.isPending then
        match performMove fuel r i with
        | none => none
        | some (r, none) => performMoveLoop fuel r index destination (i + 1)
        | some (r, some requiredSwap) =>
          if requiredSwap = index then some (r, .done (some requiredSwap))
          else if requiredSwap = i then
            -- `other_move` was swapped: look again for a new cycle
            performMoveLoop fuel r index destination 0
          else some (r, .returns requiredSwap)
      else performMoveLoop fuel r index destination (i + 1)
    else some (r, .done none)

end

/-- A sweep of `EmitNativeCode` over `moves_`: `PerformMove(i)` for each move that `cond` selects
when the sweep reaches it. -/
def performSweep (fuel : Nat) (cond : MoveOperands → Bool) (r : Resolver) : Option Resolver :=
  (List.range r.moves.length).foldlM
    (fun r i => if cond (r.get i) then (performMove fuel r i).map Prod.fst else some r) r

/-- The first sweep: moves from a stack slot to a stack slot. -/
def isStackToStack (move : MoveOperands) : Bool :=
  !(move.isEliminated || move.source.isConstant) &&
    (move.source.isStackSlot || move.source.isDoubleStackSlot) &&
    (move.destination.isStackSlot || move.destination.isDoubleStackSlot)

/-- The second sweep: the moves left that do not load a constant. -/
def isNotConstant (move : MoveOperands) : Bool := !move.isEliminated && !move.source.isConstant

/-- The third sweep: `EmitMove` and `Eliminate()` for every move left, all of them constants. -/
def emitConstants (r : Resolver) : Resolver :=
  (List.range r.moves.length).foldl
    (fun r i => if !(r.get i).isEliminated then r.doMove i else r) r

/-- `ParallelMoveResolverWithSwap::EmitNativeCode(parallel_move)`: the calls to the code
generator. -/
def emitNativeCode (fuel : Nat) (parallelMove : List MoveOperands) : Option (List Emit) :=
  (performSweep fuel isStackToStack ⟨buildInitialMoveList parallelMove, []⟩).bind fun r =>
    (performSweep fuel isNotConstant r).map fun r => (emitConstants r).code

/-- What a call does when every location holds one value: `EmitMove` copies the source into the
destination, `EmitSwap` exchanges them. -/
def Emit.instr : Emit → ParallelAssignment.Instr Location
  | .move m => .move m.source m.destination
  | .swap m => .swap m.source m.destination

end ParallelMoveResolver

end Art
