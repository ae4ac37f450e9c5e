import Tabulation.EdgeStore.Basic
import Tabulation.BitSet

/-!
# Sweeping the store of edge functions

`sweep` frees every node that the given roots do not reach through operands. The reserved nodes
always stay. All remembered compositions and joins are forgotten first, since they may mention freed
handles. A root that is not alive is a fault, and then nothing is freed.

**Marking.** A handle is marked after its operands, so at every moment the marked handles are closed
under operands.
-/

namespace Tabulation

namespace EdgeStore

variable {L K : Type} [Ord L] [Ord K]

/-- Marks what a handle reaches, walking at most `n` levels of operands. -/
def markTo (s : EdgeStore L K) : Nat → BitSet → EdgeRef → Except Fault BitSet
  | 0, _, ef => .error (.notAlive ef.index)
  | n + 1, marked, ef =>
    if marked.contains ef.index then .ok marked
    else do
      let node ← s.node ef
      let marked ← node.operands.foldlM (s.markTo n) marked
      return (marked.insert ef.index).2

/-- Marks what the roots reach, the last root first. -/
def mark (s : EdgeStore L K) (roots : List EdgeRef) : Except Fault BitSet :=
  roots.reverse.foldlM (fun marked ef => s.markTo (s.height ef + 1) marked ef)
    (.ofCapacity s.slots.size)

variable [Payload K L]

/-- Empties a slot, if it is not empty. -/
def freeSlot (s : EdgeStore L K) (i : Nat) : EdgeStore L K :=
  match s.slot? ⟨i⟩ with
  | some slot =>
    { s with
      slots := s.slots.setIfInBounds i none
      canon := (s.canon.erase slot.node).2
      free := i :: s.free
      swept := s.swept + 1 }
  | none => s

/-- The positions that are neither reserved nor marked. -/
def unmarked (s : EdgeStore L K) (marked : BitSet) : List Nat :=
  ((List.range s.slots.size).drop EdgeRef.reserved).filter fun i => !marked.contains i

/-- Forgets all remembered compositions and joins. -/
def forget (s : EdgeStore L K) : EdgeStore L K :=
  { s with composed := s.composed.clear, joined := s.joined.clear }

/-- Frees what the roots do not reach, and tells how many nodes were freed. -/
def sweep (s : EdgeStore L K) (roots : List EdgeRef) : Except Fault (Nat × EdgeStore L K) := do
  let s := s.forget
  let marked ← s.mark roots
  let s' := (s.unmarked marked).foldl freeSlot s
  return (s'.swept - s.swept, s')

end EdgeStore

end Tabulation
