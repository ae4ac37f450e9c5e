import Tabulation.EdgeStore.Node
import Tabulation.Memo
import Tabulation.Fault

/-!
# The store of edge functions

All edge functions of a run live in one store, which hands out handles. Structurally equal nodes of
a canonical kind share one handle, so equality of handles is a cheap test for "nothing changed".

**Slots.** A handle is the position of a slot. A freed slot is empty until it is used again; the
slots freed last are used first. Using a handle whose slot is empty is the fault `notAlive`. A
position is a number of any size, so a store does not run out of handles.

**Heights.** A slot keeps the height of its node above the leaves. Operands are lower than the node
that refers to them, so a walk through operands that starts with the height of its node as a bound
never runs out, although positions say nothing about the order of nodes once slots are used again.

**Leaves.** A payload that is constant is stored as a constant, and constants that are a bound are
the reserved handle of that bound.
-/

namespace Tabulation

/-- A stored node with its height above the leaves. -/
structure Slot (L K : Type) where
  node : EdgeNode L K
  height : Nat
  deriving DecidableEq, Repr

/-- All edge functions of a run. -/
structure EdgeStore (L K : Type) [Ord L] [Ord K] where
  slots : Array (Option (Slot L K))
  /-- The empty slots, the one to be used next first. -/
  free : List Nat
  /-- The handle of each live node of a canonical kind. -/
  canon : KindedCanon EdgeKind (EdgeNode L K) EdgeRef
  /-- Remembered compositions. -/
  composed : Memo (EdgeRef × EdgeRef) EdgeRef
  /-- Remembered joins, the lower handle first. -/
  joined : Memo (EdgeRef × EdgeRef) EdgeRef
  /-- The greatest number of parts of a join. -/
  joinLimit : Nat
  /-- How many nodes were ever stored. -/
  interned : Nat
  /-- How many nodes were ever freed. -/
  swept : Nat

namespace EdgeStore

variable {L K : Type} [Ord L] [Ord K]

/-- The join limit of a store that is created without one. -/
def defaultJoinLimit : Nat := 8

/-- The store with only the reserved nodes. -/
def withLimit (joinLimit : Nat) : EdgeStore L K where
  slots := #[some ⟨.identity, 0⟩, some ⟨.allTop, 0⟩, some ⟨.allBottom, 0⟩]
  free := []
  canon := .empty
  composed := ∅
  joined := ∅
  joinLimit
  interned := 0
  swept := 0

/-- A new store. Joins hold at most `joinLimit` parts, and fewer than two make no sense. -/
def create (joinLimit : Nat) : Except Fault (EdgeStore L K) :=
  if 2 ≤ joinLimit then .ok (withLimit joinLimit) else .error (.joinLimit joinLimit)

/-- The number of live nodes, the reserved ones included. -/
def size (s : EdgeStore L K) : Nat := s.slots.size - s.free.length

/-- How often a composition or a join was remembered. -/
def hits (s : EdgeStore L K) : Nat := s.composed.hits + s.joined.hits

/-- How often a composition or a join was not remembered. -/
def misses (s : EdgeStore L K) : Nat := s.composed.misses + s.joined.misses

/-- The slot of a handle, if it is not empty. -/
def slot? (s : EdgeStore L K) (ef : EdgeRef) : Option (Slot L K) := s.slots[ef.index]?.join

/-- The node of a handle, if it is alive. -/
def node? (s : EdgeStore L K) (ef : EdgeRef) : Option (EdgeNode L K) := (s.slot? ef).map (·.node)

/-- The node of a live handle. -/
def node (s : EdgeStore L K) (ef : EdgeRef) : Except Fault (EdgeNode L K) :=
  match s.node? ef with
  | some n => .ok n
  | none => .error (.notAlive ef.index)

/-- The height of a handle; zero if it is not alive. -/
def height (s : EdgeStore L K) (ef : EdgeRef) : Nat :=
  match s.slot? ef with
  | some slot => slot.height
  | none => 0

/-- The height of a node: one more than its highest operand. -/
def heightOf (s : EdgeStore L K) (node : EdgeNode L K) : Nat :=
  node.operands.foldl (fun h ef => max h (s.height ef + 1)) 0

/-- Puts a node into the slot that was freed last, or into a new one. -/
def allocate (s : EdgeStore L K) (node : EdgeNode L K) : EdgeRef × EdgeStore L K :=
  let slot := some ⟨node, s.heightOf node⟩
  match s.free with
  | i :: free => (⟨i⟩, { s with slots := s.slots.setIfInBounds i slot, free })
  | [] => (⟨s.slots.size⟩, { s with slots := s.slots.push slot })

section Payloads

variable [Payload K L]

/-- The handle of a node: the old one if the node is canonical and stored, a new one otherwise. -/
def intern (s : EdgeStore L K) (node : EdgeNode L K) : EdgeRef × EdgeStore L K :=
  match s.canon.find? node with
  | some ef => (ef, s)
  | none =>
    let (ef, s) := s.allocate node
    (ef, { s with canon := (s.canon.insert node ef).2, interned := s.interned + 1 })

variable [JoinLattice L]

/-- The handle of the function that is `c` everywhere. -/
def constant [DecidableEq L] (s : EdgeStore L K) (c : L) : EdgeRef × EdgeStore L K :=
  if isTop c then (.allTop, s)
  else if isBottom c then (.allBottom, s)
  else s.intern (.constant c)

/-- The handle of a client's edge function. -/
def leaf [DecidableEq L] (s : EdgeStore L K) : EdgeFunction L K → EdgeRef × EdgeStore L K
  | .identity => (.identity, s)
  | .allTop => (.allTop, s)
  | .allBottom => (.allBottom, s)
  | .constant c => s.constant c
  | .custom k =>
    match Payload.constant? k with
    | some c => s.constant c
    | none => s.intern (.custom k)

/-- The result of a live function, if its node says that it ignores its argument. -/
def constant? (s : EdgeStore L K) (ef : EdgeRef) : Except Fault (Option L) := do
  match ← s.node ef with
  | .allTop => return some top
  | .allBottom => return some bottom
  | .constant c => return some c
  | _ => return none

/-- Whether the node of a live function says that it ignores its argument. -/
def isConstant (s : EdgeStore L K) (ef : EdgeRef) : Except Fault Bool := do
  return (← s.constant? ef).isSome

/-- The result of a function, walking at most `n` levels of operands. -/
def evalTo (s : EdgeStore L K) : Nat → EdgeRef → L → Except Fault L
  | 0, ef, _ => .error (.notAlive ef.index)
  | n + 1, ef, v => do
    match ← s.node ef with
    | .identity => return v
    | .allTop => return top
    | .allBottom => return bottom
    | .constant c => return c
    | .custom k => return Payload.apply k v
    | .compose first second => s.evalTo n second (← s.evalTo n first v)
    | .join seed parts => parts.foldlM (fun acc p => return join acc (← s.evalTo n p v)) seed

/-- The result of a live function at a value. -/
def eval (s : EdgeStore L K) (ef : EdgeRef) (v : L) : Except Fault L :=
  s.evalTo (s.height ef + 1) ef v

end Payloads

end EdgeStore

end Tabulation
