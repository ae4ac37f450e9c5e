import Tabulation.Interner

/-!
# Interners of shared values

Large values are worth keeping in one copy. A shared interner numbers values like an `Interner` and
keeps handles to copies, the same handle in the index and in the row of values. Handles are compared
by the values they lead to, never by where the copies are.
-/

namespace Tabulation

/-- A handle to a copy of a value. -/
structure Shared (α : Type) where
  place : Nat
  value : α
  deriving Repr, DecidableEq

instance {α : Type} [Ord α] : Ord (Shared α) := ⟨compareOn Shared.value⟩

/-- Values numbered in the order of their first occurrence, each kept in one copy. -/
structure SharedInterner (α : Type) [Ord α] where
  handles : Interner (Shared α)

namespace SharedInterner

variable {α : Type} [Ord α]

/-- The interner that has seen nothing. -/
def empty : SharedInterner α := ⟨.empty⟩

instance : EmptyCollection (SharedInterner α) := ⟨empty⟩
instance : Inhabited (SharedInterner α) := ⟨empty⟩

/-- The number of values seen. -/
def size (t : SharedInterner α) : Nat := t.handles.size

/-- The number of a value that was seen before. -/
def find? (t : SharedInterner α) (a : α) : Option UInt32 := t.handles.find? ⟨0, a⟩

/-- The number of a value; a new one gets the next number, as long as one is left, and its copy is
made at the next place. -/
def intern (t : SharedInterner α) (a : α) : Except Fault (UInt32 × SharedInterner α) := do
  let (id, handles) ← t.handles.intern ⟨t.size, a⟩
  return (id, ⟨handles⟩)

/-- The value with a number, if the number was given out. -/
def get? (t : SharedInterner α) (id : UInt32) : Option α := (t.handles.get? id).map (·.value)

/-- The value with a number. -/
def get (t : SharedInterner α) (id : UInt32) : Except Fault α := return (← t.handles.get id).value

/-- The handle to the copy of the value with a number. -/
def shared (t : SharedInterner α) (id : UInt32) : Except Fault (Shared α) := t.handles.stored id

/-- The numbers with their values, in ascending order. -/
def toList (t : SharedInterner α) : List (UInt32 × α) :=
  t.handles.toList.map fun (id, x) => (id, x.value)

end SharedInterner

end Tabulation
