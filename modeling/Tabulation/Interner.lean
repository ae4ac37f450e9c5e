import Std.Data.TreeMap
import Tabulation.Fault

/-!
# Interners

An interner numbers values densely in the order of their first occurrence: the first value gets
number 0, a value seen before gets its old number, and the number leads back to the value.
-/

namespace Tabulation

/-- Values numbered in the order of their first occurrence. -/
structure Interner (α : Type) [Ord α] where
  index : Std.TreeMap α UInt32
  values : Array α

namespace Interner

variable {α : Type} [Ord α]

/-- The interner that has seen nothing. -/
def empty : Interner α := ⟨∅, #[]⟩

instance : EmptyCollection (Interner α) := ⟨empty⟩
instance : Inhabited (Interner α) := ⟨empty⟩

/-- The number of values seen. -/
def size (t : Interner α) : Nat := t.values.size

/-- The number of a value that was seen before. -/
def find? (t : Interner α) (a : α) : Option UInt32 := t.index[a]?

/-- The number of a value; a new one gets the next number, as long as one is left. -/
def intern (t : Interner α) (a : α) : Except Fault (UInt32 × Interner α) :=
  match t.index[a]? with
  | some id => .ok (id, t)
  | none =>
    if t.values.size + 1 < UInt32.size then
      let id := UInt32.ofNat t.values.size
      .ok (id, ⟨t.index.insert a id, t.values.push a⟩)
    else
      .error .idsExhausted

/-- The value with a number, if the number was given out. -/
def get? (t : Interner α) (id : UInt32) : Option α := t.values[id.toNat]?

/-- The value with a number. -/
def get (t : Interner α) (id : UInt32) : Except Fault α :=
  match t.values[id.toNat]? with
  | some a => .ok a
  | none => .error (.idOutOfRange id.toNat t.values.size)

/-- The stored value at a position of the row of values. -/
def stored (t : Interner α) (id : UInt32) : Except Fault α :=
  match t.values[id.toNat]? with
  | some a => .ok a
  | none => .error (.indexOutOfBounds t.values.size id.toNat)

/-- The numbers with their values, in ascending order. -/
def toList (t : Interner α) : List (UInt32 × α) :=
  t.values.toList.zipIdx.map fun (a, i) => (UInt32.ofNat i, a)

end Interner

end Tabulation
