import Std.Data.TreeMap
import Tabulation.Ident

/-!
# Canonical representatives

A `Canon` table gives structurally equal values one handle. A `KindedCanon` table keeps one such
table per kind of value; values without a kind have no canonical representative and are never found.
-/

namespace Tabulation

/-- The handle that represents each value. -/
structure Canon (α η : Type) [Ord α] where
  table : Std.TreeMap α η

namespace Canon

variable {α η : Type} [Ord α]

/-- The table without values. -/
def empty : Canon α η := ⟨∅⟩

instance : Inhabited (Canon α η) := ⟨empty⟩

/-- The handle of a value. -/
def find? (t : Canon α η) (a : α) : Option η := t.table[a]?

/-- Makes `h` the handle of a value. -/
def insert (t : Canon α η) (a : α) (h : η) : Canon α η := ⟨t.table.insert a h⟩

/-- Forgets a value and gives the handle it had. -/
def erase (t : Canon α η) (a : α) : Option η × Canon α η := (t.table[a]?, ⟨t.table.erase a⟩)

/-- The number of values. -/
def size (t : Canon α η) : Nat := t.table.size

/-- Whether there are no values. -/
def isEmpty (t : Canon α η) : Bool := t.table.isEmpty

end Canon

/-- Values that may belong to a kind. -/
class Kinded (α : Type) (κ : outParam Type) where
  /-- The kind; `none` for values that are not made canonical. -/
  kind? : α → Option κ

export Kinded (kind?)

/-- One table of representatives per kind. -/
structure KindedCanon (κ α η : Type) [Ord κ] [Ord α] where
  tables : Std.TreeMap κ (Canon α η)

namespace KindedCanon

variable {κ α η : Type} [Ord κ] [Ord α]

/-- The tables without values. -/
def empty : KindedCanon κ α η := ⟨∅⟩

instance : Inhabited (KindedCanon κ α η) := ⟨empty⟩

/-- The table of a kind. -/
def ofKind (t : KindedCanon κ α η) (k : κ) : Canon α η := t.tables.getD k .empty

variable [Kinded α κ]

/-- The handle of a value. -/
def find? (t : KindedCanon κ α η) (a : α) : Option η :=
  match kind? a with
  | some k => (t.ofKind k).find? a
  | none => none

/-- Makes `h` the handle of a value, if the value has a kind. The flag tells whether it has. -/
def insert (t : KindedCanon κ α η) (a : α) (h : η) : Bool × KindedCanon κ α η :=
  match kind? a with
  | some k => (true, ⟨t.tables.insert k ((t.ofKind k).insert a h)⟩)
  | none => (false, t)

/-- Forgets a value and gives the handle it had. -/
def erase (t : KindedCanon κ α η) (a : α) : Option η × KindedCanon κ α η :=
  match kind? a with
  | some k =>
    let (old, table) := (t.ofKind k).erase a
    (old, ⟨t.tables.insert k table⟩)
  | none => (none, t)

/-- The number of values of a kind. -/
def sizeOfKind (t : KindedCanon κ α η) (k : κ) : Nat := (t.ofKind k).size

/-- The number of values. -/
def size (t : KindedCanon κ α η) : Nat := t.tables.foldl (fun n _ table => n + table.size) 0

/-- Whether there are no values. -/
def isEmpty (t : KindedCanon κ α η) : Bool := t.size == 0

end KindedCanon

end Tabulation
