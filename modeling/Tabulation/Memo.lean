import Std.Data.TreeMap

/-!
# Memo tables

A memo table remembers answers by key and counts how often an answer was found (`hits`) and how
often it was not (`misses`). Storing an answer counts nothing, and emptying the table keeps the
counts.
-/

namespace Tabulation

/-- A table of answers with counts of its look-ups. -/
structure Memo (κ α : Type) [Ord κ] where
  table : Std.TreeMap κ α
  hits : Nat
  misses : Nat

namespace Memo

variable {κ α : Type} [Ord κ]

/-- The table without answers. -/
def empty : Memo κ α := ⟨∅, 0, 0⟩

instance : EmptyCollection (Memo κ α) := ⟨empty⟩
instance : Inhabited (Memo κ α) := ⟨empty⟩

/-- The number of answers. -/
def size (m : Memo κ α) : Nat := m.table.size

/-- Whether there are no answers. -/
def isEmpty (m : Memo κ α) : Bool := m.table.isEmpty

/-- Looks an answer up and counts the look-up. -/
def lookup (m : Memo κ α) (key : κ) : Option α × Memo κ α :=
  match m.table[key]? with
  | some a => (some a, { m with hits := m.hits + 1 })
  | none => (none, { m with misses := m.misses + 1 })

/-- Stores an answer, replacing an older one. -/
def insert (m : Memo κ α) (key : κ) (a : α) : Memo κ α := { m with table := m.table.insert key a }

/-- The answer under a key; one that is missing is asked for and stored. The flag tells whether it
was asked for. -/
def getOrAsk (m : Memo κ α) (key : κ) (ask : Unit → α) : α × Bool × Memo κ α :=
  match m.lookup key with
  | (some a, m) => (a, false, m)
  | (none, m) =>
    let a := ask ()
    (a, true, m.insert key a)

/-- Forgets all answers and keeps the counts. -/
def clear (m : Memo κ α) : Memo κ α := { m with table := ∅ }

/-- All answers, in the order of their keys. -/
def values (m : Memo κ α) : List α := m.table.values

end Memo

end Tabulation
