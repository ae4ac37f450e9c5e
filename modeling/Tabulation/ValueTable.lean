import Std.Data.TreeMap
import Tabulation.Ident
import Tabulation.SharedInterner

/-!
# Values at nodes

A table of the value of each fact at each node. A pair that was never written has the table's
default.

**Codes.** Large values that repeat at many nodes are worth storing once. `ValueCode` is a way to do
so: values are encoded when they are written and decoded when they are read. `Verbatim` stores
values as they are, an `Interner` or a `SharedInterner` stores their numbers.
-/

namespace Tabulation

/-- A way to store values of `L` with a state `σ`. -/
class ValueCode (σ L : Type) where
  Code : Type
  empty : σ
  encode : σ → L → Except Fault (Code × σ)
  /-- The code of a value, if it has one already. -/
  find? : σ → L → Option Code
  decode : σ → Code → Option L
  /-- The number of values held. -/
  size : σ → Nat

/-- Stores values as they are. -/
structure Verbatim (L : Type) where
  deriving Inhabited

instance {L : Type} : ValueCode (Verbatim L) L where
  Code := L
  empty := {}
  encode s v := .ok (v, s)
  find? _ v := some v
  decode _ v := some v
  size _ := 0

instance {L : Type} [Ord L] : ValueCode (Interner L) L where
  Code := UInt32
  empty := .empty
  encode t v := t.intern v
  find? t v := t.find? v
  decode t id := t.get? id
  size t := t.size

instance {L : Type} [Ord L] : ValueCode (SharedInterner L) L where
  Code := UInt32
  empty := .empty
  encode t v := t.intern v
  find? t v := t.find? v
  decode t id := t.get? id
  size t := t.size

/-- The value of each fact at each node. -/
structure ValueTable (σ L : Type) [ValueCode σ L] where
  rows : Std.TreeMap NodeId (Std.TreeMap FactId (ValueCode.Code σ L))
  codes : σ
  default : L

namespace ValueTable

variable {σ L : Type} [ValueCode σ L]

/-- The table without entries. -/
def empty (default : L) : ValueTable σ L := ⟨∅, ValueCode.empty L, default⟩

/-- The codes at a node. -/
def codesAt (t : ValueTable σ L) (n : NodeId) : Std.TreeMap FactId (ValueCode.Code σ L) :=
  t.rows.getD n ∅

/-- The value of a fact at a node, the default if none was written. -/
def get (t : ValueTable σ L) (n : NodeId) (d : FactId) : L :=
  ((t.codesAt n)[d]?.bind (ValueCode.decode t.codes)).getD t.default

/-- Writes the value of a fact at a node. -/
def set (t : ValueTable σ L) (n : NodeId) (d : FactId) (v : L) : Except Fault (ValueTable σ L) := do
  let (code, codes) ← ValueCode.encode t.codes v
  return { t with rows := t.rows.insert n ((t.codesAt n).insert d code), codes }

/-- Whether a value was written for a fact at a node. -/
def contains (t : ValueTable σ L) (n : NodeId) (d : FactId) : Bool := (t.codesAt n).contains d

/-- Whether any value was written at a node. -/
def containsNode (t : ValueTable σ L) (n : NodeId) : Bool := !(t.codesAt n).isEmpty

/-- The values at a node, by fact. -/
def row (t : ValueTable σ L) (n : NodeId) : List (FactId × L) :=
  (t.codesAt n).toList.filterMap fun (d, code) => (ValueCode.decode t.codes code).map (d, ·)

/-- The nodes at which a value was written, in ascending order. -/
def nodes (t : ValueTable σ L) : List NodeId := t.rows.keys

/-- The number of pairs of a node and a fact with a value. -/
def size (t : ValueTable σ L) : Nat := (t.rows.values.flatMap (·.keys)).length

/-- Whether no value was written. -/
def isEmpty (t : ValueTable σ L) : Bool := t.rows.values.all (·.isEmpty)

/-- The number of values that the code holds. -/
def numValues (t : ValueTable σ L) : Nat := ValueCode.size L t.codes

end ValueTable

end Tabulation
