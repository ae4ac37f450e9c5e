import Std.Data.TreeMap
import Tabulation.Ident
import Tabulation.EdgeStore.Node

/-!
# Path edges and summaries

**Path edges.** A path edge says that entering a procedure with a source fact lets a target fact
hold at a node, and labels this with an edge function. `PathTable` keeps one row per node, keyed by
the packed pair of facts. Rows exist up to the greatest node that was ever written to.

**Summaries.** `SummaryTable` keeps what leaves a procedure: for a procedure and the fact that
entered it, the exit points and facts that are reached, under two packed keys.
-/

namespace Tabulation

/-- The path edges at one node, by packed source and target. -/
abbrev PathRow := Std.TreeMap UInt64 EdgeRef

/-- The path edges of a run. -/
structure PathTable where
  rows : Array PathRow

namespace PathTable

/-- No path edges. -/
def empty : PathTable := ⟨#[]⟩

instance : Inhabited PathTable := ⟨empty⟩

/-- The row of a node, if it exists. -/
def row? (t : PathTable) (n : NodeId) : Option PathRow := t.rows[n.index]?

/-- Makes the rows up to a node exist. -/
def extend (t : PathTable) (n : NodeId) : PathTable :=
  ⟨t.rows ++ Array.replicate (n.index + 1 - t.rows.size) ∅⟩

/-- The edge function of a path edge. -/
def get? (t : PathTable) (n : NodeId) (source target : FactId) : Option EdgeRef :=
  (t.row? n).bind (·[factPair source target]?)

/-- Stores a path edge and gives the edge function that it had. -/
def insert (t : PathTable) (n : NodeId) (source target : FactId) (ef : EdgeRef) :
    Option EdgeRef × PathTable :=
  (t.get? n source target,
    ⟨(t.extend n).rows.modify n.index (·.insert (factPair source target) ef)⟩)

/-- The path edges at a node, in the order of their keys. -/
def entries (t : PathTable) (n : NodeId) : List (FactId × FactId × EdgeRef) :=
  ((t.row? n).getD ∅).toList.map fun (key, ef) =>
    let (source, target) := unpackFacts key
    (source, target, ef)

/-- The targets at a node that a source fact reaches. -/
def targetsOf (t : PathTable) (n : NodeId) (source : FactId) : List (FactId × EdgeRef) :=
  ((t.entries n).filter fun e => e.1 = source).map (·.2)

/-- Drops the path edges at a node, and tells how many there were. -/
def clearNode (t : PathTable) (n : NodeId) : Nat × PathTable :=
  (((t.row? n).map (·.size)).getD 0, ⟨t.rows.modify n.index fun _ => ∅⟩)

/-- Whether there are no path edges. -/
def isEmpty (t : PathTable) : Bool := t.rows.all (·.isEmpty)

/-- The edge functions of all path edges. -/
def edgeRefs (t : PathTable) : List EdgeRef := t.rows.toList.flatMap (·.values)

/-- The number of path edges. -/
def size (t : PathTable) : Nat := t.rows.foldl (fun n row => n + row.size) 0

/-- Drops all path edges and rows. -/
def clear (_ : PathTable) : PathTable := empty

end PathTable

/-- The summaries of a run: by packed procedure and entry fact, then by packed exit point and exit
fact. -/
structure SummaryTable where
  tables : Std.TreeMap UInt64 (Std.TreeMap UInt64 EdgeRef)

namespace SummaryTable

/-- No summaries. -/
def empty : SummaryTable := ⟨∅⟩

instance : Inhabited SummaryTable := ⟨empty⟩

/-- The summaries of a procedure entered with a fact. -/
def table (t : SummaryTable) (p : ProcId) (entry : FactId) : Std.TreeMap UInt64 EdgeRef :=
  t.tables.getD (pack p.val entry.val) ∅

/-- The edge function from an entry fact to an exit fact. -/
def get? (t : SummaryTable) (p : ProcId) (entry : FactId) (exit : NodeId) (fact : FactId) :
    Option EdgeRef :=
  (t.table p entry)[pack exit.val fact.val]?

/-- Stores a summary and gives the edge function that it had. -/
def insert (t : SummaryTable) (p : ProcId) (entry : FactId) (exit : NodeId) (fact : FactId)
    (ef : EdgeRef) : Option EdgeRef × SummaryTable :=
  (t.get? p entry exit fact,
    ⟨t.tables.insert (pack p.val entry.val) ((t.table p entry).insert (pack exit.val fact.val) ef)⟩)

/-- The facts that leave through an exit point, with their edge functions. -/
def leaving (t : SummaryTable) (p : ProcId) (entry : FactId) (exit : NodeId) :
    List (FactId × EdgeRef) :=
  (t.table p entry).toList.filterMap fun (key, ef) =>
    let (node, fact) := unpack key
    if node = exit.val then some (⟨fact⟩, ef) else none

/-- Whether there are no summaries. -/
def isEmpty (t : SummaryTable) : Bool := t.tables.values.all (·.isEmpty)

/-- The edge functions of all summaries. -/
def edgeRefs (t : SummaryTable) : List EdgeRef := t.tables.values.flatMap (·.values)

/-- The number of summaries. -/
def size (t : SummaryTable) : Nat := t.tables.values.foldl (fun n table => n + table.size) 0

/-- Drops all summaries. -/
def clear (_ : SummaryTable) : SummaryTable := empty

end SummaryTable

end Tabulation
