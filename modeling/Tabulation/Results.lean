import Tabulation.ValueTable
import Tabulation.Stats
import Tabulation.Supergraph
import Tabulation.Text.Inspect

/-!
# Results of a run

The table of values together with the numberings of nodes and facts, so that results can be asked
for by name. A node or fact that the run never met has no entries, and its values are the default.

**Dump.** The text of all entries, grouped by procedure: procedures in the order of their first node
with an entry, nodes and facts by number.
-/

namespace Tabulation

/-- What a run found out. -/
structure Results (σ D L : Type) [Ord D] [ValueCode σ L] where
  nodes : Interner String
  facts : Interner D
  values : ValueTable σ L
  stats : Stats

namespace Results

variable {σ D L : Type} [Ord D] [ValueCode σ L]

/-- The number of a node that the run met. -/
def node? (r : Results σ D L) (node : String) : Option NodeId := (r.nodes.find? node).map NodeId.mk

/-- The number of a fact that the run met. -/
def fact? (r : Results σ D L) (fact : D) : Option FactId := (r.facts.find? fact).map FactId.mk

/-- The value of a fact at a node, the default if the fact does not hold there. -/
def valueAt (r : Results σ D L) (node : String) (fact : D) : L :=
  match r.node? node, r.fact? fact with
  | some n, some d => r.values.get n d
  | _, _ => r.values.default

/-- The entries at a numbered node, facts by number. -/
def rowOf (r : Results σ D L) (n : NodeId) : List (D × L) :=
  (r.values.row n).filterMap fun (d, v) => (r.facts.get? d.val).map (·, v)

/-- The facts that hold at a node with their values. -/
def row (r : Results σ D L) (node : String) : List (D × L) :=
  match r.node? node with
  | some n => r.rowOf n
  | none => []

/-- The facts that hold at a node with their values, on request without the zero fact. -/
def valuesAt (r : Results σ D L) (node : String) (stripZero : Bool) : List (D × L) :=
  match r.node? node with
  | some n =>
    ((r.values.row n).filter fun (d, _) => !(stripZero && d.isZero)).filterMap fun (d, v) =>
      (r.facts.get? d.val).map (·, v)
  | none => []

/-- The facts that hold at a node, the zero fact included. -/
def factsAt (r : Results σ D L) (node : String) : List D := (r.row node).map (·.1)

/-- Whether any fact holds at a node. -/
def containsNode (r : Results σ D L) (node : String) : Bool :=
  match r.node? node with
  | some n => r.values.containsNode n
  | none => false

/-- The number of entries. -/
def size (r : Results σ D L) : Nat := r.values.size

/-- All entries, nodes and facts by number. -/
def entries (r : Results σ D L) : List (String × D × L) :=
  r.values.nodes.flatMap fun n =>
    match r.nodes.get? n.val with
    | some node => (r.rowOf n).map fun (fact, value) => (node, fact, value)
    | none => []

/-! ## Dump -/

/-- Adds a node to the group of its procedure; a new group comes last. -/
def addToGroup (proc : String) (n : NodeId) :
    List (String × List NodeId) → List (String × List NodeId)
  | [] => [(proc, [n])]
  | (p, ns) :: rest =>
    if p = proc then (p, ns ++ [n]) :: rest else (p, ns) :: addToGroup proc n rest

/-- The nodes with entries, grouped by procedure. -/
def groups (r : Results σ D L) (g : Supergraph) : Except Fault (List (String × List NodeId)) :=
  r.values.nodes.foldlM
    (fun groups n => return addToGroup (← g.procOf (← r.nodes.get n.val)) n groups) []

variable [Inspect D] [Inspect L]

/-- The lines of one node. -/
def nodeLines (r : Results σ D L) (n : NodeId) : Except Fault (List String) := do
  let node ← r.nodes.get n.val
  return ("  " ++ toString n ++ " " ++ inspect node) ::
    (r.rowOf n).map fun (fact, value) => "    " ++ inspect fact ++ " -> " ++ inspect value

/-- All entries as text. -/
def dump (r : Results σ D L) (g : Supergraph) : Except Fault String := do
  let blocks ← (← r.groups g).mapM fun (proc, ns) => do
    let lines ← ns.mapM r.nodeLines
    return ("Function " ++ inspect proc ++ ":") :: lines.flatten
  let lines := ("### IDE results (" ++ toString r.size ++ " entries)") :: blocks.flatten
  return String.join (lines.map (· ++ "\n"))

end Results

end Tabulation
