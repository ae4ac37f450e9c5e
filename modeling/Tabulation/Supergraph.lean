import Std.Data.TreeMap
import Tabulation.Fault

/-!
# Supergraphs

The control flow of a program: procedures with their nodes, the edges inside procedures, and the
calls. Nodes and procedures are known by name.

**Building.** A procedure is declared with its nodes; the first is its start point and the last an
exit point, and more exit points can be added. A procedure without nodes is a declaration without a
body. Edges stay inside a procedure. A node becomes a call site with its first callee. Adding
anything twice changes nothing, except that procedures and nodes must be new.

**Queries.** Asking about an unknown node or procedure is a fault. The return sites of a call are
the successors of its call site.
-/

namespace Tabulation

/-- A procedure of the program. -/
structure Procedure where
  name : String
  nodes : List String
  startPoints : List String
  exitPoints : List String
  /-- The call sites that call it. -/
  callers : List String
  /-- The call sites in it. -/
  calls : List String
  deriving DecidableEq, Repr

/-- What is known about a node. -/
structure NodeInfo where
  /-- The position of its procedure. -/
  proc : Nat
  succs : List String
  preds : List String
  callees : List String
  isStart : Bool
  isExit : Bool
  deriving DecidableEq, Repr

/-- The control flow of a program. -/
structure Supergraph where
  procs : Array Procedure
  procIndex : Std.TreeMap String Nat
  nodes : Std.TreeMap String NodeInfo
  numCallSites : Nat

namespace Supergraph

/-- The program without procedures. -/
def empty : Supergraph := ⟨#[], ∅, ∅, 0⟩

instance : Inhabited Supergraph := ⟨empty⟩

/-- What is known about a node. -/
def node (g : Supergraph) (name : String) : Except Fault NodeInfo :=
  match g.nodes[name]? with
  | some info => .ok info
  | none => .error (.unknownNode name)

/-- A procedure by name. -/
def proc (g : Supergraph) (name : String) : Except Fault Procedure :=
  match g.procIndex[name]?.bind (g.procs[·]?) with
  | some p => .ok p
  | none => .error (.unknownProc name)

/-! ## Building -/

/-- Appends a name unless it is in the list. -/
def addName (names : List String) (name : String) : List String :=
  if name ∈ names then names else names ++ [name]

/-- Adds the nodes of the procedure at position `proc`. The first of all its nodes starts it, the
last one exits. -/
def addNodes (proc : Nat) : (isFirst : Bool) → List String → Supergraph → Except Fault Supergraph
  | _, [], g => .ok g
  | isFirst, name :: rest, g =>
    if g.nodes.contains name then
      .error (.nodeExists name)
    else
      let info : NodeInfo :=
        { proc, succs := [], preds := [], callees := []
          isStart := isFirst, isExit := rest.isEmpty }
      addNodes proc false rest { g with nodes := g.nodes.insert name info }

/-- Declares a procedure with its nodes. -/
def addProc (g : Supergraph) (name : String) (nodes : List String) : Except Fault Supergraph :=
  if g.procIndex.contains name then
    .error (.procExists name)
  else
    let index := g.procs.size
    let p : Procedure :=
      { name, nodes, startPoints := nodes.head?.toList, exitPoints := nodes.getLast?.toList,
        callers := [], calls := [] }
    addNodes index true nodes
      { g with procs := g.procs.push p, procIndex := g.procIndex.insert name index }

/-- Declares a procedure without a body. -/
def addDeclaration (g : Supergraph) (name : String) : Except Fault Supergraph := g.addProc name []

/-- Makes a node an exit point of its procedure. -/
def addExit (g : Supergraph) (name : String) : Except Fault Supergraph := do
  let info ← g.node name
  if info.isExit then
    return g
  else
    return { g with
      nodes := g.nodes.insert name { info with isExit := true }
      procs := g.procs.modify info.proc fun p => { p with exitPoints := p.exitPoints ++ [name] } }

/-- Adds an edge inside a procedure. -/
def addEdge (g : Supergraph) (source target : String) : Except Fault Supergraph := do
  let a ← g.node source
  let b ← g.node target
  if a.proc = b.proc then
    let nodes := g.nodes.insert source { a with succs := addName a.succs target }
    -- The target is read again, since a loop at one node changes both of its lists.
    let b := nodes.getD target b
    return { g with nodes := nodes.insert target { b with preds := addName b.preds source } }
  else
    throw (.edgeCrosses source target a.proc b.proc)

/-- Adds the edges between neighbours of a list. -/
def addChain (g : Supergraph) (names : List String) : Except Fault Supergraph :=
  (names.zip names.tail).foldlM (fun g (source, target) => g.addEdge source target) g

/-- Makes a node call a procedure. -/
def addCall (g : Supergraph) (site callee : String) : Except Fault Supergraph := do
  match g.procIndex[callee]? with
  | none => throw (.unknownCallee callee)
  | some index =>
    let info ← g.node site
    if callee ∈ info.callees then
      return g
    else
      let isFirst := info.callees.isEmpty
      let procs :=
        if isFirst then g.procs.modify info.proc fun p => { p with calls := p.calls ++ [site] }
        else g.procs
      return { g with
        nodes := g.nodes.insert site { info with callees := info.callees ++ [callee] }
        procs := procs.modify index fun p => { p with callers := p.callers ++ [site] }
        numCallSites := if isFirst then g.numCallSites + 1 else g.numCallSites }

/-! ## Queries -/

/-- The successors of a node. -/
def succs (g : Supergraph) (name : String) : Except Fault (List String) :=
  return (← g.node name).succs

/-- The predecessors of a node. -/
def preds (g : Supergraph) (name : String) : Except Fault (List String) :=
  return (← g.node name).preds

/-- The procedures that a node calls. -/
def callees (g : Supergraph) (name : String) : Except Fault (List String) :=
  return (← g.node name).callees

/-- Whether a node calls anything. -/
def isCallSite (g : Supergraph) (name : String) : Except Fault Bool :=
  return !(← g.node name).callees.isEmpty

/-- The nodes at which control continues after a call. -/
def returnSites (g : Supergraph) (name : String) : Except Fault (List String) := g.succs name

/-- Whether a node is an exit point of its procedure. -/
def isExit (g : Supergraph) (name : String) : Except Fault Bool := return (← g.node name).isExit

/-- Whether a node is the start point of its procedure. -/
def isStart (g : Supergraph) (name : String) : Except Fault Bool := return (← g.node name).isStart

/-- The procedure of a node. -/
def procOf (g : Supergraph) (name : String) : Except Fault String := do
  let info ← g.node name
  match g.procs[info.proc]? with
  | some p => return p.name
  | none => throw (.indexOutOfBounds g.procs.size info.proc)

/-- The start points of a procedure; none for a declaration. -/
def startPoints (g : Supergraph) (name : String) : Except Fault (List String) :=
  return (← g.proc name).startPoints

/-- The exit points of a procedure. -/
def exitPoints (g : Supergraph) (name : String) : Except Fault (List String) :=
  return (← g.proc name).exitPoints

/-- The call sites that call a procedure. -/
def callers (g : Supergraph) (name : String) : Except Fault (List String) :=
  return (← g.proc name).callers

/-- The nodes of a procedure. -/
def nodesOf (g : Supergraph) (name : String) : Except Fault (List String) :=
  return (← g.proc name).nodes

/-- The call sites in a procedure. -/
def calls (g : Supergraph) (name : String) : Except Fault (List String) :=
  return (← g.proc name).calls

/-- All procedures in the order of their declaration. -/
def procNames (g : Supergraph) : List String := (g.procs.map (·.name)).toList

end Supergraph

end Tabulation
