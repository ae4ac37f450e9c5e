import Tabulation.Solver.State

/-!
# Collection between rounds

Procedures that no pending work can reach again lose what neither results nor summaries need: the
path edges at their other nodes, and the lists of calls that wait for their summaries. Edge
functions that no table mentions any more are freed.
-/

namespace Tabulation

namespace Solver

variable {D L K : Type} [Ord D] [Ord L] [Ord K]

/-- The procedures that contain the call sites of a procedure. -/
def callersOf (A : Analysis D L K) (procs : Interner String) (p : ProcId) : List ProcId :=
  match (procs.get p.val >>= A.graph.callers) with
  | .error _ => []
  | .ok sites => sites.filterMap fun site =>
    match A.graph.procOf site with
    | .error _ => none
    | .ok name => (procs.find? name).map ProcId.mk

/-- Drops the path edges at a node. -/
def dropPaths (node : String) : SolverM D L K Unit := do
  match (← get).nodes.find? node with
  | none => return ()
  | some id =>
    modify fun s =>
      let (dropped, paths) := s.paths.clearNode ⟨id⟩
      { s with
        paths
        alive := s.alive - dropped
        stats := { s.stats with collectedPathEdges := s.stats.collectedPathEdges + dropped } }

/-- Collects one procedure. -/
def collectProc (A : Analysis D L K) (p : ProcId) : SolverM D L K Unit := do
  (← A.graph.nodesOf (← procName p)).forM fun node => do
    unless ← keepAt A node false do
      dropPaths node
  modify fun s => { s with
    ledger := (s.ledger.purgeCallee p).2
    retention := s.retention.collected p }

/-- Collects all procedures that may be collected now. -/
def collectProcs (A : Analysis D L K) : SolverM D L K Unit := do
  let s ← get
  let (procs, retention) := s.retention.collectable (callersOf A s.procs)
  set { s with retention }
  procs.forM (collectProc A)

/-- The edge functions that the tables mention. -/
def edgeRoots (s : State D L K) : List EdgeRef :=
  s.paths.edgeRefs ++ s.summaries.edgeRefs ++ s.ledger.edgeRefs ++ s.queue.toList.map (·.edge)

variable [Payload K L]

/-- Frees the edge functions that no table mentions. -/
def sweepEdges : SolverM D L K Unit := do
  let s ← get
  let (_, store) ← s.store.sweep (edgeRoots s)
  set { s with store, answers := s.answers.clearEdges }

/-- Frees edge functions if the configuration asks for it. Without values there are none to free. -/
def sweepIfAsked (A : Analysis D L K) : SolverM D L K Unit :=
  if A.config.sweepEdges && A.config.computeValues then sweepEdges else return ()

/-- What happens at the end of a round. -/
def collect (A : Analysis D L K) : SolverM D L K Unit := do
  if A.config.gcMode.isEnabled then
    collectProcs A
    sweepIfAsked A

end Solver

end Tabulation
