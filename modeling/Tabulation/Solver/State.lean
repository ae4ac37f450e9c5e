import Std.Data.TreeSet
import Tabulation.Answers
import Tabulation.CallLedger
import Tabulation.Config
import Tabulation.EdgeStore.Combine
import Tabulation.EdgeStore.Sweep
import Tabulation.Interner
import Tabulation.PathTable
import Tabulation.Retention
import Tabulation.Stats
import Tabulation.Supergraph
import Tabulation.Worklist

/-!
# The state of a solver

An `Analysis` is what is given: a problem, the supergraph of a program and a configuration. The
`State` is what a run builds from it: the numberings, the store of edge functions, the client's
answers, the tables of path edges, summaries and calls, and the queues of work.

**Stages.** Fact propagation goes in rounds. A round first *drains* the queue of path edges, then
*replays* the summaries that changed to the calls that wait for them, and then collects what is no
longer needed. The stage tells which of these comes next.

**The monad.** Solver code runs in `SolverM`: it changes the state and may end with a fault. The
small operations on single tables stand in this module.
-/

namespace Tabulation

/-- A problem on the supergraph of a program. -/
structure Analysis (D L K : Type) where
  problem : Problem D L K
  graph : Supergraph
  config : Config

/-- A pending path edge: entering the procedure of `node` with `source` lets `target` hold at
`node`. -/
structure PathEdge where
  node : NodeId
  source : FactId
  target : FactId
  edge : EdgeRef
  deriving DecidableEq, Repr

/-- A value that arrives at a start point. -/
structure ValueJob (L : Type) where
  node : NodeId
  fact : FactId
  value : L

/-- What a run does next. -/
inductive Stage where
  /-- Nothing has been done yet. -/
  | fresh
  /-- Path edges are taken from the queue. -/
  | drain
  /-- The summaries under these keys are applied to the calls that wait for them. -/
  | replay (keys : List UInt64)
  /-- All path edges are known. -/
  | done
  deriving DecidableEq, Repr

/-- The state of a run. -/
structure State (D L K : Type) [Ord D] [Ord L] [Ord K] where
  nodes : Interner String
  facts : Interner D
  procs : Interner String
  store : EdgeStore L K
  answers : Answers D
  paths : PathTable
  /-- The number of path edges in the table. -/
  alive : Nat
  summaries : SummaryTable
  ledger : CallLedger
  queue : Worklist PathEdge
  /-- Packed entry facts and procedures whose summaries changed in this round. -/
  callQueue : CallQueue
  retention : Retention
  /-- The seeds with their values. -/
  seeds : List (ValueJob L)
  /-- Packed nodes and facts that are reported. -/
  reached : Std.TreeSet UInt64
  stage : Stage
  stats : Stats

namespace Solver

variable {D L K : Type} [Ord D] [Ord L] [Ord K]

/-- Numbers all values of a list. -/
def internAll {α : Type} [Ord α] (t : Interner α) (as : List α) : Except Fault (Interner α) :=
  as.foldlM (fun t a => return (← t.intern a).2) t

/-- The state before a run. The zero fact gets number 0, and all procedures are numbered in their
order. -/
def create (A : Analysis D L K) : Except Fault (State D L K) := do
  let facts ← internAll .empty [A.problem.zero]
  let procs ← internAll .empty A.graph.procNames
  let store ← EdgeStore.create A.config.joinLimit
  return {
    nodes := .empty, facts, procs, store
    answers := .empty A.problem.zero A.config.autoAddZero
    paths := .empty, alive := 0, summaries := .empty, ledger := .empty
    queue := .empty A.config.queueOrder, callQueue := .empty
    retention := .ofSize procs.size
    seeds := [], reached := ∅, stage := .fresh, stats := {} }

end Solver

/-- Programs that change the state of a run and may end with a fault. -/
abbrev SolverM (D L K : Type) [Ord D] [Ord L] [Ord K] := StateT (State D L K) (Except Fault)

namespace Solver

variable {D L K : Type} [Ord D] [Ord L] [Ord K]

/-! ## Numbers and names -/

/-- The number of a node. -/
def nodeId (name : String) : SolverM D L K NodeId := do
  let (id, nodes) ← (← get).nodes.intern name
  modify fun s => { s with nodes }
  return ⟨id⟩

/-- The number of a fact. -/
def factId (fact : D) : SolverM D L K FactId := do
  let (id, facts) ← (← get).facts.intern fact
  modify fun s => { s with facts }
  return ⟨id⟩

/-- The number of a procedure. -/
def procId (name : String) : SolverM D L K ProcId := do
  let (id, procs) ← (← get).procs.intern name
  modify fun s => { s with procs }
  return ⟨id⟩

/-- The node with a number. -/
def nodeName (n : NodeId) : SolverM D L K String := do (← get).nodes.get n.val

/-- The fact with a number. -/
def factOf (d : FactId) : SolverM D L K D := do (← get).facts.stored d.val

/-- The procedure with a number. -/
def procName (p : ProcId) : SolverM D L K String := do (← get).procs.get p.val

/-! ## Answers of the client -/

/-- Asks for a flow function. -/
def askFlow {α : Type} (ask : Answers D → α × Answers D) : SolverM D L K α := do
  let (f, answers) := ask (← get).answers
  modify fun s => { s with answers }
  return f

/-- Asks for an edge function. -/
def askEdge (ask : Answers D → EdgeStore L K → EdgeRef × Answers D × EdgeStore L K) :
    SolverM D L K EdgeRef := do
  let s ← get
  let (ef, answers, store) := ask s.answers s.store
  set { s with answers, store }
  return ef

/-- The facts after an edge. -/
def targets [DecidableEq D] (f : FlowFunction D) (d : D) : SolverM D L K (List D) :=
  return (← get).answers.targets f d

/-! ## Edge functions -/

section Edges

variable [JoinLattice L] [DecidableEq L] [Payload K L]

/-- The composition of two stored edge functions. -/
def compose (first second : EdgeRef) : SolverM D L K EdgeRef := do
  let (ef, store) ← (← get).store.compose first second
  modify fun s => { s with store }
  return ef

/-- The join of two stored edge functions. -/
def joinEdges (a b : EdgeRef) : SolverM D L K EdgeRef := do
  let (ef, store) ← (← get).store.join a b
  modify fun s => { s with store }
  return ef

/-- Appends the client's edge function to `ef`. Runs that compute no values know only the identity.
-/
def composeWith (A : Analysis D L K) (ef : EdgeRef)
    (ask : Answers D → EdgeStore L K → EdgeRef × Answers D × EdgeStore L K) :
    SolverM D L K EdgeRef :=
  if A.config.computeValues then do compose ef (← askEdge ask) else return .identity

end Edges

/-! ## Which nodes keep their information -/

/-- Whether a node keeps its results (`forResults`) or its path edges when its procedure is
collected. -/
def keepAt (A : Analysis D L K) (node : String) (forResults : Bool) : Except Fault Bool := do
  if (← A.graph.isExit node) || (← A.graph.isStart node) then
    return true
  if ← (← A.graph.preds node).anyM A.graph.isCallSite then
    return true
  if (forResults || A.config.computeValues) && A.problem.interesting node then
    return true
  return !forResults && A.config.computeValues && !A.config.gcMode.isAggressive

/-! ## Statistics -/

/-- Copies the counters that the tables keep themselves. -/
def recordStats : SolverM D L K Unit :=
  modify fun s => { s with stats := { s.stats with
    worklistPeak := s.queue.highWatermark
    callQueuePeak := s.callQueue.highWatermark
    gcRuns := s.retention.runs
    collectedProcs := s.retention.collections
    edgesInterned := s.store.interned
    edgesSwept := s.store.swept
    edgeHits := s.store.hits + s.answers.edgeHits
    edgeMisses := s.store.misses + s.answers.edgeMisses
    flowHits := s.answers.flowHits
    flowMisses := s.answers.flowMisses
    facts := s.facts.size
    nodes := s.nodes.size
    procs := s.procs.size } }

end Solver

end Tabulation
