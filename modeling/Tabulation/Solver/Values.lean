import Tabulation.Solver.Facts
import Tabulation.Results

/-!
# Value computation

The second phase of a run computes the values of all facts that the first phase reached.

**Start points.** Seed values are joined into the start points of their procedures and forwarded
along the recorded calls: a value at a caller's start point, taken through the edge function of a
call, is a value at the callee's start point. A pair of a start point and a fact is looked at on its
first visit and whenever its value changes.

**Other nodes.** At every other node of a visited procedure, the value of a fact is the join of all
path edges that lead to it, each applied to the value of its source at the start point.
-/

namespace Tabulation

/-- The state of the second phase. -/
structure Evaluation (σ L : Type) [ValueCode σ L] where
  values : ValueTable σ L
  queue : Worklist (ValueJob L)
  /-- Packed start points and facts that were visited. -/
  seen : Std.TreeSet UInt64
  /-- The start points that were visited. -/
  starts : BitSet
  /-- How many values were taken from the queue. -/
  jobs : Nat

namespace Solver

variable {σ D L K : Type} [Ord D] [Ord L] [Ord K] [DecidableEq D]
  [JoinLattice L] [DecidableEq L] [Payload K L] [ValueCode σ L]

/-- The table in which every reached fact has the value top. -/
def reachedValues (s : State D L K) : Except Fault (ValueTable σ L) :=
  s.reached.toList.foldlM
    (fun values key =>
      let (node, fact) := unpack key
      values.set ⟨node⟩ ⟨fact⟩ top)
    (.empty top)

/-- Queues a value at the start points of a callee. -/
def enqueue (A : Analysis D L K) (s : State D L K) (e : Evaluation σ L) (callee : String)
    (fact : FactId) (value : L) : Except Fault (Evaluation σ L) := do
  return (← A.graph.startPoints callee).foldl
    (fun e start =>
      match s.nodes.find? start with
      | some id => { e with queue := e.queue.push ⟨⟨id⟩, fact, value⟩ }
      | none => e)
    e

/-- Forwards the value of a fact at a start point along the calls of one call site. -/
def forwardAt (A : Analysis D L K) (s : State D L K) (fact : FactId) (value : L)
    (e : Evaluation σ L) (site : String) : Except Fault (Evaluation σ L) :=
  match s.nodes.find? site with
  | none => .ok e
  | some id =>
    (s.ledger.callsFrom fact ⟨id⟩).foldlM
      (fun e c => do
        let v ← s.store.eval c.edge value
        enqueue A s e (← s.procs.get c.callee.val) c.entry v)
      e

/-- Joins a value into a start point, and forwards what is new. -/
def visit (A : Analysis D L K) (s : State D L K) (e : Evaluation σ L) (job : ValueJob L) :
    Except Fault (Evaluation σ L) := do
  let old := e.values.get job.node job.fact
  let value := join old job.value
  let key := pack job.node.val job.fact.val
  if e.seen.contains key ∧ value = old then
    return e
  else
    let values ← e.values.set job.node job.fact value
    let e := { e with
      values
      seen := e.seen.insert key
      starts := (e.starts.insert job.node.index).2 }
    let node ← s.nodes.get job.node.val
    (← A.graph.calls (← A.graph.procOf node)).foldlM (forwardAt A s job.fact value) e

/-- Takes at most the given number of values from the queue, until it is empty. -/
def visitAll (A : Analysis D L K) (s : State D L K) :
    Nat → Evaluation σ L → Except Fault (Evaluation σ L)
  | 0, e => if e.queue.isEmpty then .ok e else .error .outOfSteps
  | n + 1, e =>
    match e.queue.pop? with
    | none => .ok e
    | some (job, queue) => do
      visitAll A s n (← visit A s { e with queue, jobs := e.jobs + 1 } job)

/-- Joins the value of one path edge into its target. -/
def evaluateEdge (s : State D L K) (start node : NodeId) (values : ValueTable σ L)
    (entry : FactId × FactId × EdgeRef) : Except Fault (ValueTable σ L) := do
  let (source, target, ef) := entry
  let v ← s.store.eval ef (values.get start source)
  let old := values.get node target
  let value := join old v
  if value ≠ old ∨ !values.contains node target then
    values.set node target value
  else
    return values

/-- Evaluates the path edges at one node of the procedure that starts at `start`. -/
def evaluateNode (A : Analysis D L K) (s : State D L K) (start : NodeId) (startName : String)
    (values : ValueTable σ L) (node : String) : Except Fault (ValueTable σ L) := do
  if node = startName then
    return values
  if A.config.gcMode.isAggressive && !(← keepAt A node true) then
    return values
  match s.nodes.find? node with
  | none => return values
  | some id => (s.paths.entries ⟨id⟩).foldlM (evaluateEdge s start ⟨id⟩) values

/-- Evaluates all path edges of the procedure that starts at the node with a number. -/
def evaluateFrom (A : Analysis D L K) (s : State D L K) (values : ValueTable σ L) (i : Nat) :
    Except Fault (ValueTable σ L) := do
  let start : NodeId := ⟨UInt32.ofNat i⟩
  let name ← s.nodes.get start.val
  (← A.graph.nodesOf (← A.graph.procOf name)).foldlM (evaluateNode A s start name) values

/-- The values of all facts at all nodes. -/
def computeValues (A : Analysis D L K) (s : State D L K) (steps : Nat) (values : ValueTable σ L) :
    Except Fault (Evaluation σ L) := do
  let queue := s.seeds.foldl Worklist.push (.empty A.config.queueOrder)
  let e ← visitAll A s steps
    { values, queue, seen := ∅, starts := .ofCapacity s.nodes.size, jobs := 0 }
  let values ← e.starts.toList.foldlM (evaluateFrom A s) e.values
  return { e with values }

end Solver

end Tabulation
