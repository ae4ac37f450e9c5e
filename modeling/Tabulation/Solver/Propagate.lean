import Tabulation.Solver.State

/-!
# Propagation of path edges

`propagate` takes one path edge across the edges that leave its node.

**Recording.** A path edge that is new, or whose edge function the join with the old one changes, is
stored and queued; anything else is dropped. Runs that compute no values store each path edge once.

**Calls.** A call site passes facts around its callees, into its callees, or across a callee for
which the client has a summary. A fact that enters a callee starts a path edge at the callee's start
point, and the call is recorded in the ledger. Summaries that the callee already has are applied at
once, later ones when the ledger is replayed.

**Summaries.** A path edge at an exit point is a summary of its procedure, and its key is queued so
that the calls that wait for it are looked at again.
-/

namespace Tabulation

namespace Solver

variable {D L K : Type} [Ord D] [Ord L] [Ord K] [DecidableEq D]
  [JoinLattice L] [DecidableEq L] [Payload K L]

/-! ## Recording -/

/-- The edge function to be stored for a path edge with edge function `ef`, if that changes the
table. -/
def merge (A : Analysis D L K) (old : Option EdgeRef) (ef : EdgeRef) :
    SolverM D L K (Option EdgeRef) :=
  match old with
  | none => return some ef
  | some old =>
    if A.config.computeValues then do
      let joined ← joinEdges old ef
      return if joined = old then none else some joined
    else
      return none

/-- Reports a fact at a node, if the node keeps its results. -/
def reach (A : Analysis D L K) (node : NodeId) (fact : FactId) : SolverM D L K Unit := do
  let key := pack node.val fact.val
  unless (← get).reached.contains key do
    let keep ← if A.config.gcMode.isAggressive then keepAt A (← nodeName node) true else pure true
    if keep then
      modify fun s => { s with reached := s.reached.insert key }

/-- Records a path edge of a procedure, and queues it if the table changes. -/
def record (A : Analysis D L K) (node : NodeId) (source target : FactId) (proc : ProcId)
    (ef : EdgeRef) : SolverM D L K Unit := do
  let ef := if A.config.computeValues then ef else .identity
  let old := (← get).paths.get? node source target
  match ← merge A old ef with
  | none => return ()
  | some ef =>
    modify fun s => { s with paths := (s.paths.insert node source target ef).2 }
    if old.isNone then
      modify fun s => { s with alive := s.alive + 1 }
      reach A node target
    modify fun s => { s with
      stats := s.stats.pathEdgeStored s.alive
      queue := s.queue.push ⟨node, source, target, ef⟩ }
    if A.config.gcMode.isEnabled then
      modify fun s => { s with retention := s.retention.retain proc }

/-- Records the path edges that continue a job at the node `dest` of its procedure. -/
def spread (A : Analysis D L K) (job : PathEdge) (proc : ProcId) (fact : D) (dest : NodeId)
    (flow : FlowFunction D)
    (ask : D → UInt64 → Answers D → EdgeStore L K → EdgeRef × Answers D × EdgeStore L K) :
    SolverM D L K Unit := do
  (← targets flow fact).forM fun target => do
    let targetId ← factId target
    let ef ← composeWith A job.edge (ask target (factPair job.target targetId))
    record A dest job.source targetId proc ef

/-! ## Edges inside a procedure -/

/-- Records that a path edge at an exit point leaves its procedure. -/
def recordSummary (A : Analysis D L K) (job : PathEdge) (proc : ProcId) : SolverM D L K Unit := do
  modify fun s => { s with callQueue := (s.callQueue.insert (pack job.source.val proc.val)).2 }
  if A.config.useSummaryTable then
    match (← get).summaries.get? proc job.source job.node job.target with
    | none =>
      modify fun s => { s with
        summaries := (s.summaries.insert proc job.source job.node job.target job.edge).2
        stats := { s.stats with summaries := s.stats.summaries + 1 } }
    | some old =>
      if A.config.computeValues then
        let joined ← joinEdges old job.edge
        if joined ≠ old then
          modify fun s => { s with
            summaries := (s.summaries.insert proc job.source job.node job.target joined).2 }

/-- Takes a path edge across the edges inside its procedure. -/
def propagateNormal (A : Analysis D L K) (job : PathEdge) (node : String) (proc : ProcId) :
    SolverM D L K Unit := do
  let fact ← factOf job.target
  (← A.graph.succs node).forM fun succ => do
    let succId ← nodeId succ
    let key := pack job.node.val succId.val
    let flow ← askFlow fun a => a.normalFlow A.problem node succ key
    spread A job proc fact succId flow fun target facts a s =>
      a.normalEdge A.problem s node fact succ target (key, facts)
  if ← A.graph.isExit node then
    recordSummary A job proc

/-! ## Returns -/

/-- The summaries of a procedure entered with a fact, at one exit point. -/
def summariesAt (A : Analysis D L K) (proc : ProcId) (entry : FactId) (exit : NodeId) :
    SolverM D L K (List (FactId × EdgeRef)) := do
  let s ← get
  return if A.config.useSummaryTable then s.summaries.leaving proc entry exit
    else s.paths.targetsOf exit entry

/-- The edge function from the caller's start point through a call, a summary and a return edge. -/
def composeReturn (A : Analysis D L K) (call summary : EdgeRef)
    (ask : Answers D → EdgeStore L K → EdgeRef × Answers D × EdgeStore L K) :
    SolverM D L K EdgeRef :=
  if A.config.computeValues then do
    let back ← askEdge ask
    let through ← compose call summary
    compose through back
  else
    return .identity

/-- Applies the summaries at an exit point to a call: records path edges at the return sites of the
caller. -/
def applySummaries (A : Analysis D L K) (c : CallRecord) (exit : String) (exitId : NodeId)
    (summaries : List (FactId × EdgeRef)) : SolverM D L K Unit := do
  let site ← nodeName c.site
  let callee ← procName c.callee
  let caller ← procId (← A.graph.procOf site)
  let key := pack c.site.val exitId.val
  (← A.graph.returnSites site).forM fun ret => do
    let retId ← nodeId ret
    let flow ← askFlow fun a => a.returnFlow A.problem site callee exit ret (key, retId)
    summaries.forM fun (exitFact, summary) => do
      let fact ← factOf exitFact
      (← targets flow fact).forM fun target => do
        let targetId ← factId target
        let ef ← composeReturn A c.edge summary fun a s =>
          a.returnEdge A.problem s site callee exit fact ret target
            (key, retId, factPair exitFact targetId)
        record A retId c.source targetId caller ef

/-- Applies all summaries that a callee has for the entry fact of a call. -/
def applyKnownSummaries (A : Analysis D L K) (c : CallRecord) (callee : String) :
    SolverM D L K Unit := do
  (← A.graph.exitPoints callee).forM fun exit => do
    let exitId ← nodeId exit
    let summaries ← summariesAt A c.callee c.entry exitId
    unless summaries.isEmpty do
      applySummaries A c exit exitId summaries

/-! ## Calls -/

/-- Records a call. A new one gets the summaries that its callee already has, and then waits for
more. -/
def recordCall (A : Analysis D L K) (c : CallRecord) (callee : String) : SolverM D L K Unit := do
  let (position, ledger) := (← get).ledger.insert c
  modify fun s => { s with ledger }
  match position with
  | some i =>
    modify fun s => { s with stats := { s.stats with calls := s.stats.calls + 1 } }
    applyKnownSummaries A c callee
    let ledger ← (← get).ledger.link i A.config.computeValues
    modify fun s => { s with ledger }
  | none =>
    modify fun s => { s with stats := { s.stats with repeatedCalls := s.stats.repeatedCalls + 1 } }

/-- Takes a path edge at a call site into a callee. A callee without a body is passed over. -/
def enterCallee (A : Analysis D L K) (job : PathEdge) (site : String) (fact : D) (callee : String)
    (calleeId : ProcId) (key : UInt64) : SolverM D L K Unit := do
  let starts ← A.graph.startPoints callee
  unless starts.isEmpty do
    let flow ← askFlow fun a => a.callFlow A.problem site callee key
    (← targets flow fact).forM fun entry => do
      let entryId ← factId entry
      let edge ← composeWith A job.edge fun a s =>
        a.callEdge A.problem s site fact callee entry (key, factPair job.target entryId)
      starts.forM fun start => do
        record A (← nodeId start) entryId entryId calleeId .identity
      recordCall A ⟨edge, job.source, calleeId, job.node, entryId⟩ callee

/-- Takes a path edge from a call site to its return sites and into its callees. -/
def propagateCall (A : Analysis D L K) (job : PathEdge) (site : String) (proc : ProcId) :
    SolverM D L K Unit := do
  let fact ← factOf job.target
  let callees ← A.graph.callees site
  let rets ← A.graph.returnSites site
  rets.forM fun ret => do
    let retId ← nodeId ret
    let key := pack job.node.val retId.val
    let flow ← askFlow fun a => a.bypassFlow A.problem site ret callees key
    spread A job proc fact retId flow fun target facts a s =>
      a.bypassEdge A.problem s site fact ret target callees (key, facts)
  callees.forM fun callee => do
    let calleeId ← procId callee
    let key := pack job.node.val calleeId.val
    match ← askFlow fun a => a.summaryFlow A.problem site callee key with
    | none => enterCallee A job site fact callee calleeId key
    | some flow =>
      rets.forM fun ret => do
        let retId ← nodeId ret
        let key := pack job.node.val retId.val
        spread A job proc fact retId flow fun target facts a s =>
          a.summaryEdge A.problem s site fact ret target (key, facts)

/-- Takes a path edge across all edges that leave its node. -/
def propagate (A : Analysis D L K) (job : PathEdge) : SolverM D L K Unit := do
  let node ← nodeName job.node
  let proc ← procId (← A.graph.procOf node)
  if A.config.gcMode.isEnabled then
    let retention ← (← get).retention.release proc
    modify fun s => { s with retention }
  if ← A.graph.isCallSite node then
    propagateCall A job node proc
  else
    propagateNormal A job node proc

/-! ## Replay -/

/-- Applies the summaries under a key to the calls that wait for them. -/
def replay (A : Analysis D L K) (key : UInt64) : SolverM D L K Unit := do
  let (entry, callee) := unpack key
  let name ← procName ⟨callee⟩
  (← A.graph.exitPoints name).forM fun exit => do
    let exitId ← nodeId exit
    let summaries ← summariesAt A ⟨callee⟩ ⟨entry⟩ exitId
    unless summaries.isEmpty do
      ((← get).ledger.callsInto ⟨entry⟩ ⟨callee⟩).forM fun c =>
        applySummaries A c exit exitId summaries

end Solver

end Tabulation
