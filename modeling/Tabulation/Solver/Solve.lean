import Tabulation.Solver.Values

/-!
# Running an analysis

`solve` runs both phases. After the first one, `run`, path edges can be looked up; `conclude` takes
it from there to the results.
-/

namespace Tabulation

namespace Solver

variable {D L K : Type} [Ord D] [Ord L] [Ord K] [DecidableEq D]
  [JoinLattice L] [DecidableEq L] [Payload K L]

/-- The edge function of a path edge, by names. -/
def pathEdge? (s : State D L K) (node : String) (source target : D) : Option EdgeRef := do
  let n ← s.nodes.find? node
  let d₁ ← s.facts.find? source
  let d₂ ← s.facts.find? target
  s.paths.get? ⟨n⟩ ⟨d₁⟩ ⟨d₂⟩

/-- Drops what only the first phase needs. -/
def dropPending (A : Analysis D L K) : SolverM D L K Unit := do
  modify fun s => { s with
    answers := s.answers.clear
    ledger := s.ledger.clearByCallee
    queue := s.queue.clear
    callQueue := s.callQueue.clear }
  sweepIfAsked A
  recordStats

/-- The results after the first phase. -/
def conclude (A : Analysis D L K) (σ : Type) [ValueCode σ L] (steps : Nat) (s : State D L K) :
    Except Fault (Results σ D L) := do
  let (_, s) ← (dropPending A).run s
  let values : ValueTable σ L ← reachedValues s
  if A.config.computeValues then
    let e ← computeValues A s steps values
    let stats := { s.stats with
      valueJobs := e.jobs
      valueWorklistPeak := e.queue.highWatermark }
    return { nodes := s.nodes, facts := s.facts, values := e.values, stats }
  else
    return { nodes := s.nodes, facts := s.facts, values, stats := s.stats }

/-- Runs both phases, each with at most the given number of steps. -/
def solve (A : Analysis D L K) (σ : Type) [ValueCode σ L] (steps : Nat) :
    Except Fault (Results σ D L) := do
  conclude A σ steps (← run A steps (← create A))

/-- A number of steps that no run within reach of a machine uses up. -/
def ampleSteps : Nat := Nat.pow 2 62

end Solver

end Tabulation
