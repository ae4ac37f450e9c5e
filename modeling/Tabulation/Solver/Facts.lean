import Tabulation.Solver.Propagate
import Tabulation.Solver.Collect

/-!
# Fact propagation

The first phase of a run finds all path edges. It is a machine: `step` makes one move, and `run`
makes moves until the stage is `done`.

- While path edges are queued, a move takes one of them and propagates it.
- When the queue is empty, the queued keys of changed summaries are taken, and each further move
  replays one of them.
- When all keys are replayed, a move collects what is no longer needed. If path edges are queued
  again, a new round begins; otherwise all path edges are known.

**Steps.** Edge functions may be refined without end, so a run is given a number of steps; running
out of steps is a fault of its own. More steps never change the outcome of a run that ends.
-/

namespace Tabulation

namespace Solver

variable {D L K : Type} [Ord D] [Ord L] [Ord K] [DecidableEq D]
  [JoinLattice L] [DecidableEq L] [Payload K L]

/-- Records the path edge of a seed. -/
def submitSeed (A : Analysis D L K) (node : String) (fact : D) (value : L) :
    SolverM D L K Unit := do
  let n ← nodeId node
  let d ← factId fact
  let p ← procId (← A.graph.procOf node)
  modify fun s => { s with seeds := s.seeds ++ [⟨n, d, value⟩] }
  record A n d d p .identity

/-- Begins a round. -/
def beginRound : SolverM D L K Unit :=
  modify fun s => { s with
    stage := .drain
    stats := { s.stats with rounds := s.stats.rounds + 1 } }

/-- Records the seeds and begins the first round. -/
def begin (A : Analysis D L K) : SolverM D L K Unit := do
  A.problem.seeds.toList.forM fun (node, fact, value) => submitSeed A node fact value
  beginRound

/-- Ends a round: the next one begins, or all path edges are known. -/
def endRound (A : Analysis D L K) : SolverM D L K Unit := do
  collect A
  if (← get).queue.isEmpty then
    modify fun s => { s with stage := .done }
  else
    beginRound

/-- Takes the keys of the summaries that changed in this round. -/
def takeKeys : SolverM D L K Unit :=
  modify fun s =>
    let (keys, callQueue) := s.callQueue.take
    { s with
      callQueue
      stage := .replay keys
      stats := { s.stats with relevantCalls := s.stats.relevantCalls + keys.length } }

/-- One move of the machine. -/
def step (A : Analysis D L K) : SolverM D L K Unit := do
  let s ← get
  match s.stage with
  | .fresh => begin A
  | .drain =>
    match s.queue.pop? with
    | some (job, queue) =>
      set { s with queue }
      propagate A job
    | none => takeKeys
  | .replay (key :: keys) =>
    set { s with stage := .replay keys }
    replay A key
  | .replay [] => endRound A
  | .done => return ()

/-- Makes at most the given number of moves, until all path edges are known. -/
def run (A : Analysis D L K) : Nat → State D L K → Except Fault (State D L K)
  | 0, s => if s.stage = .done then .ok s else .error .outOfSteps
  | n + 1, s => if s.stage = .done then .ok s else do run A n (← (step A).run s).2

end Solver

end Tabulation
