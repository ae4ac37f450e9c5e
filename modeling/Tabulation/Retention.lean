import Tabulation.Ident
import Tabulation.Fault
import Tabulation.BitSet

/-!
# Which procedures must be retained

A procedure is retained once for each of its pending path edges and released when the path edge is
processed. Between rounds, the procedures that no pending work can reach again may be collected.

**Candidates.** A procedure becomes a candidate when it is first retained, and stops being one when
it is collected.

**Collectable procedures.** A candidate with pending work keeps its callers, since they may still
receive summaries from it, and the callers of these as long as the chain stays inside idle
candidates. What remains of the idle candidates is collectable.
-/

namespace Tabulation

/-- The pending work of each procedure. -/
structure Retention where
  counts : Array Nat
  candidates : BitSet
  /-- How often collectable procedures were computed. -/
  runs : Nat
  /-- How many procedures were collected. -/
  collections : Nat

namespace Retention

/-- No pending work, with room for a number of procedures. -/
def ofSize (n : Nat) : Retention := ⟨Array.replicate n 0, .ofCapacity n, 0, 0⟩

/-- The number of pending path edges of the procedure at a position. -/
def countAt (r : Retention) (i : Nat) : Nat := r.counts.getD i 0

/-- The number of pending path edges of a procedure. -/
def count (r : Retention) (p : ProcId) : Nat := r.countAt p.index

/-- A path edge of a procedure is now pending. -/
def retain (r : Retention) (p : ProcId) : Retention :=
  let counts := r.counts ++ Array.replicate (p.index + 1 - r.counts.size) 0
  { r with
    counts := counts.modify p.index (· + 1)
    candidates := (r.candidates.insert p.index).2 }

/-- A pending path edge of a procedure was processed. -/
def release (r : Retention) (p : ProcId) : Except Fault Retention :=
  if r.count p = 0 then
    .error (.noPendingJobs p.index)
  else
    .ok { r with counts := r.counts.modify p.index (· - 1) }

/-- Whether no procedure has pending work. -/
def allReleased (r : Retention) : Bool := r.counts.all (· == 0)

/-- The number of candidates. -/
def numCandidates (r : Retention) : Nat := r.candidates.size

/-- Takes out of `idle` the procedures on the stack, and their callers as long as they were in it.
-/
def prune (callers : ProcId → List ProcId) : Nat → List ProcId → BitSet → BitSet
  | 0, _, idle => idle
  | _ + 1, [], idle => idle
  | n + 1, p :: stack, idle =>
    match idle.erase p.index with
    | (true, idle) => prune callers n (callers p ++ stack) idle
    | (false, idle) => prune callers n stack idle

/-- The procedure at a position. -/
def procAt (i : Nat) : ProcId := ⟨UInt32.ofNat i⟩

/-- The callers of the candidates with pending work. -/
def busyCallers (r : Retention) (callers : ProcId → List ProcId) : List ProcId :=
  (r.candidates.toList.filter fun i => 0 < r.countAt i).flatMap fun i => callers (procAt i)

/-- The positions of the candidates without pending work. -/
def idle (r : Retention) : List Nat := r.candidates.toList.filter fun i => r.countAt i = 0

/-- The candidates without pending work as a set. -/
def idleSet (r : Retention) : BitSet :=
  (BitSet.ofCapacity r.candidates.capacity).insertMany r.idle

/-- The procedures that may be collected now, in ascending order. -/
def collectable (r : Retention) (callers : ProcId → List ProcId) : List ProcId × Retention :=
  let stack := r.busyCallers callers
  -- Each step takes one entry off the stack, and only an idle candidate puts its callers on it.
  let steps := stack.length + (r.idle.flatMap fun i => callers (procAt i)).length
  let left := prune callers steps stack r.idleSet
  (left.toList.map procAt, { r with runs := r.runs + 1 })

/-- A procedure was collected. -/
def collected (r : Retention) (p : ProcId) : Retention :=
  { r with candidates := (r.candidates.erase p.index).2, collections := r.collections + 1 }

end Retention

end Tabulation
