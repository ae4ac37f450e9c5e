/-!
# Faults

What can go wrong, as causes. Every operation of the library that can fail returns `Except Fault`,
and the wording of each cause stands in one place, `Fault.message`.
-/

namespace Tabulation

/-- The cause of a failed operation. -/
inductive Fault where
  /-- A procedure is declared under a name that is taken. -/
  | procExists (name : String)
  /-- A node is declared under a name that is taken. -/
  | nodeExists (name : String)
  | unknownNode (name : String)
  | unknownProc (name : String)
  | unknownCallee (name : String)
  /-- An intraprocedural edge joins nodes of the procedures numbered `left` and `right`. -/
  | edgeCrosses (source target : String) (left right : Nat)
  /-- A store of edge functions is created with a limit below two. -/
  | joinLimit (limit : Nat)
  /-- An edge function is used after its slot was freed. -/
  | notAlive (index : Nat)
  /-- An interner is asked for a number that it has not given out. -/
  | idOutOfRange (id size : Nat)
  | indexOutOfBounds (length index : Nat)
  /-- A procedure is released more often than it was retained. -/
  | noPendingJobs (proc : Nat)
  /-- All 32-bit numbers of an interner are in use. -/
  | idsExhausted
  /-- The step budget of a run is used up before its queues are empty. -/
  | outOfSteps
  deriving DecidableEq, Repr

/-- The wording of a fault. -/
def Fault.message : Fault → String
  | .procExists name => s!"Function '{name}' already exists"
  | .nodeExists name => s!"Node '{name}' already exists"
  | .unknownNode name => s!"Unknown node '{name}'"
  | .unknownProc name => s!"Unknown function '{name}'"
  | .unknownCallee name => s!"Unknown callee '{name}'"
  | .edgeCrosses source target left right =>
    s!"assertion `left == right` failed: Edge {source} -> {target} crosses functions; " ++
      s!"use add_call\n  left: {left}\n right: {right}"
  | .joinLimit limit => s!"join_limit must be at least 2, got {limit}"
  | .notAlive index => s!"Edge function @{index} is not alive"
  | .idOutOfRange id size => s!"Id {id} out of range (size {size})"
  | .indexOutOfBounds length index =>
    s!"index out of bounds: the len is {length} but the index is {index}"
  | .noPendingJobs proc => s!"Releasing f{proc} without pending jobs"
  | .idsExhausted => "Compressor id space exhausted"
  | .outOfSteps => "Step budget exhausted"

end Tabulation
