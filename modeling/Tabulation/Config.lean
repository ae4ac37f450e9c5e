import Tabulation.Worklist

/-!
# Configuration of a solver
-/

namespace Tabulation

/-- What is dropped of procedures without pending work. -/
inductive GcMode where
  /-- Nothing is dropped before the end. -/
  | disabled
  /-- Path edges are dropped where neither results nor summaries need them. A run that computes
  values needs all of them, and then only the lists of waiting calls are dropped. -/
  | enabled
  /-- As `enabled`, and results are kept only at start points, exit points, return sites and
  interesting nodes. -/
  | aggressive
  deriving DecidableEq, Repr

namespace GcMode

/-- Whether anything is dropped. -/
def isEnabled (m : GcMode) : Bool := m ≠ .disabled

/-- Whether results are dropped too. -/
def isAggressive (m : GcMode) : Bool := m = .aggressive

/-- The text of the mode. -/
def text : GcMode → String
  | .disabled => "Disabled"
  | .enabled => "Enabled"
  | .aggressive => "EnabledAggressively"

end GcMode

/-- The text of the order. -/
def QueueOrder.text : QueueOrder → String
  | .lifo => "Lifo"
  | .fifo => "Fifo"

/-- The configuration of a solver. -/
structure Config where
  /-- Compute values; otherwise only reachable facts. -/
  computeValues : Bool := true
  gcMode : GcMode := .disabled
  /-- Keep a table of summaries; otherwise they are read off the path edges at exit points. -/
  useSummaryTable : Bool := true
  /-- Let every flow function keep the zero fact. -/
  autoAddZero : Bool := true
  queueOrder : QueueOrder := .lifo
  /-- The greatest number of parts of a join. -/
  joinLimit : Nat := 8
  /-- Free unreachable edge functions after collecting procedures and after the last round. -/
  sweepEdges : Bool := true
  deriving DecidableEq, Repr

/-- The text of a configuration. -/
def Config.text (c : Config) : String :=
  "SolverConfig \x7b compute_values: " ++ toString c.computeValues ++
    ", gc_mode: " ++ c.gcMode.text ++
    ", use_end_summary_tab: " ++ toString c.useSummaryTable ++
    ", auto_add_zero: " ++ toString c.autoAddZero ++
    ", worklist_order: " ++ c.queueOrder.text ++
    ", join_limit: " ++ toString c.joinLimit ++
    ", collect_edge_functions: " ++ toString c.sweepEdges ++ " \x7d"

end Tabulation
