import Tabulation.Text.Inspect

/-!
# Statistics of a run
-/

namespace Tabulation

/-- Counters of one run. -/
structure Stats where
  /-- Path edges stored, refinements included. -/
  pathEdges : Nat := 0
  /-- The most path edges alive at once. -/
  pathEdgesPeak : Nat := 0
  worklistPeak : Nat := 0
  callQueuePeak : Nat := 0
  rounds : Nat := 0
  /-- Pairs of an entry fact and a callee that were looked at again at the end of a round. -/
  relevantCalls : Nat := 0
  calls : Nat := 0
  /-- Calls that were recorded before. -/
  repeatedCalls : Nat := 0
  summaries : Nat := 0
  gcRuns : Nat := 0
  collectedProcs : Nat := 0
  collectedPathEdges : Nat := 0
  edgesInterned : Nat := 0
  edgesSwept : Nat := 0
  edgeHits : Nat := 0
  edgeMisses : Nat := 0
  flowHits : Nat := 0
  flowMisses : Nat := 0
  valueJobs : Nat := 0
  valueWorklistPeak : Nat := 0
  facts : Nat := 0
  nodes : Nat := 0
  procs : Nat := 0
  deriving DecidableEq, Repr

namespace Stats

/-- A path edge was stored while `alive` of them were alive. -/
def pathEdgeStored (s : Stats) (alive : Nat) : Stats :=
  { s with pathEdges := s.pathEdges + 1, pathEdgesPeak := max s.pathEdgesPeak alive }

/-- The counters: field name, caption and count. -/
def rows (s : Stats) : List (String × String × Nat) :=
  [("num_path_edges", "path edges", s.pathEdges),
   ("path_edges_high_watermark", "path edges (peak)", s.pathEdgesPeak),
   ("worklist_high_watermark", "worklist (peak)", s.worklistPeak),
   ("call_worklist_high_watermark", "call worklist (peak)", s.callQueuePeak),
   ("num_rounds", "rounds", s.rounds),
   ("num_relevant_calls", "relevant calls", s.relevantCalls),
   ("num_inter_jobs", "inter jobs", s.calls),
   ("num_inter_jobs_deduplicated", "inter jobs deduplicated", s.repeatedCalls),
   ("num_end_summaries", "end summaries", s.summaries),
   ("num_gc_runs", "GC runs", s.gcRuns),
   ("num_collected_functions", "collected functions", s.collectedProcs),
   ("num_collected_jump_functions", "collected jump functions", s.collectedPathEdges),
   ("num_edge_functions_interned", "edge functions interned", s.edgesInterned),
   ("num_edge_functions_swept", "edge functions swept", s.edgesSwept),
   ("edge_function_cache_hits", "edge function cache hits", s.edgeHits),
   ("edge_function_cache_misses", "edge function cache misses", s.edgeMisses),
   ("flow_cache_hits", "flow cache hits", s.flowHits),
   ("flow_cache_misses", "flow cache misses", s.flowMisses),
   ("num_value_jobs", "value jobs", s.valueJobs),
   ("value_worklist_high_watermark", "value worklist (peak)", s.valueWorklistPeak),
   ("num_facts", "facts", s.facts),
   ("num_nodes", "nodes", s.nodes),
   ("num_functions", "functions", s.procs)]

/-- The statistics as a table. -/
def text (s : Stats) : String :=
  "Solver statistics:\n" ++ String.join (s.rows.map fun (_, caption, count) =>
    "  " ++ Text.padRight 28 caption ++ " " ++ Text.padLeft 10 (toString count) ++ "\n")

end Stats

end Tabulation
