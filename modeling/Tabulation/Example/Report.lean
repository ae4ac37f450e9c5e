import Tabulation.Example.CallChain
import Tabulation.Example.Options

/-!
# Report of the example analysis
-/

namespace Tabulation

namespace CallChain

/-- The line about a variable at a node of `main`. -/
def valueLine (r : Results (Verbatim (Flat Int64)) String (Flat Int64)) (x : String) (i : Nat) :
    String :=
  x ++ " at " ++ nodeName "main" i ++ " = " ++ toString (r.valueAt (nodeName "main" i) x) ++ "\n"

/-- What the example analysis prints: its options, the variables at the end of `main`, on request
all entries, and the statistics. -/
def report (o : Options) : Except Fault String := do
  let A ← analysis o.depth o.config
  let r ← Solver.solve A (Verbatim (Flat Int64)) Solver.ampleSteps
  let atEnd := String.join (["x", "y", "z"].map fun x => valueLine r x 5)
  let afterCall := if o.depth = 0 then "" else valueLine r "x" 2
  let entries ← if o.dump then r.dump A.graph else pure ""
  return "args = " ++ o.text ++ "\n" ++ atEnd ++ afterCall ++ entries ++ r.stats.text

end CallChain

end Tabulation
