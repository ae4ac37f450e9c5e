import Tabulation.FlowFunction
import Tabulation.EdgeFunction.Basic
import Tabulation.Lattice.Binary
import Tabulation.Seeds

/-!
# Analysis problems

A problem brings the zero fact, the seeds, and the flow and edge functions of the five kinds of
edges: normal edges, calls, returns, edges from a call site to its return sites, and summaries,
which replace the call and return edges of a callee at a call site. Edge functions are the identity
and summaries are absent unless given.

**Reachability.** A `ReachabilityProblem` has no edge functions. `toProblem` makes it a problem over
the two-valued lattice, in which every edge function is the identity.
-/

namespace Tabulation

/-- A distributive data-flow problem with facts `D`, values `L` and payloads `K`. -/
structure Problem (D L K : Type) where
  /-- The fact that always holds. -/
  zero : D
  seeds : Seeds D L
  normalFlow : (node succ : String) → FlowFunction D
  callFlow : (site callee : String) → FlowFunction D
  returnFlow : (site callee exit ret : String) → FlowFunction D
  bypassFlow : (site ret : String) → (callees : List String) → FlowFunction D
  /-- The effect of a callee at a call site, if it is known without looking at its body. -/
  summaryFlow : (site callee : String) → Option (FlowFunction D) := fun _ _ => none
  normalEdge : (node : String) → (fact : D) → (succ : String) → (target : D) → EdgeFunction L K :=
    fun _ _ _ _ => .identity
  callEdge : (site : String) → (fact : D) → (callee : String) → (target : D) → EdgeFunction L K :=
    fun _ _ _ _ => .identity
  returnEdge : (site callee exit : String) → (fact : D) → (ret : String) → (target : D) →
    EdgeFunction L K := fun _ _ _ _ _ _ => .identity
  bypassEdge : (site : String) → (fact : D) → (ret : String) → (target : D) →
    (callees : List String) → EdgeFunction L K := fun _ _ _ _ _ => .identity
  summaryEdge : (site : String) → (fact : D) → (ret : String) → (target : D) → EdgeFunction L K :=
    fun _ _ _ _ => .identity
  /-- Nodes at which results are kept in every mode. -/
  interesting : String → Bool := fun _ => false

/-- A problem that asks only which facts hold where. -/
structure ReachabilityProblem (D : Type) where
  zero : D
  seeds : Seeds D Binary
  normalFlow : (node succ : String) → FlowFunction D
  callFlow : (site callee : String) → FlowFunction D
  returnFlow : (site callee exit ret : String) → FlowFunction D
  bypassFlow : (site ret : String) → (callees : List String) → FlowFunction D
  summaryFlow : (site callee : String) → Option (FlowFunction D) := fun _ _ => none
  interesting : String → Bool := fun _ => false

/-- The problem over the two-valued lattice. -/
def ReachabilityProblem.toProblem {D : Type} (p : ReachabilityProblem D) :
    Problem D Binary NoPayload where
  zero := p.zero
  seeds := p.seeds
  normalFlow := p.normalFlow
  callFlow := p.callFlow
  returnFlow := p.returnFlow
  bypassFlow := p.bypassFlow
  summaryFlow := p.summaryFlow
  interesting := p.interesting

end Tabulation
