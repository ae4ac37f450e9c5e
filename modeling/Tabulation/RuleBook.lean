import Tabulation.Problem

/-!
# Problems given by rules

A rule book describes a problem by lists of rules, one list for each kind of edge. A rule applies to
the edges that match its patterns; a pattern that is left out matches anything.

**Flow functions.** The first rule that matches and brings a flow function decides. Without one,
normal, call and return edges keep all facts, edges past a callee keep none, and there is no
summary.

**Edge functions.** The rows of all matching rules are tried in order; the first row whose facts
match decides. Without one, the edge function is the identity.
-/

namespace Tabulation

/-- A pattern: nothing matches anything, a value matches itself. -/
def admits {α : Type} [DecidableEq α] (pattern : Option α) (a : α) : Bool :=
  match pattern with
  | none => true
  | some b => b = a

/-- An edge function with patterns for the facts before and after the edge. -/
structure EdgeRow (D L K : Type) where
  source : Option D
  target : Option D
  edge : EdgeFunction L K

/-- A rule for edges of one kind. -/
structure Rule (D L K : Type) where
  /-- The node at which the edge begins. -/
  node : Option String := none
  /-- The node at which the edge ends. -/
  dest : Option String := none
  callee : Option String := none
  exit : Option String := none
  /-- All callees of the call site, in order. -/
  callees : Option (List String) := none
  flow : Option (FlowFunction D) := none
  edges : List (EdgeRow D L K) := []

/-- A problem given by rules. -/
structure RuleBook (D L K : Type) where
  zero : D
  seeds : Seeds D L
  interesting : List String := []
  normal : List (Rule D L K) := []
  call : List (Rule D L K) := []
  returning : List (Rule D L K) := []
  bypass : List (Rule D L K) := []
  summary : List (Rule D L K) := []

namespace Rule

variable {D L K : Type}

/-- The flow function of the first rule that matches and brings one. -/
def firstFlow (rules : List (Rule D L K)) (applies : Rule D L K → Bool) : Option (FlowFunction D) :=
  (rules.filter applies).findSome? (·.flow)

/-- The edge function of the first row that matches, in the rules that match. -/
def firstEdge [DecidableEq D] (rules : List (Rule D L K)) (applies : Rule D L K → Bool)
    (fact target : D) : EdgeFunction L K :=
  let rows := (rules.filter applies).flatMap (·.edges)
  match rows.find? fun row => admits row.source fact && admits row.target target with
  | some row => row.edge
  | none => .identity

/-- The rule is about an edge between two nodes. -/
def onEdge (node dest : String) (r : Rule D L K) : Bool := admits r.node node && admits r.dest dest

/-- The rule is about a callee at a call site. -/
def onCall (site callee : String) (r : Rule D L K) : Bool :=
  admits r.node site && admits r.callee callee

/-- The rule is about a return from a callee to a return site. -/
def onReturn (site callee exit ret : String) (r : Rule D L K) : Bool :=
  r.onCall site callee && admits r.exit exit && admits r.dest ret

/-- The rule is about the way past the callees of a call site. -/
def onBypass (site ret : String) (callees : List String) (r : Rule D L K) : Bool :=
  r.onEdge site ret && admits r.callees callees

end Rule

namespace RuleBook

open Rule

variable {D L K : Type}

/-- The problem that a rule book describes. -/
def toProblem [DecidableEq D] (b : RuleBook D L K) : Problem D L K where
  zero := b.zero
  seeds := b.seeds
  normalFlow node succ := (firstFlow b.normal (onEdge node succ)).getD .identity
  callFlow site callee := (firstFlow b.call (onCall site callee)).getD .identity
  returnFlow site callee exit ret :=
    (firstFlow b.returning (onReturn site callee exit ret)).getD .identity
  bypassFlow site ret callees := (firstFlow b.bypass (onBypass site ret callees)).getD .killAll
  summaryFlow site callee := firstFlow b.summary (onCall site callee)
  normalEdge node fact succ target := firstEdge b.normal (onEdge node succ) fact target
  callEdge site fact callee target := firstEdge b.call (onCall site callee) fact target
  returnEdge site callee exit fact ret target :=
    firstEdge b.returning (onReturn site callee exit ret) fact target
  bypassEdge site fact ret target callees :=
    firstEdge b.bypass (onBypass site ret callees) fact target
  summaryEdge site fact ret target := firstEdge b.summary (onEdge site ret) fact target
  interesting node := b.interesting.contains node

/-- The reachability problem of a rule book; its edge functions are left aside. -/
def toReachability [DecidableEq D] (b : RuleBook D Binary K) : ReachabilityProblem D :=
  let p := b.toProblem
  { zero := p.zero
    seeds := p.seeds
    normalFlow := p.normalFlow
    callFlow := p.callFlow
    returnFlow := p.returnFlow
    bypassFlow := p.bypassFlow
    summaryFlow := p.summaryFlow
    interesting := p.interesting }

end RuleBook

end Tabulation
