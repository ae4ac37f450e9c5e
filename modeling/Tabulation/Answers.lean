import Tabulation.Ident
import Tabulation.Memo
import Tabulation.Problem
import Tabulation.EdgeStore.Basic

/-!
# The client's answers

Asking a client for a flow or an edge function may be expensive, so the answers are remembered in
ten memo tables, one for each kind of question. Edge functions are remembered as handles of a store.

**Keys.** The caller brings the key under which an answer is remembered. Equal keys share an answer
whatever the other arguments are, so keys must determine the arguments.

**Log.** Each question is logged, with whether it was put to the client or its answer remembered.
`timesAsked` counts the questions of one kind that were put to the client.
-/

namespace Tabulation

/-- The ten functions of a client. -/
inductive Getter where
  | normalFlow
  | callFlow
  | returnFlow
  | bypassFlow
  | summaryFlow
  | normalEdge
  | callEdge
  | returnEdge
  | bypassEdge
  | summaryEdge
  deriving DecidableEq, Repr

/-- The getters of flow functions. -/
def Getter.isFlow : Getter → Bool
  | .normalFlow | .callFlow | .returnFlow | .bypassFlow | .summaryFlow => true
  | .normalEdge | .callEdge | .returnEdge | .bypassEdge | .summaryEdge => false

/-- A question to the client: a function with its arguments. -/
inductive Query (D : Type) where
  | normalFlow (node succ : String)
  | callFlow (site callee : String)
  | returnFlow (site callee exit ret : String)
  | bypassFlow (site ret : String) (callees : List String)
  | summaryFlow (site callee : String)
  | normalEdge (node : String) (fact : D) (succ : String) (target : D)
  | callEdge (site : String) (fact : D) (callee : String) (target : D)
  | returnEdge (site callee exit : String) (fact : D) (ret : String) (target : D)
  | bypassEdge (site : String) (fact : D) (ret : String) (target : D) (callees : List String)
  | summaryEdge (site : String) (fact : D) (ret : String) (target : D)
  deriving DecidableEq, Repr

/-- The function that a question is about. -/
def Query.getter {D : Type} : Query D → Getter
  | .normalFlow .. => .normalFlow
  | .callFlow .. => .callFlow
  | .returnFlow .. => .returnFlow
  | .bypassFlow .. => .bypassFlow
  | .summaryFlow .. => .summaryFlow
  | .normalEdge .. => .normalEdge
  | .callEdge .. => .callEdge
  | .returnEdge .. => .returnEdge
  | .bypassEdge .. => .bypassEdge
  | .summaryEdge .. => .summaryEdge

/-- The remembered answers of a client. -/
structure Answers (D : Type) where
  zero : D
  /-- Whether every flow function keeps the zero fact. -/
  autoAddZero : Bool
  normalFlows : Memo UInt64 (FlowFunction D)
  callFlows : Memo UInt64 (FlowFunction D)
  returnFlows : Memo (UInt64 × NodeId) (FlowFunction D)
  bypassFlows : Memo UInt64 (FlowFunction D)
  summaryFlows : Memo UInt64 (Option (FlowFunction D))
  normalEdges : Memo (UInt64 × UInt64) EdgeRef
  callEdges : Memo (UInt64 × UInt64) EdgeRef
  returnEdges : Memo (UInt64 × NodeId × UInt64) EdgeRef
  bypassEdges : Memo (UInt64 × UInt64) EdgeRef
  summaryEdges : Memo (UInt64 × UInt64) EdgeRef
  /-- All questions, the last one first, and whether they were put to the client. -/
  questions : List (Query D × Bool)

namespace Answers

variable {D L K : Type}

/-- No answers yet. -/
def empty (zero : D) (autoAddZero : Bool) : Answers D :=
  { zero, autoAddZero, normalFlows := ∅, callFlows := ∅, returnFlows := ∅, bypassFlows := ∅,
    summaryFlows := ∅, normalEdges := ∅, callEdges := ∅, returnEdges := ∅, bypassEdges := ∅,
    summaryEdges := ∅, questions := [] }

/-- The facts after an edge. With `autoAddZero` the zero fact is among them if it holds before the
edge. -/
def targets [DecidableEq D] (a : Answers D) (f : FlowFunction D) (d : D) : List D :=
  let ds := f.targets d
  if a.autoAddZero ∧ d = a.zero ∧ a.zero ∉ ds then ds ++ [a.zero] else ds

/-- The questions put to the client, the last one first. -/
def asked (a : Answers D) : List (Query D) :=
  a.questions.filterMap fun (q, wasAsked) => if wasAsked then some q else none

/-- How often the client was asked for a function. -/
def timesAsked (a : Answers D) (g : Getter) : Nat := a.asked.countP fun q => q.getter = g

/-- How often the client of a reachability problem was asked for a function. It has flow functions
only: the edge functions are all known to be the identity. -/
def timesAskedFlow (a : Answers D) (g : Getter) : Nat := if g.isFlow then a.timesAsked g else 0

/-! ## Flow functions -/

/-- The flow function of an edge inside a procedure. -/
def normalFlow (a : Answers D) (p : Problem D L K) (node succ : String) (key : UInt64) :
    FlowFunction D × Answers D :=
  let (f, isNew, memo) := a.normalFlows.getOrAsk key fun _ => p.normalFlow node succ
  let questions := (.normalFlow node succ, isNew) :: a.questions
  (f, { a with normalFlows := memo, questions })

/-- The flow function from a call site into a callee. -/
def callFlow (a : Answers D) (p : Problem D L K) (site callee : String) (key : UInt64) :
    FlowFunction D × Answers D :=
  let (f, isNew, memo) := a.callFlows.getOrAsk key fun _ => p.callFlow site callee
  let questions := (.callFlow site callee, isNew) :: a.questions
  (f, { a with callFlows := memo, questions })

/-- The flow function from an exit point of a callee to a return site. -/
def returnFlow (a : Answers D) (p : Problem D L K) (site callee exit ret : String)
    (key : UInt64 × NodeId) : FlowFunction D × Answers D :=
  let (f, isNew, memo) := a.returnFlows.getOrAsk key fun _ => p.returnFlow site callee exit ret
  let questions := (.returnFlow site callee exit ret, isNew) :: a.questions
  (f, { a with returnFlows := memo, questions })

/-- The flow function from a call site past its callees to a return site. -/
def bypassFlow (a : Answers D) (p : Problem D L K) (site ret : String) (callees : List String)
    (key : UInt64) : FlowFunction D × Answers D :=
  let (f, isNew, memo) := a.bypassFlows.getOrAsk key fun _ => p.bypassFlow site ret callees
  let questions := (.bypassFlow site ret callees, isNew) :: a.questions
  (f, { a with bypassFlows := memo, questions })

/-- The flow function that stands for a whole callee, if the client has one. -/
def summaryFlow (a : Answers D) (p : Problem D L K) (site callee : String) (key : UInt64) :
    Option (FlowFunction D) × Answers D :=
  let (f, isNew, memo) := a.summaryFlows.getOrAsk key fun _ => p.summaryFlow site callee
  let questions := (.summaryFlow site callee, isNew) :: a.questions
  (f, { a with summaryFlows := memo, questions })

/-! ## Edge functions -/

section Edges

variable [Ord L] [Ord K] [JoinLattice L] [DecidableEq L] [Payload K L]

/-- A handle from a memo table; if there is none, the client's edge function is put into the store.
-/
def getOrAskEdge {κ : Type} [Ord κ] (m : Memo κ EdgeRef) (key : κ) (s : EdgeStore L K)
    (ask : Unit → EdgeFunction L K) : EdgeRef × Bool × Memo κ EdgeRef × EdgeStore L K :=
  match m.lookup key with
  | (some ef, m) => (ef, false, m, s)
  | (none, m) =>
    let (ef, s) := s.leaf (ask ())
    (ef, true, m.insert key ef, s)

/-- The edge function of an edge inside a procedure. -/
def normalEdge (a : Answers D) (p : Problem D L K) (s : EdgeStore L K) (node : String) (fact : D)
    (succ : String) (target : D) (key : UInt64 × UInt64) : EdgeRef × Answers D × EdgeStore L K :=
  let (ef, isNew, memo, s) :=
    getOrAskEdge a.normalEdges key s fun _ => p.normalEdge node fact succ target
  let questions := (.normalEdge node fact succ target, isNew) :: a.questions
  (ef, { a with normalEdges := memo, questions }, s)

/-- The edge function from a call site into a callee. -/
def callEdge (a : Answers D) (p : Problem D L K) (s : EdgeStore L K) (site : String) (fact : D)
    (callee : String) (target : D) (key : UInt64 × UInt64) : EdgeRef × Answers D × EdgeStore L K :=
  let (ef, isNew, memo, s) :=
    getOrAskEdge a.callEdges key s fun _ => p.callEdge site fact callee target
  let questions := (.callEdge site fact callee target, isNew) :: a.questions
  (ef, { a with callEdges := memo, questions }, s)

/-- The edge function from an exit point of a callee to a return site. -/
def returnEdge (a : Answers D) (p : Problem D L K) (s : EdgeStore L K) (site callee exit : String)
    (fact : D) (ret : String) (target : D) (key : UInt64 × NodeId × UInt64) :
    EdgeRef × Answers D × EdgeStore L K :=
  let (ef, isNew, memo, s) :=
    getOrAskEdge a.returnEdges key s fun _ => p.returnEdge site callee exit fact ret target
  let questions := (.returnEdge site callee exit fact ret target, isNew) :: a.questions
  (ef, { a with returnEdges := memo, questions }, s)

/-- The edge function from a call site past its callees to a return site. -/
def bypassEdge (a : Answers D) (p : Problem D L K) (s : EdgeStore L K) (site : String) (fact : D)
    (ret : String) (target : D) (callees : List String) (key : UInt64 × UInt64) :
    EdgeRef × Answers D × EdgeStore L K :=
  let (ef, isNew, memo, s) :=
    getOrAskEdge a.bypassEdges key s fun _ => p.bypassEdge site fact ret target callees
  let questions := (.bypassEdge site fact ret target callees, isNew) :: a.questions
  (ef, { a with bypassEdges := memo, questions }, s)

/-- The edge function that stands for a whole callee. -/
def summaryEdge (a : Answers D) (p : Problem D L K) (s : EdgeStore L K) (site : String) (fact : D)
    (ret : String) (target : D) (key : UInt64 × UInt64) : EdgeRef × Answers D × EdgeStore L K :=
  let (ef, isNew, memo, s) :=
    getOrAskEdge a.summaryEdges key s fun _ => p.summaryEdge site fact ret target
  let questions := (.summaryEdge site fact ret target, isNew) :: a.questions
  (ef, { a with summaryEdges := memo, questions }, s)

end Edges

/-! ## Counts and forgetting -/

/-- How often a flow function was remembered. -/
def flowHits (a : Answers D) : Nat :=
  a.normalFlows.hits + a.callFlows.hits + a.returnFlows.hits + a.bypassFlows.hits +
    a.summaryFlows.hits

/-- How often a flow function was not remembered. -/
def flowMisses (a : Answers D) : Nat :=
  a.normalFlows.misses + a.callFlows.misses + a.returnFlows.misses + a.bypassFlows.misses +
    a.summaryFlows.misses

/-- How often an edge function was remembered. -/
def edgeHits (a : Answers D) : Nat :=
  a.normalEdges.hits + a.callEdges.hits + a.returnEdges.hits + a.bypassEdges.hits +
    a.summaryEdges.hits

/-- How often an edge function was not remembered. -/
def edgeMisses (a : Answers D) : Nat :=
  a.normalEdges.misses + a.callEdges.misses + a.returnEdges.misses + a.bypassEdges.misses +
    a.summaryEdges.misses

/-- Forgets all flow functions. -/
def clearFlows (a : Answers D) : Answers D :=
  { a with
    normalFlows := a.normalFlows.clear
    callFlows := a.callFlows.clear
    returnFlows := a.returnFlows.clear
    bypassFlows := a.bypassFlows.clear
    summaryFlows := a.summaryFlows.clear }

/-- Forgets all edge functions. -/
def clearEdges (a : Answers D) : Answers D :=
  { a with
    normalEdges := a.normalEdges.clear
    callEdges := a.callEdges.clear
    returnEdges := a.returnEdges.clear
    bypassEdges := a.bypassEdges.clear
    summaryEdges := a.summaryEdges.clear }

/-- Forgets all answers. -/
def clear (a : Answers D) : Answers D := a.clearFlows.clearEdges

end Answers

end Tabulation
