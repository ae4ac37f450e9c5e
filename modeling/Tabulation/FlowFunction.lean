import Tabulation.Text.Inspect

/-!
# Flow functions

A flow function says which facts hold after an edge, given one fact that holds before it. The eight
shapes cover the usual distributive functions; `lambda` takes any other.

**Targets.** `targets` lists the facts after the edge without repetition, in the order in which the
function first mentions them. The parts of a union share one growing list, so a later part adds only
facts that no earlier part mentioned.
-/

namespace Tabulation

/-- A distributive function on sets of facts, given by its value on single facts. -/
inductive FlowFunction (D : Type) where
  /-- Every fact stays. -/
  | identity
  /-- No fact stays. -/
  | killAll
  /-- Every fact stays, and `source` also produces `facts`. -/
  | gen (source : D) (facts : List D)
  /-- Every fact but one stays. -/
  | kill (fact : D)
  /-- An assignment: `source` also produces `target`, and the old `target` goes. -/
  | transfer (source target : D)
  /-- A fact produces what the pairs assign to it, and nothing else. -/
  | map (pairs : List (D × D))
  /-- What any of the parts produces. -/
  | union (parts : List (FlowFunction D))
  /-- What the given function produces. -/
  | lambda (f : D → List D)

namespace FlowFunction

variable {D : Type} [DecidableEq D]

/-- Appends a fact unless it is in the list. -/
def pushNew (out : List D) (d : D) : List D := if d ∈ out then out else out ++ [d]

/-- Appends the facts that are not in the list. -/
def pushAll (out : List D) (ds : List D) : List D := ds.foldl pushNew out

mutual

/-- Appends the facts that the function produces from `d`. -/
def collect (d : D) : FlowFunction D → List D → List D
  | .identity, out => pushNew out d
  | .killAll, out => out
  | .gen source facts, out =>
    let out := pushNew out d
    if d = source then pushAll out facts else out
  | .kill fact, out => if d = fact then out else pushNew out d
  | .transfer source target, out =>
    if d = source then pushNew (pushNew out source) target
    else if d = target then out
    else pushNew out d
  | .map pairs, out => pushAll out ((pairs.filter fun p => p.1 = d).map (·.2))
  | .union parts, out => collectAll d parts out
  | .lambda f, out => pushAll out (f d)

/-- Appends the facts that each of the functions produces from `d`, in order. -/
def collectAll (d : D) : List (FlowFunction D) → List D → List D
  | [], out => out
  | f :: fs, out => collectAll d fs (collect d f out)

end

/-- The facts after the edge if `d` holds before it. -/
def targets (f : FlowFunction D) (d : D) : List D := f.collect d []

mutual

/-- The text of a flow function. -/
def text {D : Type} [Inspect D] : FlowFunction D → String
  | .identity => "Identity"
  | .killAll => "KillAll"
  | .gen source facts => "Gen(" ++ inspect source ++ " -> " ++ inspect facts ++ ")"
  | .kill fact => "Kill(" ++ inspect fact ++ ")"
  | .transfer source target => "Transfer(" ++ inspect source ++ " -> " ++ inspect target ++ ")"
  | .map pairs => "Map(" ++ inspect pairs ++ ")"
  | .union parts => Text.bracketed (texts parts)
  | .lambda _ => "Lambda"

/-- The texts of flow functions. -/
def texts {D : Type} [Inspect D] : List (FlowFunction D) → List String
  | [] => []
  | f :: fs => text f :: texts fs

end

instance {D : Type} [Inspect D] : Inspect (FlowFunction D) := ⟨text⟩

end FlowFunction

end Tabulation
