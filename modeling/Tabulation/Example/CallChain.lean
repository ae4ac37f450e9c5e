import Std.Data.TreeMap
import Tabulation.EdgeFunction.Affine
import Tabulation.Solver.Solve

/-!
# Constants along a chain of calls

An example analysis: linear constant propagation over three global variables in a program of any
depth.

**The program.** `main` assigns `x = 1`, calls `f0`, copies `x` to `z` and calls `f0` again. Each
procedure of the chain `f0`, `f1`, … increments `x`, calls the next one, and assigns `y = 3 * x`. So
`x` is known exactly after each call of `f0`, while inside the chain two contexts meet.

**The facts** are the variables and the zero fact. An assignment transfers its source to its target
and labels the edge with an affine map.
-/

namespace Tabulation

namespace CallChain

/-- A statement of the program. -/
inductive Statement where
  /-- The variable becomes a constant. -/
  | assignConst (target : String) (value : Int64)
  /-- The target becomes the image of the source. -/
  | assign (target source : String) (map : Affine)

/-- The zero fact. -/
def zero : String := "0"

/-- The node at a position of a procedure. -/
def nodeName (proc : String) (i : Nat) : String := proc ++ "." ++ toString i

/-- The procedure at a position of the chain. -/
def procName (i : Nat) : String := "f" ++ toString i

/-- The nodes of a procedure. -/
def nodes (proc : String) (count : Nat) : List String := (List.range count).map (nodeName proc)

/-- The nodes of `main`. -/
def mainNodes : List String := nodes "main" 6

/-- The nodes of a procedure of the chain. -/
def chainNodes (i : Nat) : List String := nodes (procName i) 4

/-- The supergraph of the program. -/
def graph (depth : Nat) : Except Fault Supergraph := do
  let g ← Supergraph.empty.addProc "main" mainNodes
  let g ← g.addChain mainNodes
  let g ← (List.range depth).foldlM
    (fun g i => do (← g.addProc (procName i) (chainNodes i)).addChain (chainNodes i)) g
  let g ← (List.range (depth - 1)).foldlM
    (fun g i => g.addCall (nodeName (procName i) 1) (procName (i + 1))) g
  if depth = 0 then
    return g
  else
    (← g.addCall (nodeName "main" 1) (procName 0)).addCall (nodeName "main" 3) (procName 0)

/-- The statements of the program by node. -/
def statements (depth : Nat) : Std.TreeMap String Statement :=
  let inMain : Std.TreeMap String Statement :=
    (Std.TreeMap.empty.insert (nodeName "main" 0) (.assignConst "x" 1)).insert
      (nodeName "main" 2) (.assign "z" "x" ⟨1, 0, Affine.odd_one⟩)
  (List.range depth).foldl
    (fun t i => (t.insert (nodeName (procName i) 0) (.assign "x" "x" ⟨1, 1, Affine.odd_one⟩)).insert
      (nodeName (procName i) 2) (.assign "y" "x" ⟨3, 0, Affine.odd_three⟩))
    inMain

/-- What a statement does to facts. -/
def flowOf : Option Statement → FlowFunction String
  | some (.assignConst target _) => .transfer zero target
  | some (.assign target source _) => .transfer source target
  | none => .identity

/-- What a statement does to the value of a fact. -/
def edgeOf (fact target : String) : Option Statement → EdgeFunction (Flat Int64) Affine
  | some (.assignConst x c) => if fact = zero ∧ target = x then .constant (.value c) else .identity
  | some (.assign x y f) => if fact = y ∧ target = x then .custom f else .identity
  | none => .identity

/-- Linear constant propagation for the program. -/
def problem (depth : Nat) : Problem String (Flat Int64) Affine :=
  let statements := statements depth
  { zero
    seeds := Seeds.empty.addFact (nodeName "main" 0) zero
    normalFlow node _ := flowOf statements[node]?
    callFlow _ _ := .identity
    returnFlow _ _ _ _ := .identity
    bypassFlow _ _ _ := .killAll
    normalEdge node fact _ target := edgeOf fact target statements[node]? }

/-- The example analysis. -/
def analysis (depth : Nat) (config : Config) :
    Except Fault (Analysis String (Flat Int64) Affine) :=
  return { problem := problem depth, graph := ← graph depth, config }

end CallChain

end Tabulation
