import Tabulation.EdgeStore.Basic
import Tabulation.Text.Inspect

/-!
# Text of stored edge functions

A stored function is written out through its operands: `(f ; g)` for a composition, `join(seed, p,
q)` for a join.
-/

namespace Tabulation

namespace EdgeStore

variable {L K : Type} [Ord L] [Ord K] [Inspect L] [Inspect K]

/-- The text of a function, walking at most `n` levels of operands. -/
def renderTo (s : EdgeStore L K) : Nat → EdgeRef → Except Fault String
  | 0, ef => .error (.notAlive ef.index)
  | n + 1, ef => do
    match ← s.node ef with
    | .identity => return "id"
    | .allTop => return "⊤"
    | .allBottom => return "⊥"
    | .constant c => return "const(" ++ inspect c ++ ")"
    | .custom k => return inspect k
    | .compose first second =>
      return "(" ++ (← s.renderTo n first) ++ " ; " ++ (← s.renderTo n second) ++ ")"
    | .join seed parts =>
      let texts ← parts.mapM (s.renderTo n)
      return "join(" ++ String.intercalate ", " (inspect seed :: texts) ++ ")"

/-- The text of a live function. -/
def render (s : EdgeStore L K) (ef : EdgeRef) : Except Fault String :=
  s.renderTo (s.height ef + 1) ef

/-- The text of a store: how many nodes are alive, how many slots are free, and its join limit. -/
def summary (s : EdgeStore L K) : String :=
  "EdgeFunctions \x7b live: " ++ toString s.size ++ ", free: " ++ toString s.free.length ++
    ", join_limit: " ++ toString s.joinLimit ++ " \x7d"

end EdgeStore

end Tabulation
