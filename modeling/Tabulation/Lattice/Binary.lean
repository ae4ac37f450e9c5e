import Tabulation.Lattice.Basic
import Tabulation.Text.Inspect

/-!
# The two-valued lattice

A fact is either not known to hold (`top`) or holds (`bottom`).
-/

namespace Tabulation

/-- The two-valued lattice. -/
inductive Binary where
  | bottom
  | top
  deriving DecidableEq, Repr

namespace Binary

/-- The position in the order bottom, top. -/
def rank : Binary → Nat
  | .bottom => 0
  | .top => 1

instance : Ord Binary := ⟨compareOn rank⟩
instance : Std.TransOrd Binary := inferInstanceAs (Std.TransCmp (compareOn rank))

instance : Std.LawfulEqOrd Binary where
  eq_of_compare {a b} h := by cases a <;> cases b <;> first | rfl | cases h

/-- The join is top only if both values are. -/
def join : Binary → Binary → Binary
  | .top, .top => .top
  | _, _ => .bottom

instance : JoinLattice Binary := ⟨.top, .bottom, join⟩

instance : LawfulJoin Binary where
  join_assoc a b c := by cases a <;> cases b <;> cases c <;> rfl
  join_comm a b := by cases a <;> cases b <;> rfl
  join_self a := by cases a <;> rfl
  join_top a := by cases a <;> rfl
  join_bottom a := by cases a <;> rfl

instance : ToString Binary where
  toString
    | .bottom => "BOTTOM"
    | .top => "TOP"

instance : Inspect Binary where
  inspect
    | .bottom => "Bottom"
    | .top => "Top"

end Binary

end Tabulation
