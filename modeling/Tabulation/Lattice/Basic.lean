import Std.Data.TreeMap

/-!
# Join lattices

Values of an analysis form a bounded join semilattice. **Top** carries no information and is neutral
for joins; **bottom** absorbs. Joins therefore go from top down to bottom, which is how values lose
precision as paths merge.

`LawfulJoin` states the laws. `Below a b` is the order that joins induce: `b` covers `a`.
-/

namespace Tabulation

/-- A type of values with a join and its two bounds. -/
class JoinLattice (L : Type) where
  top : L
  bottom : L
  join : L → L → L

export JoinLattice (top bottom join)

/-- The laws of a bounded join semilattice with neutral `top` and absorbing `bottom`. -/
class LawfulJoin (L : Type) [JoinLattice L] : Prop where
  join_assoc : ∀ a b c : L, join (join a b) c = join a (join b c)
  join_comm : ∀ a b : L, join a b = join b a
  join_self : ∀ a : L, join a a = a
  join_top : ∀ a : L, join a top = a
  join_bottom : ∀ a : L, join a bottom = bottom

section

variable {L : Type} [JoinLattice L]

/-- Whether a value is top. -/
def isTop [DecidableEq L] (v : L) : Bool := decide (v = top)

/-- Whether a value is bottom. -/
def isBottom [DecidableEq L] (v : L) : Bool := decide (v = bottom)

/-- The join of a list of values; top for the empty list. -/
def joinAll (vs : List L) : L := vs.foldl join top

/-- Joining `a` into `b` does not change `b`. -/
def Below (a b : L) : Prop := join b a = b

end

section Laws

variable {L : Type} [JoinLattice L] [LawfulJoin L]

open LawfulJoin

theorem top_join (a : L) : join top a = a := by rw [join_comm, join_top]

theorem bottom_join (a : L) : join bottom a = (bottom : L) := by rw [join_comm, join_bottom]

theorem Below.refl (a : L) : Below a a := join_self a

theorem Below.trans {a b c : L} (h : Below a b) (k : Below b c) : Below a c := by
  unfold Below at *
  rw [← k, join_assoc, h]

theorem Below.antisymm {a b : L} (h : Below a b) (k : Below b a) : a = b := by
  unfold Below at *
  rw [← k, join_comm, h]

theorem below_join_left (a b : L) : Below a (join a b) := by
  unfold Below
  rw [join_comm a b, join_assoc, join_self]

theorem below_join_right (a b : L) : Below b (join a b) := by
  unfold Below
  rw [join_assoc, join_self]

theorem join_below {a b c : L} (h : Below a c) (k : Below b c) : Below (join a b) c := by
  unfold Below at *
  rw [← join_assoc, h, k]

theorem top_below (a : L) : Below top a := join_top a

theorem below_bottom (a : L) : Below a (bottom : L) := bottom_join a

end Laws

end Tabulation
