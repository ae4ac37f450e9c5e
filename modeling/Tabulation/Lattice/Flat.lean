import Tabulation.Lattice.Basic
import Tabulation.Text.Inspect

/-!
# Flat lattices

Over a type `T`: nothing known (`top`), exactly one value, or conflicting values (`bottom`). Two
different values join to `bottom`.
-/

namespace Tabulation

/-- The flat lattice over `T`. -/
inductive Flat (T : Type) where
  | top
  | value (v : T)
  | bottom
  deriving DecidableEq, Repr

namespace Flat

variable {T : Type}

/-- The value, if there is exactly one. -/
def value? : Flat T → Option T
  | .value v => some v
  | _ => none

/-- The position in the order top, values, bottom. -/
def rank : Flat T → Nat
  | .top => 0
  | .value _ => 1
  | .bottom => 2

instance [Ord T] : Ord (Flat T) := ⟨compareLex (compareOn rank) (compareOn value?)⟩

instance [Ord T] [Std.TransOrd T] : Std.TransOrd (Flat T) :=
  inferInstanceAs (Std.TransCmp (compareLex (compareOn rank) (compareOn value?)))

instance [Ord T] [Std.LawfulEqOrd T] : Std.LawfulEqOrd (Flat T) where
  compare_self {a} := by
    change (compare a.rank a.rank).then (compare a.value? a.value?) = .eq
    rw [Std.ReflOrd.compare_self, Std.ReflOrd.compare_self]
    rfl
  eq_of_compare {a b} h := by
    obtain ⟨h₁, h₂⟩ := Ordering.then_eq_eq.1
      (h : (compare a.rank b.rank).then (compare a.value? b.value?) = .eq)
    have hr := Std.LawfulEqOrd.eq_of_compare h₁
    have hv := Std.LawfulEqOrd.eq_of_compare h₂
    cases a <;> cases b <;> simp_all [rank, value?]

/-- Equal values join to themselves, different ones to bottom. -/
def join [DecidableEq T] : Flat T → Flat T → Flat T
  | .top, b => b
  | a, .top => a
  | .bottom, _ => .bottom
  | _, .bottom => .bottom
  | .value a, .value b => if a = b then .value a else .bottom

instance [DecidableEq T] : JoinLattice (Flat T) := ⟨.top, .bottom, join⟩

instance [DecidableEq T] : LawfulJoin (Flat T) where
  join_assoc a b c := by
    change join (join a b) c = join a (join b c)
    cases a <;> cases b <;> cases c <;> grind [join]
  join_comm a b := by
    change join a b = join b a
    cases a <;> cases b <;> grind [join]
  join_self a := by cases a <;> simp [JoinLattice.join, join]
  join_top a := by cases a <;> simp [JoinLattice.join, JoinLattice.top, join]
  join_bottom a := by cases a <;> simp [JoinLattice.join, JoinLattice.bottom, join]

instance [ToString T] : ToString (Flat T) where
  toString
    | .top => "TOP"
    | .value v => toString v
    | .bottom => "BOTTOM"

instance [Inspect T] : Inspect (Flat T) where
  inspect
    | .top => "Top"
    | .value v => "Value(" ++ inspect v ++ ")"
    | .bottom => "Bottom"

end Flat

end Tabulation
