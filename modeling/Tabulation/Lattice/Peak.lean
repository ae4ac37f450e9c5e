import Tabulation.Lattice.Basic
import Tabulation.Text.Inspect

/-!
# Peaks

Signed 64-bit numbers under maximum. The least number is top, the greatest is bottom.
-/

namespace Tabulation

/-- A signed 64-bit number that joins by maximum. -/
structure Peak where
  val : Int64
  deriving DecidableEq, Repr

namespace Peak

instance : Ord Peak := ⟨compareOn Peak.val⟩
instance : Std.TransOrd Peak := inferInstanceAs (Std.TransCmp (compareOn Peak.val))

instance : Std.LawfulEqOrd Peak where
  eq_of_compare {a b} h := by
    cases a; cases b
    exact congrArg Peak.mk (Std.LawfulEqOrd.eq_of_compare h)

/-- The greater of two peaks. -/
def join (a b : Peak) : Peak := if a.val ≤ b.val then b else a

instance : JoinLattice Peak := ⟨⟨Int64.minValue⟩, ⟨Int64.maxValue⟩, join⟩

theorem ext_toInt {a b : Peak} (h : a.val.toInt = b.val.toInt) : a = b := by
  cases a; cases b
  exact congrArg Peak.mk (Int64.toInt_inj.1 h)

theorem toInt_join (a b : Peak) :
    (join a b).val.toInt = if a.val.toInt ≤ b.val.toInt then b.val.toInt else a.val.toInt := by
  simp only [join, Int64.le_iff_toInt_le]
  split <;> rfl

instance : LawfulJoin Peak where
  join_assoc a b c := by
    apply ext_toInt
    simp only [JoinLattice.join, toInt_join]
    grind
  join_comm a b := by
    apply ext_toInt
    simp only [JoinLattice.join, toInt_join]
    grind
  join_self a := by
    apply ext_toInt
    simp only [JoinLattice.join, toInt_join]
    grind
  join_top a := by
    apply ext_toInt
    have h := Int64.minValue_le_toInt a.val
    simp only [JoinLattice.join, JoinLattice.top, toInt_join]
    grind
  join_bottom a := by
    apply ext_toInt
    have h := Int64.toInt_le a.val
    simp only [JoinLattice.join, JoinLattice.bottom, toInt_join]
    grind

instance : Inspect Peak := ⟨fun p => "Max(" ++ inspect p.val ++ ")"⟩

end Peak

end Tabulation
