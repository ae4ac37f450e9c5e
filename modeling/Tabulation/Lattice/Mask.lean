import Tabulation.Lattice.Basic
import Tabulation.Text.Inspect

/-!
# Masks

Sets of at most sixteen things as 16-bit words under union. The empty mask is top, the full one is
bottom.
-/

namespace Tabulation

/-- A 16-bit word that joins by union of its bits. -/
structure Mask where
  bits : UInt16
  deriving DecidableEq, Repr

namespace Mask

instance : Ord Mask := ⟨compareOn Mask.bits⟩
instance : Std.TransOrd Mask := inferInstanceAs (Std.TransCmp (compareOn Mask.bits))

instance : Std.LawfulEqOrd Mask where
  eq_of_compare {a b} h := by
    cases a; cases b
    exact congrArg Mask.mk (Std.LawfulEqOrd.eq_of_compare h)

instance : JoinLattice Mask := ⟨⟨0⟩, ⟨0xffff⟩, fun a b => ⟨a.bits ||| b.bits⟩⟩

instance : LawfulJoin Mask where
  join_assoc _ _ _ := congrArg Mask.mk (UInt16.or_assoc ..)
  join_comm _ _ := congrArg Mask.mk (UInt16.or_comm ..)
  join_self _ := congrArg Mask.mk UInt16.or_self
  join_top _ := congrArg Mask.mk UInt16.or_zero
  join_bottom _ := congrArg Mask.mk (UInt16.or_neg_one ..)

instance : Inspect Mask := ⟨fun m => "Mask(" ++ toString m.bits.toNat ++ ")"⟩

end Mask

end Tabulation
