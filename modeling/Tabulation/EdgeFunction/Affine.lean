import Tabulation.EdgeFunction.NumberMap

/-!
# Affine maps

Linear maps of numbers with an odd slope. Products of odd numbers are odd, also when arithmetic
wraps around, so affine maps compose to affine maps, and none of them is constant.
-/

namespace Tabulation

/-- The map `v ↦ slope * v + offset`. -/
structure Affine where
  slope : Int64
  offset : Int64
  odd : slope.toBitVec.toNat % 2 = 1
  deriving DecidableEq, Repr

namespace Affine

theorem odd_one : (1 : Int64).toBitVec.toNat % 2 = 1 := by decide

theorem odd_three : (3 : Int64).toBitVec.toNat % 2 = 1 := by decide

/-- The map among all maps of numbers. -/
def toMap (f : Affine) : NumberMap := .linear f.slope f.offset

theorem toMap_inj {f g : Affine} (h : f.toMap = g.toMap) : f = g := by
  cases f
  cases g
  simpa [toMap] using h

instance : Ord Affine := ⟨compareOn toMap⟩

instance : Std.TransOrd Affine := inferInstanceAs (Std.TransCmp (compareOn toMap))

instance : Std.LawfulEqOrd Affine where
  compare_self {f} := Std.ReflOrd.compare_self (a := f.toMap)
  eq_of_compare h := toMap_inj (Std.LawfulEqOrd.eq_of_compare h)

theorem odd_mul {a b : Int64} (ha : a.toBitVec.toNat % 2 = 1) (hb : b.toBitVec.toNat % 2 = 1) :
    (a * b).toBitVec.toNat % 2 = 1 := by
  rw [Int64.toBitVec_mul, BitVec.toNat_mul, Nat.mod_mod_of_dvd _ (by decide : 2 ∣ 2 ^ 64),
    Nat.mul_mod, ha, hb]

/-- First `f`, then `g`. -/
def andThen (f g : Affine) : Affine where
  slope := g.slope * f.slope
  offset := g.slope * f.offset + g.offset
  odd := odd_mul g.odd f.odd

theorem constant?_toMap (f : Affine) : f.toMap.constant? = none := by
  refine if_neg fun h => ?_
  have hodd := f.odd
  rw [h] at hodd
  exact absurd hodd (by decide)

instance : Payload Affine (Flat Int64) where
  apply f := f.toMap.apply
  compose? f g := some (f.andThen g)
  constant? f := f.toMap.constant?

instance : LawfulPayload Affine (Flat Int64) where
  apply_compose {f g h} hh v := by
    obtain rfl := Option.some.inj hh
    cases v with
    | top => rfl
    | value v =>
      show Flat.value _ = Flat.value _
      congr 1
      simp only [toMap, NumberMap.onNumber, andThen]
      rw [Int64.mul_add, Int64.mul_assoc, Int64.add_assoc]
    | bottom => rfl
  apply_join hh := by cases hh
  apply_constant {f c} hc := by
    rw [show Payload.constant? f = f.toMap.constant? from rfl, constant?_toMap] at hc
    cases hc

end Affine

end Tabulation
