import Tabulation.EdgeFunction.MaskMap
import Tabulation.Proofs.Solver.Labels

/-!
# Maps of masks are lawful and distribute

What a map of masks knows about itself agrees with how it is applied. All edge functions over masks
distribute over unions, so an analysis over masks is distributive whatever maps it uses.
-/

namespace Tabulation

namespace Mask

variable {v : Mask}

/-- Masks are equal if they have the same bits. -/
theorem ext_bits {a b : UInt16}
    (h : ∀ i < 16, a.toBitVec.getLsbD i = b.toBitVec.getLsbD i) : Mask.mk a = Mask.mk b :=
  congrArg Mask.mk (UInt16.toBitVec_inj.1 (BitVec.eq_of_getLsbD_eq h))

theorem apply_genKill {g k : UInt16} {s : Bool} :
    Payload.apply (MaskMap.genKill g k s) v = (⟨v.bits &&& ~~~ k ||| g⟩ : Mask) := rfl

end Mask

instance : LawfulPayload MaskMap Mask where
  apply_compose {f g h} hc v := by
    cases f with
    | shiftLeft n => cases hc
    | genKill g₁ k₁ s₁ =>
      cases g with
      | shiftLeft n => cases hc
      | genKill g₂ k₂ s₂ =>
        obtain rfl := Option.some.inj hc
        refine Mask.ext_bits fun i hi => ?_
        simp only [Mask.apply_genKill, UInt16.toBitVec_or, UInt16.toBitVec_and, UInt16.toBitVec_not,
          BitVec.getLsbD_or, BitVec.getLsbD_and, BitVec.getLsbD_not, hi]
        grind
  apply_join {f g h} hj v := by
    cases f with
    | shiftLeft n => cases hj
    | genKill g₁ k₁ s₁ =>
      cases g with
      | shiftLeft n => cases hj
      | genKill g₂ k₂ s₂ =>
        obtain rfl := Option.some.inj hj
        refine Mask.ext_bits fun i hi => ?_
        simp only [Mask.apply_genKill, UInt16.toBitVec_or, UInt16.toBitVec_and, UInt16.toBitVec_not,
          BitVec.getLsbD_or, BitVec.getLsbD_and, BitVec.getLsbD_not, hi]
        grind
  apply_constant {f c} hc v := by
    cases f with
    | shiftLeft n => cases hc
    | genKill g k s =>
      change (if k = 0xffff then some (Mask.mk g) else none) = some c at hc
      split at hc
      · next hk =>
        obtain rfl := Option.some.inj hc
        have hnone : ~~~ (0xffff : UInt16) = 0 := by decide
        rw [Mask.apply_genKill, hk, hnone, UInt16.and_zero, UInt16.zero_or]
      · cases hc

namespace Mask

theorem distributes_payload (m : MaskMap) : Distributes (Payload.apply m : Mask → Mask) := by
  intro v w
  cases m with
  | genKill g k s =>
    have hbits : (join v w).bits = v.bits ||| w.bits := rfl
    refine ext_bits fun i hi => ?_
    simp only [apply_genKill, hbits, UInt16.toBitVec_or, UInt16.toBitVec_and, UInt16.toBitVec_not,
      BitVec.getLsbD_or, BitVec.getLsbD_and, BitVec.getLsbD_not, hi]
    grind
  | shiftLeft n => exact congrArg Mask.mk UInt16.shiftLeft_or

theorem distributes (e : EdgeFunction Mask MaskMap) : Distributes e.apply := by
  cases e with
  | identity => exact fun _ _ => rfl
  | allTop => exact fun _ _ => (LawfulJoin.join_self _).symm
  | allBottom => exact fun _ _ => (LawfulJoin.join_self _).symm
  | constant c => exact fun _ _ => (LawfulJoin.join_self _).symm
  | custom m => exact distributes_payload m

theorem lawfulLabels : LawfulLabels Mask MaskMap where
  join := inferInstance
  payload := inferInstance
  transL := inferInstance
  lawfulL := inferInstance
  transK := inferInstance
  lawfulK := inferInstance

variable {D : Type} (A : Analysis D Mask MaskMap)

theorem distributive : A.Distributive := fun e _ => distributes e

theorem monotone : A.Monotone := fun e _ => (distributes e).respects

end Mask

end Tabulation
