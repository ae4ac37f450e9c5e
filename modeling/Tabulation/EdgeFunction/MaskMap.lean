import Tabulation.EdgeFunction.Basic
import Tabulation.Lattice.Mask
import Tabulation.Ident

/-!
# Maps of masks

Payloads over the lattice of masks.

- `genKill` takes the bits of `kill` out and puts the bits of `gen` in. Such maps compose and join;
  one that kills all bits is constant. Only shared maps are cacheable, and a combination is shared
  if both operands are.
- `shiftLeft n` moves all bits up by `n` places and drops those that leave the word.
-/

namespace Tabulation

/-- A map of masks. -/
inductive MaskMap where
  | genKill (gen kill : UInt16) (shared : Bool)
  | shiftLeft (n : UInt16)
  deriving DecidableEq, Repr

namespace MaskMap

/-- The words of the map, after a word that tells the shapes apart. -/
def words : MaskMap → List UInt16
  | .genKill gen kill shared => [0, gen, kill, if shared then 1 else 0]
  | .shiftLeft n => [1, n]

instance : Ord MaskMap := ⟨compareOn words⟩

instance : Std.TransOrd MaskMap := inferInstanceAs (Std.TransCmp (compareOn words))

instance : Std.LawfulEqOrd MaskMap where
  eq_of_compare {a b} h := by
    have h : compare a.words b.words = .eq := h
    have e := Std.LawfulEqOrd.eq_of_compare h
    cases a with
    | genKill gen kill s =>
      cases b with
      | genKill gen' kill' s' => cases s <;> cases s' <;> simp_all [words]
      | shiftLeft n => simp [words] at e
    | shiftLeft n => cases b <;> simp_all [words]

/-- The map at a mask. -/
def apply : MaskMap → Mask → Mask
  | .genKill gen kill _, v => ⟨v.bits &&& ~~~ kill ||| gen⟩
  | .shiftLeft n, v => ⟨v.bits <<< n⟩

/-- What the second map generates or does not kill is generated; what either kills is killed. -/
def compose? : MaskMap → MaskMap → Option MaskMap
  | .genKill g₁ k₁ s₁, .genKill g₂ k₂ s₂ =>
    some (.genKill (g₁ &&& ~~~ k₂ ||| g₂) (k₁ ||| k₂) (s₁ && s₂))
  | _, _ => none

/-- What either map generates is generated; what both kill is killed. -/
def join? : MaskMap → MaskMap → Option MaskMap
  | .genKill g₁ k₁ s₁, .genKill g₂ k₂ s₂ => some (.genKill (g₁ ||| g₂) (k₁ &&& k₂) (s₁ && s₂))
  | _, _ => none

/-- A map that kills all bits is constant. -/
def constant? : MaskMap → Option Mask
  | .genKill gen kill _ => if kill = 0xffff then some ⟨gen⟩ else none
  | .shiftLeft _ => none

/-- Shared maps and shifts are cacheable. -/
def cacheable : MaskMap → Bool
  | .genKill _ _ shared => shared
  | .shiftLeft _ => true

instance : Payload MaskMap Mask where
  apply := apply
  compose? := compose?
  join? := join?
  constant? := constant?
  cacheable := cacheable

instance : Inspect MaskMap where
  inspect
    | .genKill gen kill shared =>
      "GenKill \x7b gen: " ++ toString gen.toNat ++ ", kill: " ++ toString kill.toNat ++
        ", shared: " ++ toString shared ++ " \x7d"
    | .shiftLeft n => "Shl(" ++ toString n.toNat ++ ")"

end MaskMap

end Tabulation
