import Tabulation.Lattice.Basic

/-!
# Edge functions

An edge function transforms the value of a fact along an edge of the exploded supergraph. Four
shapes are built in; all others are *payloads* of the client.

**Payloads.** A payload can be applied to a value. It may also know its composition and its join
with another payload, and whether it is constant; where it does not know, the store of edge
functions keeps the combination symbolically. A payload that is not cacheable gets a fresh place
each time it is stored.

`LawfulPayload` says that what a payload knows agrees with how it is applied.
-/

namespace Tabulation

/-- An edge function as the client gives it. -/
inductive EdgeFunction (L K : Type) where
  | identity
  | allTop
  | allBottom
  | constant (value : L)
  | custom (payload : K)
  deriving DecidableEq, Repr

/-- Client transformers of values. -/
class Payload (K L : Type) where
  apply : K → L → L
  /-- The composition, first the first payload, then the second. -/
  compose? : K → K → Option K := fun _ _ => none
  /-- The pointwise join. -/
  join? : K → K → Option K := fun _ _ => none
  /-- The result, if the payload ignores its argument. -/
  constant? : K → Option L := fun _ => none
  /-- Whether equal payloads share one place in a store. -/
  cacheable : K → Bool := fun _ => true

/-- A payload's knowledge agrees with its application. -/
class LawfulPayload (K L : Type) [JoinLattice L] [Payload K L] : Prop where
  apply_compose : ∀ {f g h : K}, Payload.compose? L f g = some h →
    ∀ v : L, Payload.apply h v = Payload.apply g (Payload.apply f v)
  apply_join : ∀ {f g h : K}, Payload.join? L f g = some h →
    ∀ v : L, Payload.apply h v = join (Payload.apply f v) (Payload.apply g v)
  apply_constant : ∀ {f : K} {c : L}, Payload.constant? f = some c → ∀ v : L, Payload.apply f v = c

/-- The payload type of analyses that bring none. -/
inductive NoPayload where
  deriving DecidableEq, Repr

instance : Ord NoPayload := ⟨fun a _ => nomatch a⟩
instance : Std.TransOrd NoPayload where
  eq_swap {a} := nomatch a
  isLE_trans {a} := nomatch a

instance : Std.LawfulEqOrd NoPayload where
  compare_self {a} := nomatch a
  eq_of_compare {a} := nomatch a

instance {L : Type} : Payload NoPayload L where
  apply k := nomatch k

instance {L : Type} [JoinLattice L] : LawfulPayload NoPayload L where
  apply_compose {f} := nomatch f
  apply_join {f} := nomatch f
  apply_constant {f} := nomatch f

namespace EdgeFunction

variable {L K : Type} [JoinLattice L] [Payload K L]

/-- The value after the edge, given the value before it. -/
def apply : EdgeFunction L K → L → L
  | .identity, v => v
  | .allTop, _ => top
  | .allBottom, _ => bottom
  | .constant c, _ => c
  | .custom k, v => Payload.apply k v

/-- The result, if the function is known to ignore its argument. -/
def constant? : EdgeFunction L K → Option L
  | .identity => none
  | .allTop => some top
  | .allBottom => some bottom
  | .constant c => some c
  | .custom k => Payload.constant? k

end EdgeFunction

end Tabulation
