import Std.Data.TreeMap
import Tabulation.EdgeFunction.Basic
import Tabulation.Canon

/-!
# Nodes of the store of edge functions

A stored edge function is a node whose operands are handles of other stored functions.

- `compose f g` applies first `f`, then `g`.
- `join seed parts` joins `seed` with the results of all parts.

**Handles.** The first three handles are reserved for the identity and the two bounds.

**Kinds.** Constants, payloads, compositions and joins are kept canonical, each kind in a table of
its own. Reserved nodes need no table, and payloads that are not cacheable have no kind.
-/

namespace Tabulation

/-- The handle of a stored edge function. -/
structure EdgeRef where
  index : Nat
  deriving DecidableEq, Repr, Inhabited

namespace EdgeRef

instance : Ord EdgeRef := ⟨compareOn EdgeRef.index⟩
instance : Std.TransOrd EdgeRef := inferInstanceAs (Std.TransCmp (compareOn EdgeRef.index))

instance : Std.LawfulEqOrd EdgeRef where
  eq_of_compare {a b} h := by
    cases a; cases b
    exact congrArg EdgeRef.mk (Std.LawfulEqOrd.eq_of_compare h)

/-- The handle of the identity. -/
def identity : EdgeRef := ⟨0⟩

/-- The handle of the function that is top everywhere. -/
def allTop : EdgeRef := ⟨1⟩

/-- The handle of the function that is bottom everywhere. -/
def allBottom : EdgeRef := ⟨2⟩

/-- The number of reserved handles. -/
def reserved : Nat := 3

/-- Whether the handle is reserved. -/
def isReserved (ef : EdgeRef) : Bool := ef.index < reserved

instance : ToString EdgeRef := ⟨fun ef => s!"@{ef.index}"⟩

end EdgeRef

/-- A stored edge function. -/
inductive EdgeNode (L K : Type) where
  | identity
  | allTop
  | allBottom
  | constant (value : L)
  | custom (payload : K)
  | compose (first second : EdgeRef)
  | join (seed : L) (parts : List EdgeRef)
  deriving DecidableEq, Repr

/-- The kinds of nodes that are kept canonical. -/
inductive EdgeKind where
  | constant
  | custom
  | compose
  | join
  deriving DecidableEq, Repr

namespace EdgeKind

/-- The position in the order of declaration. -/
def rank : EdgeKind → Nat
  | .constant => 0
  | .custom => 1
  | .compose => 2
  | .join => 3

instance : Ord EdgeKind := ⟨compareOn rank⟩
instance : Std.TransOrd EdgeKind := inferInstanceAs (Std.TransCmp (compareOn rank))

instance : Std.LawfulEqOrd EdgeKind where
  eq_of_compare {a b} h := by cases a <;> cases b <;> first | rfl | cases h

end EdgeKind

namespace EdgeNode

variable {L K : Type}

/-- The handles that a node refers to. -/
def operands : EdgeNode L K → List EdgeRef
  | .compose first second => [first, second]
  | .join _ parts => parts
  | _ => []

/-- The position of the shape in the order of declaration. -/
def rank : EdgeNode L K → Nat
  | .identity => 0
  | .allTop => 1
  | .allBottom => 2
  | .constant _ => 3
  | .custom _ => 4
  | .compose .. => 5
  | .join .. => 6

/-- The value inside a node. -/
def value? : EdgeNode L K → Option L
  | .constant c => some c
  | .join seed _ => some seed
  | _ => none

/-- The payload inside a node. -/
def payload? : EdgeNode L K → Option K
  | .custom k => some k
  | _ => none

/-- Nodes are ordered by shape, then by what they hold. -/
instance [Ord L] [Ord K] : Ord (EdgeNode L K) :=
  ⟨compareLex (compareOn rank)
    (compareLex (compareOn value?) (compareLex (compareOn payload?) (compareOn operands)))⟩

instance [Ord L] [Ord K] [Std.TransOrd L] [Std.TransOrd K] : Std.TransOrd (EdgeNode L K) :=
  inferInstanceAs (Std.TransCmp (compareLex (compareOn rank)
    (compareLex (compareOn value?) (compareLex (compareOn payload?) (compareOn operands)))))

instance [Ord L] [Ord K] [Std.LawfulEqOrd L] [Std.LawfulEqOrd K] :
    Std.LawfulEqOrd (EdgeNode L K) where
  compare_self {a} := by
    change (compare a.rank a.rank).then ((compare a.value? a.value?).then
      ((compare a.payload? a.payload?).then (compare a.operands a.operands))) = .eq
    simp only [Std.ReflOrd.compare_self]
    rfl
  eq_of_compare {a b} h := by
    have h : (compare a.rank b.rank).then ((compare a.value? b.value?).then
      ((compare a.payload? b.payload?).then (compare a.operands b.operands))) = .eq := h
    simp only [Ordering.then_eq_eq] at h
    obtain ⟨h₁, h₂, h₃, h₄⟩ := h
    have e₁ := Std.LawfulEqOrd.eq_of_compare h₁
    have e₂ := Std.LawfulEqOrd.eq_of_compare h₂
    have e₃ := Std.LawfulEqOrd.eq_of_compare h₃
    have e₄ := Std.LawfulEqOrd.eq_of_compare h₄
    cases a <;> cases b <;> simp_all [rank, value?, payload?, operands]

instance [Payload K L] : Kinded (EdgeNode L K) EdgeKind where
  kind?
    | .identity | .allTop | .allBottom => none
    | .constant _ => some .constant
    | .custom k => if Payload.cacheable L k then some .custom else none
    | .compose .. => some .compose
    | .join .. => some .join

end EdgeNode

end Tabulation
