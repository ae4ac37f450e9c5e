import Tabulation.EdgeFunction.Basic
import Tabulation.Lattice.Peak
import Tabulation.Ident

/-!
# Maps of peaks

Payloads over the lattice of peaks, with arithmetic that stops at the bounds.

- `add k` adds `k` to every number but the two bounds. Additions compose.
- `cap c` is the minimum with `c`. Caps compose and join to caps.
-/

namespace Tabulation

/-- A map of peaks. -/
inductive PeakMap where
  | add (k : Int64)
  | cap (c : Int64)
  deriving DecidableEq, Repr

namespace PeakMap

/-- The sum of two numbers, or the bound that it passes. -/
def addBounded (a b : Int64) : Int64 :=
  let sum := a.toInt + b.toInt
  if sum < Int64.minValue.toInt then Int64.minValue
  else if Int64.maxValue.toInt < sum then Int64.maxValue
  else Int64.ofInt sum

/-- The lesser of two numbers. -/
def lesser (a b : Int64) : Int64 := if a ≤ b then a else b

/-- The greater of two numbers. -/
def greater (a b : Int64) : Int64 := if a ≤ b then b else a

/-- The position of the shape in the order of declaration. -/
def rank : PeakMap → Nat
  | .add _ => 0
  | .cap _ => 1

/-- The number of the map. -/
def number : PeakMap → Int64
  | .add k => k
  | .cap c => c

instance : Ord PeakMap := ⟨compareLex (compareOn rank) (compareOn number)⟩

instance : Std.TransOrd PeakMap :=
  inferInstanceAs (Std.TransCmp (compareLex (compareOn rank) (compareOn number)))

instance : Std.LawfulEqOrd PeakMap where
  compare_self {a} := by
    change (compare a.rank a.rank).then (compare a.number a.number) = .eq
    rw [Std.ReflOrd.compare_self, Std.ReflOrd.compare_self]
    rfl
  eq_of_compare {a b} h := by
    obtain ⟨h₁, h₂⟩ := Ordering.then_eq_eq.1
      (h : (compare a.rank b.rank).then (compare a.number b.number) = .eq)
    have e₁ := Std.LawfulEqOrd.eq_of_compare h₁
    have e₂ := Std.LawfulEqOrd.eq_of_compare h₂
    cases a <;> cases b <;> simp_all [rank, number]

/-- The map at a peak. -/
def apply : PeakMap → Peak → Peak
  | .add k, v => if v = top ∨ v = bottom then v else ⟨addBounded v.val k⟩
  | .cap c, v => ⟨lesser v.val c⟩

/-- Additions compose to their sum, caps to the lesser cap. -/
def compose? : PeakMap → PeakMap → Option PeakMap
  | .add a, .add b => some (.add (addBounded a b))
  | .cap a, .cap b => some (.cap (lesser a b))
  | _, _ => none

/-- Caps join to the greater cap. -/
def join? : PeakMap → PeakMap → Option PeakMap
  | .cap a, .cap b => some (.cap (greater a b))
  | _, _ => none

instance : Payload PeakMap Peak where
  apply := apply
  compose? := compose?
  join? := join?

instance : Inspect PeakMap where
  inspect
    | .add k => "Add(" ++ inspect k ++ ")"
    | .cap c => "Cap(" ++ inspect c ++ ")"

end PeakMap

end Tabulation
