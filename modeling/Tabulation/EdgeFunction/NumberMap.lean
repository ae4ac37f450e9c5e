import Tabulation.EdgeFunction.Basic
import Tabulation.Lattice.Flat
import Tabulation.Ident

/-!
# Maps of numbers

Payloads over the flat lattice of signed 64-bit numbers, with arithmetic that wraps around. The
bounds of the lattice are mapped to themselves, except that `rescue` replaces a conflict by a
number.

- `linear a b` is `v ↦ a * v + b`. Linear maps compose to linear maps, and one with `a = 0` is
  constant.
- `scale k` is `v ↦ v * k`. Nothing is known about its compositions.
- `shift k` is `v ↦ v + k`. It is not cacheable.
- `rescue d` maps a conflict to `d` and keeps everything else.
-/

namespace Tabulation

/-- A map of signed 64-bit numbers. -/
inductive NumberMap where
  | linear (a b : Int64)
  | scale (k : Int64)
  | shift (k : Int64)
  | rescue (d : Int64)
  deriving DecidableEq, Repr

namespace NumberMap

/-- The position of the shape in the order of declaration. -/
def rank : NumberMap → Nat
  | .linear .. => 0
  | .scale _ => 1
  | .shift _ => 2
  | .rescue _ => 3

/-- The numbers of the map. -/
def numbers : NumberMap → Int64 × Int64
  | .linear a b => (a, b)
  | .scale k => (k, 0)
  | .shift k => (k, 0)
  | .rescue d => (d, 0)

instance : Ord NumberMap := ⟨compareLex (compareOn rank) (compareOn numbers)⟩

instance : Std.TransOrd NumberMap :=
  inferInstanceAs (Std.TransCmp (compareLex (compareOn rank) (compareOn numbers)))

instance : Std.LawfulEqOrd NumberMap where
  compare_self {a} := by
    change (compare a.rank a.rank).then (compare a.numbers a.numbers) = .eq
    rw [Std.ReflOrd.compare_self, Std.ReflOrd.compare_self]
    rfl
  eq_of_compare {a b} h := by
    obtain ⟨h₁, h₂⟩ := Ordering.then_eq_eq.1
      (h : (compare a.rank b.rank).then (compare a.numbers b.numbers) = .eq)
    have e₁ := Std.LawfulEqOrd.eq_of_compare h₁
    have e₂ := Std.LawfulEqOrd.eq_of_compare h₂
    cases a <;> cases b <;> simp_all [rank, numbers]

/-- The map at a number. -/
def onNumber : NumberMap → Int64 → Int64
  | .linear a b, v => a * v + b
  | .scale k, v => v * k
  | .shift k, v => v + k
  | .rescue _, v => v

/-- The map at a value of the lattice. -/
def apply (f : NumberMap) : Flat Int64 → Flat Int64
  | .top => .top
  | .value v => .value (f.onNumber v)
  | .bottom =>
    match f with
    | .rescue d => .value d
    | _ => .bottom

/-- Linear maps compose to a linear map. -/
def compose? : NumberMap → NumberMap → Option NumberMap
  | .linear a b, .linear c d => some (.linear (c * a) (c * b + d))
  | _, _ => none

/-- A linear map without slope is constant. -/
def constant? : NumberMap → Option (Flat Int64)
  | .linear a b => if a = 0 then some (.value b) else none
  | _ => none

/-- All maps but shifts are cacheable. -/
def cacheable : NumberMap → Bool
  | .shift _ => false
  | _ => true

instance : Payload NumberMap (Flat Int64) where
  apply := apply
  compose? := compose?
  constant? := constant?
  cacheable := cacheable

instance : Inspect NumberMap where
  inspect
    | .linear a b => "Linear \x7b a: " ++ inspect a ++ ", b: " ++ inspect b ++ " \x7d"
    | .scale k => "Opaque(" ++ inspect k ++ ")"
    | .shift k => "Scratch(" ++ inspect k ++ ")"
    | .rescue d => "Catch(" ++ inspect d ++ ")"

end NumberMap

end Tabulation
