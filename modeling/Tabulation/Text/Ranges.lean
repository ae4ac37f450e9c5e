/-!
# Sets of characters as ranges

A set of characters is a list of closed ranges of code points, ascending and apart. Look-up walks
the list and stops at the first range that lies above the code point.
-/

namespace Tabulation

namespace Text

/-- Whether a code point lies in one of the ranges of an ascending list. -/
def inRanges (n : Nat) : List (Nat × Nat) → Bool
  | [] => false
  | (lo, hi) :: rest => if n < lo then false else n ≤ hi || inRanges n rest

end Text

end Tabulation
