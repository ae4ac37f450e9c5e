/-!
# Bit sets

A set of natural numbers as a row of 64-bit words. Number `i` is bit `i % 64` of word `i / 64`.

**Growth.** Adding a number beyond the last word appends empty words up to it; nothing ever removes
words. Two bit sets are equal as values only if they also have the same number of words.

**View.** `contains` is the membership test, and `toList` lists the members in ascending order. A
`Scan` finds them one by one, without looking at the bits that are not set.
-/

namespace Tabulation

/-- A set of natural numbers in words of 64 bits, with the number of its members. -/
structure BitSet where
  words : Array UInt64
  count : Nat
  deriving DecidableEq, Repr

namespace BitSet

/-- The empty set without words. -/
def empty : BitSet := ⟨#[], 0⟩

instance : EmptyCollection BitSet := ⟨empty⟩

/-- The empty set with words for the numbers below `capacity`. -/
def ofCapacity (capacity : Nat) : BitSet := ⟨Array.replicate ((capacity + 63) / 64) 0, 0⟩

/-- The number of members. -/
def size (s : BitSet) : Nat := s.count

/-- Whether there are no members. -/
def isEmpty (s : BitSet) : Bool := s.count == 0

/-- The number of bits in the words. -/
def capacity (s : BitSet) : Nat := s.words.size * 64

/-- The word with only the bit of `i` set. -/
def bit (i : Nat) : UInt64 := 1 <<< UInt64.ofNat (i % 64)

/-- Whether `i` is a member. -/
def contains (s : BitSet) (i : Nat) : Bool :=
  match s.words[i / 64]? with
  | some w => w &&& bit i != 0
  | none => false

/-- Appends empty words until there are at least `n`. -/
def grow (words : Array UInt64) (n : Nat) : Array UInt64 :=
  words ++ Array.replicate (n - words.size) 0

/-- Adds `i`. The flag tells whether it is new. -/
def insert (s : BitSet) (i : Nat) : Bool × BitSet :=
  let words := grow s.words (i / 64 + 1)
  if s.contains i then
    (false, { s with words })
  else
    (true, ⟨words.modify (i / 64) (· ||| bit i), s.count + 1⟩)

/-- Takes `i` out. The flag tells whether it was a member. -/
def erase (s : BitSet) (i : Nat) : Bool × BitSet :=
  if s.contains i then
    (true, ⟨s.words.modify (i / 64) (· &&& ~~~ bit i), s.count - 1⟩)
  else
    (false, s)

/-- Takes all members out and keeps the words. -/
def clear (s : BitSet) : BitSet := ⟨Array.replicate s.words.size 0, 0⟩

/-- Adds all numbers of a list. -/
def insertMany (s : BitSet) (is : List Nat) : BitSet := is.foldl (fun s i => (s.insert i).2) s

/-- The set of the numbers of a list, with as many words as its greatest member needs. -/
def ofList (is : List Nat) : BitSet := empty.insertMany is

/-- The members of one word, the `k`-th. -/
def wordMembers (k : Nat) (w : UInt64) : List Nat :=
  ((List.range 64).filter fun i => w &&& bit i != 0).map (64 * k + ·)

/-- The members in ascending order. -/
def toList (s : BitSet) : List Nat := s.words.toList.zipIdx.flatMap fun (w, k) => wordMembers k w

/-- A place in a walk over the members: what is left of the word at a position. -/
structure Scan where
  words : Array UInt64
  index : Nat
  current : UInt64

/-- The walk before the first member. -/
def scan (s : BitSet) : Scan := ⟨s.words, 0, s.words[0]?.getD 0⟩

/-- The position of the lowest bit that is set. -/
def lowest (w : UInt64) : Nat := w.toBitVec.ctz.toNat

/-- Without the lowest bit that is set. -/
def dropLowest (w : UInt64) : UInt64 := w &&& (w - 1)

theorem dropLowest_lt {w : UInt64} (h : w ≠ 0) : (dropLowest w).toNat < w.toNat := by
  have hpos : 0 < w.toNat := Nat.pos_of_ne_zero fun h0 => h (UInt64.toNat_inj.1 h0)
  have hsub : (w - 1).toNat = w.toNat - 1 := UInt64.toNat_sub_of_le _ _ hpos
  have hle : (dropLowest w).toNat ≤ (w - 1).toNat := by
    rw [dropLowest, UInt64.toNat_and]
    exact Nat.and_le_right
  omega

namespace Scan

/-- The next member and the walk after it. Words without members are passed. -/
def next? (c : Scan) : Option (Nat × Scan) :=
  if c.current = 0 then
    match _hw : c.words[c.index + 1]? with
    | some w => next? { c with index := c.index + 1, current := w }
    | none => none
  else
    some (c.index * 64 + lowest c.current, { c with current := dropLowest c.current })
termination_by c.words.size - c.index
decreasing_by
  have := (Array.getElem?_eq_some_iff.1 _hw).1
  omega

/-- A walk moves on: to a later word, or to less of the same word. -/
theorem next?_advances {c c' : Scan} {i : Nat} (h : c.next? = some (i, c')) :
    c'.words.size - c'.index < c.words.size - c.index ∨
      c'.words.size - c'.index = c.words.size - c.index ∧ c'.current.toNat < c.current.toNat := by
  fun_induction next? c with
  | case1 c hzero w hw ih =>
    have hlt := (Array.getElem?_eq_some_iff.1 hw).1
    have := ih h
    simp only at this
    omega
  | case2 => cases h
  | case3 c hne =>
    cases h
    exact .inr ⟨rfl, dropLowest_lt hne⟩

/-- The members that are left, in the order in which they are found. -/
def toList (c : Scan) : List Nat :=
  match _h : c.next? with
  | some (i, c') => i :: toList c'
  | none => []
termination_by (c.words.size - c.index, c.current.toNat)
decreasing_by
  rw [Prod.lex_def]
  exact next?_advances _h

end Scan

end BitSet

end Tabulation
