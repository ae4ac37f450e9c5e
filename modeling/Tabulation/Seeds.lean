import Tabulation.Lattice.Basic

/-!
# Seeds

The facts from which an analysis starts, each at a node and with a value. Seeds are grouped by node,
nodes and the facts of a node in the order of their first addition. Adding a fact again at the same
node joins the values.

**Positions.** An index gives the position of the group of a node. That it is right for all groups
and no others is part of the type, so no two groups belong to one node.
-/

namespace Tabulation

/-- The index has the positions of the groups, each under the node of the group. -/
def Aligned {α : Type} (index : Std.TreeMap String Nat) (groups : Array (String × α)) : Prop :=
  ∀ (node : String) (i : Nat), index[node]? = some i ↔ (groups[i]?).map (·.1) = some node

/-- Facts with values, grouped by node. -/
structure Seeds (D L : Type) where
  groups : Array (String × List (D × L))
  index : Std.TreeMap String Nat
  aligned : Aligned index groups

namespace Seeds

variable {D L : Type}

/-- No seeds. -/
def empty : Seeds D L where
  groups := #[]
  index := ∅
  aligned := by simp [Aligned]

theorem aligned_push {α : Type} {index : Std.TreeMap String Nat} {groups : Array (String × α)}
    (h : Aligned index groups) {node : String} (hnew : index[node]? = none) (facts : α) :
    Aligned (index.insert node groups.size) (groups.push (node, facts)) := by
  intro n i
  rw [Std.TreeMap.getElem?_insert, Array.getElem?_push]
  simp only [Std.LawfulEqOrd.compare_eq_iff_eq]
  by_cases hn : node = n
  · subst hn
    by_cases hi : i = groups.size
    · simp [hi]
    · have hno : (groups[i]?).map (·.1) ≠ some node := by
        rw [Ne, ← h node i, hnew]
        simp
      rw [if_pos rfl, if_neg hi]
      exact ⟨fun heq => absurd (Option.some.inj heq).symm hi, fun heq => absurd heq hno⟩
  · by_cases hi : i = groups.size
    · have hno := h n groups.size
      simp_all
    · rw [if_neg hn, if_neg hi]
      exact h n i

/-- The position of the group of a node. A new node gets an empty group at the end. -/
def locate (s : Seeds D L) (node : String) : Nat × Seeds D L :=
  match h : s.index[node]? with
  | some i => (i, s)
  | none => (s.groups.size,
      { groups := s.groups.push (node, [])
        index := s.index.insert node s.groups.size
        aligned := aligned_push s.aligned h _ })

/-- Changes the facts of the group at a position. -/
def modifyGroup (s : Seeds D L) (i : Nat) (f : List (D × L) → List (D × L)) : Seeds D L where
  groups := s.groups.modify i fun (node, facts) => (node, f facts)
  index := s.index
  aligned node j := by
    rw [s.aligned, Array.getElem?_modify]
    split
    · rw [Option.map_map]
      rfl
    · rfl

section Add

variable [DecidableEq D] [JoinLattice L]

/-- Adds a fact to the facts of one node. -/
def addToGroup (fact : D) (value : L) : List (D × L) → List (D × L)
  | [] => [(fact, value)]
  | (d, v) :: rest =>
    if d = fact then (d, join v value) :: rest else (d, v) :: addToGroup fact value rest

/-- Adds a fact with a value at a node. -/
def add (s : Seeds D L) (node : String) (fact : D) (value : L) : Seeds D L :=
  let (i, s) := s.locate node
  s.modifyGroup i (addToGroup fact value)

/-- Adds a fact that holds: its value is bottom. -/
def addFact (s : Seeds D L) (node : String) (fact : D) : Seeds D L := s.add node fact bottom

end Add

/-- All seeds in order. -/
def toList (s : Seeds D L) : List (String × D × L) :=
  s.groups.toList.flatMap fun (node, facts) => facts.map fun (fact, value) => (node, fact, value)

/-- The number of seeds. -/
def size (s : Seeds D L) : Nat := s.groups.foldl (fun n (_, facts) => n + facts.length) 0

/-- Whether there are no seeds. -/
def isEmpty (s : Seeds D L) : Bool := s.size == 0

end Seeds

end Tabulation
