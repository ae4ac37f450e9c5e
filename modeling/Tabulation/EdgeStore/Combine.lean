import Tabulation.EdgeStore.Basic

/-!
# Composition and join of stored edge functions

Both operations keep nodes in normal form, so that equal functions built in different ways tend to
meet in one handle.

**Composition.**

- The identity is neutral on both sides.
- A second function that ignores its argument is the composition.
- A constant first function makes the composition constant.
- Two payloads are composed by the client, if it knows how.
- Compositions are nested to the right: `(a ; b) ; g` becomes `a ; (b ; g)`.

**Join.**

- All-top is neutral and all-bottom absorbs.
- Two payloads are joined by the client, if it knows how.
- Constants go into the seed, joins are flattened, parts are sorted and each is kept once.
- A join with more parts than the limit is widened to all-bottom.

Results are remembered under the pair of handles, for joins with the lower handle first.
-/

namespace Tabulation

namespace EdgeStore

variable {L K : Type} [Ord L] [Ord K] [Payload K L] [JoinLattice L] [DecidableEq L]

/-! ## Composition -/

/-- The client's composition of two payload nodes, if both are payloads and it knows one. -/
def foldCompose (f g : EdgeNode L K) : Option K :=
  match f, g with
  | .custom f, .custom g => Payload.compose? L f g
  | _, _ => none

/-- The composition, re-associating at most `n` levels of the first operand. -/
def composeTo : Nat → EdgeStore L K → EdgeRef → EdgeRef → Except Fault (EdgeRef × EdgeStore L K)
  | 0, _, first, _ => .error (.notAlive first.index)
  | n + 1, s, first, second =>
    if first = .identity then .ok (second, s)
    else if second = .identity then .ok (first, s)
    else
      let (known, memo) := s.composed.lookup (first, second)
      let s := { s with composed := memo }
      match known with
      | some ef => .ok (ef, s)
      | none => do
        let (ef, s) ←
          if ← s.isConstant second then
            pure (second, s)
          else
            match ← s.constant? first with
            | some c => do
              let v ← s.eval second c
              pure (s.constant v)
            | none => do
              let f ← s.node first
              let g ← s.node second
              match foldCompose f g with
              | some k => pure (s.leaf (.custom k))
              | none =>
                match f with
                | .compose a b => do
                  let (tail, s) ← composeTo n s b second
                  composeTo n s a tail
                | _ => pure (s.intern (.compose first second))
        return (ef, { s with composed := s.composed.insert (first, second) ef })

/-- The function that applies `first`, then `second`. -/
def compose (s : EdgeStore L K) (first second : EdgeRef) : Except Fault (EdgeRef × EdgeStore L K) :=
  composeTo (s.height first + 1) s first second

/-! ## Join -/

/-- The client's join of two payload nodes, if both are payloads and it knows one. -/
def foldJoin (f g : EdgeNode L K) : Option K :=
  match f, g with
  | .custom f, .custom g => Payload.join? L f g
  | _, _ => none

/-- The seed of a join after an operand: constants and seeds of joins go into it. -/
def addSeed (seed : L) : EdgeNode L K → L
  | .constant c => JoinLattice.join seed c
  | .join seed' _ => JoinLattice.join seed seed'
  | _ => seed

/-- What an operand contributes to the parts of a join. -/
def partsOf (ef : EdgeRef) : EdgeNode L K → List EdgeRef
  | .constant _ => []
  | .join _ parts => parts
  | _ => [ef]

/-- Puts a handle in its place in an ascending list, unless it is there. -/
def insertPart (p : EdgeRef) : List EdgeRef → List EdgeRef
  | [] => [p]
  | q :: rest =>
    if p.index < q.index then p :: q :: rest
    else if p = q then q :: rest
    else q :: insertPart p rest

/-- The handles in ascending order, each once. -/
def sortParts (parts : List EdgeRef) : List EdgeRef := parts.foldr insertPart []

/-- The join of a seed and of sorted parts. -/
def makeJoin (s : EdgeStore L K) (seed : L) (parts : List EdgeRef) : EdgeRef × EdgeStore L K :=
  if isBottom seed then (.allBottom, s)
  else
    match parts with
    | [] => s.constant seed
    | p :: rest =>
      if rest.isEmpty && isTop seed then (p, s)
      else if s.joinLimit < parts.length then (.allBottom, s)
      else s.intern (.join seed parts)

/-- The join of two functions with `a` the lower handle, without the memo table. -/
def joinOrdered (s : EdgeStore L K) (a b : EdgeRef) : Except Fault (EdgeRef × EdgeStore L K) :=
  if a = .allTop then .ok (b, s)
  else if b = .allTop then .ok (a, s)
  else if a = .allBottom ∨ b = .allBottom then .ok (.allBottom, s)
  else do
    let f ← s.node a
    let g ← s.node b
    match foldJoin f g with
    | some k => return s.leaf (.custom k)
    | none =>
      let seed := addSeed (addSeed top f) g
      return s.makeJoin seed (sortParts (partsOf a f ++ partsOf b g))

/-- The two handles of a join, the lower one first. -/
def joinKey (a b : EdgeRef) : EdgeRef × EdgeRef := if a.index < b.index then (a, b) else (b, a)

/-- The pointwise join of two functions. -/
def join (s : EdgeStore L K) (a b : EdgeRef) : Except Fault (EdgeRef × EdgeStore L K) :=
  if a = b then .ok (a, s)
  else
    let key := joinKey a b
    let (known, memo) := s.joined.lookup key
    let s := { s with joined := memo }
    match known with
    | some ef => .ok (ef, s)
    | none => do
      let (ef, s) ← s.joinOrdered key.1 key.2
      return (ef, { s with joined := s.joined.insert key ef })

end EdgeStore

end Tabulation
