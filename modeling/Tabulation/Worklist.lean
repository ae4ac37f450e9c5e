/-!
# Queues of pending work

**`Worklist`.** Items are taken either newest first or oldest first. The queue is a pair of lists,
so that both ends are cheap; `toList` is its content, oldest first. The high watermark is the
greatest length the queue ever had; taking items and emptying the queue leave it as it is.

**`CallQueue`.** Keys in the order of their first insertion, each at most once until the queue is
taken.

Main statements: `toList_push`, `toList_popOldest` and `toList_popNewest` say what each operation
does to the content.
-/

namespace Tabulation

/-- The order in which pending items are taken. -/
inductive QueueOrder where
  /-- Newest item first. -/
  | lifo
  /-- Oldest item first. -/
  | fifo
  deriving DecidableEq, Repr

/-- A queue of pending items. -/
structure Worklist (α : Type) where
  order : QueueOrder
  /-- The older items, oldest first. -/
  front : List α
  /-- The younger items, newest first. -/
  back : List α
  size : Nat
  highWatermark : Nat

namespace Worklist

variable {α : Type}

/-- The queue without items. -/
def empty (order : QueueOrder) : Worklist α := ⟨order, [], [], 0, 0⟩

/-- The items, oldest first. -/
def toList (w : Worklist α) : List α := w.front ++ w.back.reverse

/-- Whether there are no items. -/
def isEmpty (w : Worklist α) : Bool := w.front.isEmpty && w.back.isEmpty

/-- Adds an item. -/
def push (w : Worklist α) (a : α) : Worklist α :=
  { w with
    back := a :: w.back
    size := w.size + 1
    highWatermark := max w.highWatermark (w.size + 1) }

/-- Takes the newest item. -/
def popNewest (w : Worklist α) : Option (α × Worklist α) :=
  match w.back with
  | a :: back => some (a, { w with back, size := w.size - 1 })
  | [] =>
    match w.front.reverse with
    | a :: back => some (a, { w with front := [], back, size := w.size - 1 })
    | [] => none

/-- Takes the oldest item. -/
def popOldest (w : Worklist α) : Option (α × Worklist α) :=
  match w.front with
  | a :: front => some (a, { w with front, size := w.size - 1 })
  | [] =>
    match w.back.reverse with
    | a :: front => some (a, { w with front, back := [], size := w.size - 1 })
    | [] => none

/-- Takes the next item in the order of the queue. -/
def pop? (w : Worklist α) : Option (α × Worklist α) :=
  match w.order with
  | .lifo => w.popNewest
  | .fifo => w.popOldest

/-- Drops all items. -/
def clear (w : Worklist α) : Worklist α := { w with front := [], back := [], size := 0 }

@[simp] theorem toList_empty (order : QueueOrder) : (empty order : Worklist α).toList = [] := rfl

@[simp] theorem toList_push (w : Worklist α) (a : α) : (w.push a).toList = w.toList ++ [a] := by
  simp [toList, push]

@[simp] theorem toList_clear (w : Worklist α) : w.clear.toList = [] := rfl

@[simp] theorem isEmpty_iff (w : Worklist α) : w.isEmpty = true ↔ w.toList = [] := by
  simp [isEmpty, toList]

theorem toList_popNewest {w w' : Worklist α} {a : α} (h : w.popNewest = some (a, w')) :
    w.toList = w'.toList ++ [a] := by
  unfold popNewest at h
  split at h
  · simp only [Option.some.injEq, Prod.mk.injEq] at h
    obtain ⟨rfl, rfl⟩ := h
    simp_all [toList]
  · split at h
    · simp only [Option.some.injEq, Prod.mk.injEq] at h
      obtain ⟨rfl, rfl⟩ := h
      simp_all [toList]
    · cases h

theorem toList_popOldest {w w' : Worklist α} {a : α} (h : w.popOldest = some (a, w')) :
    w.toList = a :: w'.toList := by
  unfold popOldest at h
  split at h
  · simp only [Option.some.injEq, Prod.mk.injEq] at h
    obtain ⟨rfl, rfl⟩ := h
    simp_all [toList]
  · split at h
    · simp only [Option.some.injEq, Prod.mk.injEq] at h
      obtain ⟨rfl, rfl⟩ := h
      simp_all [toList]
    · cases h

theorem pop?_eq_none_iff (w : Worklist α) : w.pop? = none ↔ w.toList = [] := by
  unfold pop? popNewest popOldest toList
  cases w.order <;> cases hf : w.front <;> cases hb : w.back <;> simp <;> split <;> simp_all

end Worklist

/-! ## The queue of calls to look at again -/

/-- Keys in the order of their first insertion. -/
structure CallQueue where
  keys : Array UInt64
  highWatermark : Nat

namespace CallQueue

/-- The queue without keys. -/
def empty : CallQueue := ⟨#[], 0⟩

/-- The number of keys. -/
def size (q : CallQueue) : Nat := q.keys.size

/-- Whether there are no keys. -/
def isEmpty (q : CallQueue) : Bool := q.keys.isEmpty

/-- Adds a key unless it is already waiting. The flag tells whether it was added. -/
def insert (q : CallQueue) (key : UInt64) : Bool × CallQueue :=
  if q.keys.contains key then
    (false, q)
  else
    (true, ⟨q.keys.push key, max q.highWatermark (q.keys.size + 1)⟩)

/-- All keys, and the queue without them. -/
def take (q : CallQueue) : List UInt64 × CallQueue := (q.keys.toList, { q with keys := #[] })

/-- Drops all keys. -/
def clear (q : CallQueue) : CallQueue := { q with keys := #[] }

end CallQueue

end Tabulation
