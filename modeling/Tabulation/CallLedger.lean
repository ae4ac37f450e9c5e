import Std.Data.TreeMap
import Std.Data.TreeSet
import Tabulation.Ident
import Tabulation.Fault
import Tabulation.EdgeStore.Node

/-!
# The ledger of calls

Whenever a fact flows into a callee, the call is recorded: at a call site, reached from a source
fact of the caller, a fact enters the callee, and an edge function leads from the caller's start
point to the callee's.

**Records.** Equal records are kept once, and keep their position until the ledger is cleared. Like
the handles of edge functions, positions are numbers of any size.

**Lists.** A record becomes visible when it is linked. `callsInto` lists the calls that wait for a
summary of a callee entered with a fact; `callsFrom` lists the calls along which a value at the
caller's start point is forwarded. The call that was linked last comes first.

**Links.** The lists run through the records: the tables know the position of the call that was
linked last, and each record that of the next one. Purging a callee only forgets where its lists of
waiting calls begin. A record is to be linked once; linking it again would let a list run in
circles.
-/

namespace Tabulation

/-- A fact that flows into a callee at a call site. -/
structure CallRecord where
  /-- From the start point of the caller to that of the callee. -/
  edge : EdgeRef
  /-- The fact with which the caller was entered. -/
  source : FactId
  callee : ProcId
  site : NodeId
  /-- The fact with which the callee is entered. -/
  entry : FactId
  deriving DecidableEq, Repr

namespace CallRecord

/-- All fields in order. -/
def fields (c : CallRecord) : EdgeRef × FactId × ProcId × NodeId × FactId :=
  (c.edge, c.source, c.callee, c.site, c.entry)

instance : Ord CallRecord := ⟨compareOn fields⟩

instance : Std.TransOrd CallRecord := inferInstanceAs (Std.TransCmp (compareOn fields))

instance : Std.LawfulEqOrd CallRecord where
  eq_of_compare {a b} h := by
    have h : compare a.fields b.fields = .eq := h
    have e := Std.LawfulEqOrd.eq_of_compare h
    cases a; cases b
    simp_all [fields]

/-- The key of the calls that wait for the same summaries. -/
def calleeKey (c : CallRecord) : UInt64 := pack c.entry.val c.callee.val

/-- The key of the calls that the same value is forwarded along. -/
def siteKey (c : CallRecord) : UInt64 := pack c.source.val c.site.val

end CallRecord

/-- A record with the positions of those that come after it in its two lists. -/
structure LedgerEntry where
  call : CallRecord
  /-- The next call that waits for the same summaries. -/
  nextInto : Option Nat
  /-- The next call that the same value is forwarded along. -/
  nextFrom : Option Nat
  deriving DecidableEq, Repr

/-- The calls of a run. -/
structure CallLedger where
  entries : Array LedgerEntry
  known : Std.TreeSet CallRecord
  /-- Where the lists of calls that wait for the same summaries begin. -/
  byCallee : Std.TreeMap UInt64 Nat
  /-- Where the lists of calls that the same value is forwarded along begin. -/
  bySite : Std.TreeMap UInt64 Nat

namespace CallLedger

/-- No calls. -/
def empty : CallLedger := ⟨#[], ∅, ∅, ∅⟩

instance : Inhabited CallLedger := ⟨empty⟩

/-- All records by position. -/
def records (t : CallLedger) : Array CallRecord := t.entries.map (·.call)

/-- The number of records. -/
def size (t : CallLedger) : Nat := t.entries.size

/-- Whether there are no records. -/
def isEmpty (t : CallLedger) : Bool := t.entries.isEmpty

/-- Records a call, and gives its position if it is new. It is not linked yet. -/
def insert (t : CallLedger) (c : CallRecord) : Option Nat × CallLedger :=
  if t.known.contains c then
    (none, t)
  else
    (some t.entries.size,
      { t with entries := t.entries.push ⟨c, none, none⟩, known := t.known.insert c })

/-- The record at a position. -/
def get (t : CallLedger) (i : Nat) : Except Fault CallRecord :=
  match t.entries[i]? with
  | some e => .ok e.call
  | none => .error (.indexOutOfBounds t.entries.size i)

/-- Lets a record wait for summaries and, if `forward`, receive values. It becomes the first of its
lists. -/
def link (t : CallLedger) (i : Nat) (forward : Bool) : Except Fault CallLedger := do
  let c ← t.get i
  let t := { t with
    entries := t.entries.modify i fun e => { e with nextInto := t.byCallee[c.calleeKey]? }
    byCallee := t.byCallee.insert c.calleeKey i }
  if forward then
    return { t with
      entries := t.entries.modify i fun e => { e with nextFrom := t.bySite[c.siteKey]? }
      bySite := t.bySite.insert c.siteKey i }
  else
    return t

/-- At most `n` calls at a position and after it. -/
def follow (entries : Array LedgerEntry) (next : LedgerEntry → Option Nat) :
    (n : Nat) → Option Nat → List CallRecord
  | 0, _ => []
  | _ + 1, none => []
  | n + 1, some i =>
    match entries[i]? with
    | some e => e.call :: follow entries next n (next e)
    | none => []

/-- The calls that enter a callee with a fact. A list has at most as many calls as the ledger. -/
def callsInto (t : CallLedger) (entry : FactId) (callee : ProcId) : List CallRecord :=
  follow t.entries (·.nextInto) t.size t.byCallee[pack entry.val callee.val]?

/-- The calls that leave a call site for a source fact. -/
def callsFrom (t : CallLedger) (source : FactId) (site : NodeId) : List CallRecord :=
  follow t.entries (·.nextFrom) t.size t.bySite[pack source.val site.val]?

/-- Forgets which calls wait for a callee, and tells how many lists there were. -/
def purgeCallee (t : CallLedger) (callee : ProcId) : Nat × CallLedger :=
  let byCallee := t.byCallee.filter fun key _ => (unpack key).2 ≠ callee.val
  (t.byCallee.size - byCallee.size, { t with byCallee })

/-- Forgets which calls wait for any callee. -/
def clearByCallee (t : CallLedger) : CallLedger := { t with byCallee := ∅ }

/-- Forgets all calls. -/
def clear (_ : CallLedger) : CallLedger := empty

/-- The edge functions of all records, in order. -/
def edgeRefs (t : CallLedger) : List EdgeRef := t.entries.toList.map (·.call.edge)

end CallLedger

end Tabulation
