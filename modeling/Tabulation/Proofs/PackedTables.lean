import Tabulation.Proofs.Listings
import Tabulation.Proofs.Tables

/-!
# Tables under packed keys

The tables of path edges and of summaries are the maps that their histories describe, whatever
numbers the keys are made of. Packing two numbers into one key is a bijection, so the entries of a
table can be listed under unpacked keys without confusing any, and all queries read this one
listing.

**Summaries.** The function of a summary is the one that was inserted last for it, `lastFor`.

**Path edges.** A table is compared with a partial function that is changed along with it,
`Op.onMap`. Rows are found by the numbers of nodes. A table never has more rows than there are
numbers, `Wf`, so every row belongs to one node.
-/

namespace Tabulation

/-! ## Packing as a bijection -/

/-- A key stands for a pair of facts. -/
def factPairs : UInt64 ≃ FactId × FactId where
  toFun := unpackFacts
  invFun facts := factPair facts.1 facts.2
  left_inv key := by simp [unpackFacts, factPair]
  right_inv facts := unpackFacts_factPair facts.1 facts.2

/-- A key stands for a procedure and the fact that enters it. -/
def entryKeys : UInt64 ≃ ProcId × FactId where
  toFun key := (⟨(unpack key).1⟩, ⟨(unpack key).2⟩)
  invFun entry := pack entry.1.val entry.2.val
  left_inv := pack_unpack
  right_inv entry := by simp

/-- A key stands for an exit point and the fact that leaves through it. -/
def exitKeys : UInt64 ≃ NodeId × FactId where
  toFun key := (⟨(unpack key).1⟩, ⟨(unpack key).2⟩)
  invFun exit := pack exit.1.val exit.2.val
  left_inv := pack_unpack
  right_inv exit := by simp

/-! ## Summaries -/

namespace SummaryTable

/-- A summary: the procedure and the fact that enters it, the exit point and the fact that
leaves. -/
abbrev Key := (ProcId × FactId) × NodeId × FactId

/-- The table that insertions lead to. -/
def ofInsertions (ins : List (Key × EdgeRef)) : SummaryTable :=
  ins.foldl (fun t (((p, entry), exit, fact), ef) => (t.insert p entry exit fact ef).2) empty

/-- The function that was inserted last under a key. -/
def lastFor (ins : List (Key × EdgeRef)) (key : Key) : Option EdgeRef :=
  ((ins.filter fun x => x.1 = key).map Prod.snd).getLast?

theorem lastFor_concat (ins : List (Key × EdgeRef)) (x : Key × EdgeRef) (key : Key) :
    lastFor (ins ++ [x]) key = if x.1 = key then some x.2 else lastFor ins key := by
  rw [lastFor, List.filter_append, List.filter_singleton]
  split
  · next h => simp [h]
  · next h => simp [h, lastFor]

theorem lastFor_isSome {ins : List (Key × EdgeRef)} {key : Key} :
    (lastFor ins key).isSome ↔ key ∈ ins.map Prod.fst := by
  simp [lastFor]

theorem get?_ofInsertions (ins : List (Key × EdgeRef)) (p : ProcId) (entry : FactId) (exit : NodeId)
    (fact : FactId) :
    (ofInsertions ins).get? p entry exit fact = lastFor ins ((p, entry), exit, fact) := by
  induction ins using List.reverseRecOn with
  | nil => exact get?_empty
  | append_singleton ins x ih =>
    obtain ⟨⟨⟨p', entry'⟩, exit', fact'⟩, ef⟩ := x
    rw [ofInsertions, List.foldl_append, List.foldl_cons, List.foldl_nil, get?_insert,
      ← ofInsertions, ih, lastFor_concat]
    simp only [Prod.mk.injEq, and_assoc]

variable (t : SummaryTable)

/-- The summaries of one entry under unpacked keys. -/
theorem lists_row (row : Std.TreeMap UInt64 EdgeRef) :
    Lists (row.toList.map fun (key, ef) => (exitKeys key, ef))
      fun exit => row[exitKeys.symm exit]? :=
  (lists_toList row).rename exitKeys

/-- All summaries under unpacked keys. -/
def listing : List (Key × EdgeRef) :=
  (t.tables.toList.map fun (key, row) => (entryKeys key, row)).flatMap fun (entry, row) =>
    (row.toList.map fun (key, ef) => (exitKeys key, ef)).map fun (exit, ef) => ((entry, exit), ef)

theorem get?_eq_bind {p : ProcId} {entry : FactId} {exit : NodeId} {fact : FactId} :
    t.get? p entry exit fact = (t.tables[entryKeys.symm (p, entry)]?).bind
      fun row => row[exitKeys.symm (exit, fact)]? := by
  rw [get?, table, getD_eq]
  change ((t.tables[entryKeys.symm (p, entry)]?).getD ∅)[exitKeys.symm (exit, fact)]? = _
  cases t.tables[entryKeys.symm (p, entry)]? <;> simp

theorem lists_listing :
    Lists t.listing fun ((p, entry), exit, fact) => t.get? p entry exit fact :=
  (((lists_toList t.tables).rename entryKeys).nest lists_row).congr
    fun ((_, _), _, _) => t.get?_eq_bind.symm

theorem edgeRefs_eq_map : t.edgeRefs = t.listing.map Prod.snd := by
  rw [edgeRefs, listing, values_eq_map, List.flatMap_map, List.flatMap_map, List.map_flatMap]
  refine List.flatMap_congr fun (_, row) _ => ?_
  rw [values_eq_map, List.map_map, List.map_map]
  rfl

theorem length_listing : t.listing.length = t.size := by
  rw [← List.length_map (f := Prod.snd), ← edgeRefs_eq_map, edgeRefs, List.length_flatMap, size,
    List.sum_eq_foldl, List.foldl_map]
  simp only [values_eq_map, List.length_map, Std.TreeMap.length_toList]

theorem lists_leaving (p : ProcId) (entry : FactId) (exit : NodeId) :
    Lists (t.leaving p entry exit) fun fact => t.get? p entry exit fact := by
  have hrow := (lists_row (t.table p entry)).fiber exit
  rw [List.filterMap_map] at hrow
  have hsame : ∀ x : UInt64 × EdgeRef,
      (if (unpack x.1).1 = exit.val then some ((⟨(unpack x.1).2⟩ : FactId), x.2) else none) =
        if (exitKeys x.1).1 = exit then some ((exitKeys x.1).2, x.2) else none := fun x => by
    cases exit
    simp [exitKeys]
  rw [leaving, List.filterMap_congr fun x _ => hsame x]
  exact hrow

end SummaryTable

/-! ## Path edges -/

namespace PathTable

/-- A path edge: its node, its source and its target. -/
abbrev Key := NodeId × FactId × FactId

/-- What is done to a table of path edges. -/
inductive Op where
  | insert (n : NodeId) (source target : FactId) (ef : EdgeRef)
  | clearNode (n : NodeId)
  | clear
  deriving DecidableEq, Repr

/-- What an operation answers. -/
inductive Reply where
  | previous (ef : Option EdgeRef)
  | dropped (count : Nat)
  | done
  deriving DecidableEq, Repr

/-- What an operation does to a table. -/
def apply (t : PathTable) : Op → Reply × PathTable
  | .insert n source target ef =>
    let (old, t) := t.insert n source target ef
    (.previous old, t)
  | .clearNode n =>
    let (count, t) := t.clearNode n
    (.dropped count, t)
  | .clear => (.done, t.clear)

/-- What an operation does to a partial function. -/
noncomputable def Op.onMap (m : Key → Option EdgeRef) : Op → Reply × (Key → Option EdgeRef)
  | .insert n source target ef =>
    (.previous (m (n, source, target)), Function.update m (n, source, target) (some ef))
  | .clearNode n =>
    (.dropped {facts | (m (n, facts)).isSome}.ncard, fun key => if key.1 = n then none else m key)
  | .clear => (.done, fun _ => none)

/-- The replies to a history of operations and its outcome. -/
def replay {τ : Type} (step : τ → Op → Reply × τ) (start : τ) (ops : List Op) : List Reply × τ :=
  ops.foldl (fun (replies, x) op => (replies ++ [(step x op).1], (step x op).2)) ([], start)

/-- The table has the path edges of the map, and all its rows belong to nodes. -/
structure Tracks (t : PathTable) (m : Key → Option EdgeRef) : Prop where
  wf : t.Wf
  get? : ∀ n source target, t.get? n source target = m (n, source, target)

/-- All queries of the table read the map. -/
structure ReadsAs (t : PathTable) (m : Key → Option EdgeRef) : Prop where
  get? : ∀ n source target, t.get? n source target = m (n, source, target)
  entries : ∀ n, Lists ((t.entries n).map fun (source, target, ef) => ((source, target), ef))
    fun facts => m (n, facts)
  targetsOf : ∀ n source, Lists (t.targetsOf n source) fun target => m (n, source, target)
  edgeRefs : ∃ l, Lists l m ∧ t.edgeRefs = l.map Prod.snd
  size : t.size = {key | (m key).isSome}.ncard

section Queries

variable (t : PathTable)

theorem entries_eq (n : NodeId) :
    (t.entries n).map (fun (source, target, ef) => ((source, target), ef)) =
      ((t.row? n).getD ∅).toList.map fun (key, ef) => (factPairs key, ef) := by
  rw [entries, List.map_map]
  rfl

theorem lists_entries (n : NodeId) :
    Lists ((t.entries n).map fun (source, target, ef) => ((source, target), ef))
      fun (source, target) => t.get? n source target := by
  rw [entries_eq]
  exact ((lists_toList _).rename factPairs).congr fun (_, _) => get?_eq_getD.symm

theorem lists_targetsOf (n : NodeId) (source : FactId) :
    Lists (t.targetsOf n source) fun target => t.get? n source target := by
  have hfiber := (t.lists_entries n).fiber source
  rw [List.filterMap_map] at hfiber
  have hsame : t.targetsOf n source = (t.entries n).filterMap
      fun (s, target, ef) => if s = source then some (target, ef) else none := by
    rw [targetsOf, ← List.filterMap_eq_map, List.filterMap_filter]
    simp
  rw [hsame]
  exact hfiber

/-- The rows by the nodes that they belong to. -/
theorem lists_rows (h : t.Wf) :
    Lists (t.rows.toList.zipIdx.map fun (row, i) => (NodeId.mk (UInt32.ofNat i), row))
      fun n => t.row? n := by
  have hindex : ∀ i < t.rows.size, (NodeId.mk (UInt32.ofNat i)).index = i := fun i hi =>
    UInt32.toNat_ofNat_of_lt' (Nat.lt_of_lt_of_le hi h)
  refine ⟨?_, fun n row => ?_⟩
  · rw [List.map_map]
    change (t.rows.toList.zipIdx.map ((fun i => NodeId.mk (UInt32.ofNat i)) ∘ Prod.snd)).Nodup
    rw [← List.map_map, List.zipIdx_map_snd]
    refine List.Nodup.map_on (fun i hi j hj heq => ?_) List.nodup_range'
    rw [List.mem_range'_1, Nat.zero_add, Array.length_toList] at hi hj
    rw [← hindex i hi.2, heq, hindex j hj.2]
  · simp only [List.mem_map, Prod.exists, List.mem_zipIdx_iff_getElem?, Array.getElem?_toList,
      Prod.mk.injEq, row?]
    constructor
    · rintro ⟨row, i, hrow, rfl, rfl⟩
      rw [hindex i (Array.getElem?_eq_some_iff.1 hrow).1]
      exact hrow
    · exact fun hrow => ⟨row, n.index, hrow, by simp [NodeId.index], rfl⟩

/-- All path edges under unpacked keys. -/
def listing : List (Key × EdgeRef) :=
  (t.rows.toList.zipIdx.map fun (row, i) => (NodeId.mk (UInt32.ofNat i), row)).flatMap
    fun (n, row) => (row.toList.map fun (key, ef) => (factPairs key, ef)).map
      fun (facts, ef) => ((n, facts), ef)

theorem lists_listing (h : t.Wf) :
    Lists t.listing fun (n, source, target) => t.get? n source target :=
  (t.lists_rows h).nest fun row => (lists_toList row).rename factPairs

theorem edgeRefs_eq_map : t.edgeRefs = t.listing.map Prod.snd := by
  rw [edgeRefs, listing, List.flatMap_map, List.map_flatMap]
  conv_lhs => rw [← List.zipIdx_map_fst 0 t.rows.toList, List.flatMap_map]
  refine List.flatMap_congr fun (row, _) _ => ?_
  rw [values_eq_map, List.map_map, List.map_map]
  rfl

theorem length_listing : t.listing.length = t.size := by
  rw [← List.length_map (f := Prod.snd), ← edgeRefs_eq_map, edgeRefs, List.length_flatMap, size_eq]
  simp only [values_eq_map, List.length_map, Std.TreeMap.length_toList]

theorem clearNode_fst (n : NodeId) : (t.clearNode n).1 = (t.entries n).length := by
  rw [clearNode, entries, List.length_map, Std.TreeMap.length_toList]
  cases t.row? n <;> rfl

end Queries

variable {t : PathTable} {m : Key → Option EdgeRef}

theorem Tracks.readsAs (h : t.Tracks m) : t.ReadsAs m := by
  have hlisting : Lists t.listing m := (t.lists_listing h.wf).congr fun (_, _, _) => h.get? ..
  refine ⟨h.get?, fun n => ?_, fun n source => ?_, ⟨t.listing, hlisting, t.edgeRefs_eq_map⟩, ?_⟩
  · exact (t.lists_entries n).congr fun (_, _) => h.get? ..
  · exact (t.lists_targetsOf n source).congr fun _ => h.get? ..
  · rw [← length_listing, hlisting.length_eq]

theorem tracks_empty : empty.Tracks fun _ => none where
  wf := by simp [Wf, empty]
  get? _ _ _ := get?_empty

/-- One operation. -/
theorem Tracks.apply (h : t.Tracks m) (op : Op) :
    (t.apply op).1 = (op.onMap m).1 ∧ (t.apply op).2.Tracks (op.onMap m).2 := by
  cases op with
  | insert n source target ef =>
    refine ⟨congrArg Reply.previous (h.get? ..), h.wf.insert, fun n' source' target' => ?_⟩
    change (t.insert n source target ef).2.get? n' source' target' =
      Function.update m (n, source, target) (some ef) (n', source', target')
    rw [get?_insert, Function.update_apply, h.get?]
    simp only [Prod.mk.injEq, eq_comm]
  | clearNode n =>
    refine ⟨congrArg Reply.dropped ?_, h.wf.clearNode, fun n' source' target' => ?_⟩
    · have hentries := (h.readsAs.entries n).length_eq
      rw [List.length_map] at hentries
      exact (t.clearNode_fst n).trans hentries
    · change (t.clearNode n).2.get? n' source' target' = if n' = n then none else _
      rw [get?_clearNode, h.get?]
      simp only [eq_comm]
  | clear => exact ⟨rfl, tracks_empty⟩

/-- A history of operations. -/
theorem tracks_replay (ops : List Op) :
    (replay apply empty ops).1 = (replay (fun m op => op.onMap m) (fun _ => none) ops).1 ∧
      (replay apply empty ops).2.Tracks
        (replay (fun m op => op.onMap m) (fun _ => none) ops).2 := by
  induction ops using List.reverseRecOn with
  | nil => exact ⟨rfl, tracks_empty⟩
  | append_singleton ops op ih =>
    obtain ⟨hreplies, htracks⟩ := ih
    obtain ⟨hreply, hnext⟩ := htracks.apply op
    simp only [replay, List.foldl_append, List.foldl_cons, List.foldl_nil]
    exact ⟨congrArg₂ (fun replies reply => replies ++ [reply]) hreplies hreply, hnext⟩

end PathTable

/-- **Packed tables are faithful maps.** After any insertions, the table of summaries has for each
key the function inserted last, and after any operations the table of path edges reads as the
partial function that these operations lead to. -/
theorem packed_tables_faithful :
    (∀ ins : List (SummaryTable.Key × EdgeRef), ∃ t, SummaryTable.ofInsertions ins = t ∧
      (∀ p entry exit fact,
        t.get? p entry exit fact = SummaryTable.lastFor ins ((p, entry), exit, fact)) ∧
      (∀ p entry exit, Lists (t.leaving p entry exit) fun fact =>
        SummaryTable.lastFor ins ((p, entry), exit, fact)) ∧
      (∃ l, Lists l (SummaryTable.lastFor ins) ∧ t.edgeRefs = l.map Prod.snd) ∧
      t.size = (ins.map Prod.fst).toFinset.card) ∧
    ∀ ops : List PathTable.Op, ∃ replies t m,
      PathTable.replay PathTable.apply .empty ops = (replies, t) ∧
      PathTable.replay (fun m op => op.onMap m) (fun _ => none) ops = (replies, m) ∧
      t.ReadsAs m := by
  refine ⟨fun ins => ?_, fun ops => ?_⟩
  · have hget := SummaryTable.get?_ofInsertions ins
    have hlisting : Lists (SummaryTable.ofInsertions ins).listing (SummaryTable.lastFor ins) :=
      (SummaryTable.lists_listing _).congr fun ((_, _), _, _) => hget ..
    refine ⟨_, rfl, hget, fun p entry exit => ?_, ⟨_, hlisting, SummaryTable.edgeRefs_eq_map _⟩, ?_⟩
    · exact (SummaryTable.lists_leaving _ p entry exit).congr fun _ => hget ..
    · rw [← SummaryTable.length_listing, hlisting.length_eq, ← Set.ncard_coe_finset]
      congr 1
      ext key
      simp [SummaryTable.lastFor_isSome]
  · obtain ⟨hreplies, htracks⟩ := PathTable.tracks_replay ops
    exact ⟨_, _, _, rfl, Prod.ext hreplies.symm rfl, htracks.readsAs⟩

end Tabulation
