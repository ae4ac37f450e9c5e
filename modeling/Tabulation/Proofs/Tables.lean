import Tabulation.PathTable
import Tabulation.Proofs.BitSet
import Tabulation.Proofs.Maps
import Tabulation.Worklist

/-!
# The tables of a run

Look-up lemmas for the tables of path edges and summaries and for the queues: what each
operation changes, and that it changes nothing else.
-/

namespace Tabulation

theorem NodeId.index_inj {n m : NodeId} : n.index = m.index ↔ n = m := by
  cases n; cases m
  simp [NodeId.index, UInt32.toNat_inj]

theorem ProcId.index_inj {p q : ProcId} : p.index = q.index ↔ p = q := by
  cases p; cases q
  simp [ProcId.index, UInt32.toNat_inj]

/-! ## Path edges -/

namespace PathTable

variable {t : PathTable} {n m : NodeId} {a b a' b' : FactId} {ef : EdgeRef}

theorem get?_eq_some : t.get? n a b = some ef ↔
    ∃ row : PathRow, t.rows[n.index]? = some row ∧ row[factPair a b]? = some ef := by
  simp [get?, row?, Option.bind_eq_some_iff]

/-- The row of a node after rows were added. -/
theorem row?_extend : ((t.extend n).row? m).getD ∅ = (t.row? m).getD ∅ := by
  simp only [extend, row?, Array.getElem?_append, Array.getElem?_replicate]
  split
  · rfl
  · rw [Array.getElem?_eq_none (by omega)]
    split <;> rfl

theorem get?_eq_getD : t.get? n a b = ((t.row? n).getD ∅)[factPair a b]? := by
  unfold get?
  cases t.row? n <;> simp

theorem get?_insert : (t.insert n a b ef).2.get? m a' b' =
    if n = m ∧ a = a' ∧ b = b' then some ef else t.get? m a' b' := by
  have hsize : n.index < (t.extend n).rows.size := by
    simp [extend]
    omega
  rw [get?_eq_getD, get?_eq_getD, ← @row?_extend t n m]
  simp only [insert, row?, Array.getElem?_modify, NodeId.index_inj]
  by_cases hn : n = m
  · subst hn
    simp only [if_true, true_and, Array.getElem?_eq_getElem hsize, Option.map_some,
      Option.getD_some, getElem?_insert_eq, factPair_inj]
  · simp [hn]

theorem get?_clearNode : (t.clearNode n).2.get? m a b =
    if n = m then none else t.get? m a b := by
  rw [get?_eq_getD, get?_eq_getD]
  simp only [clearNode, row?, Array.getElem?_modify, NodeId.index_inj]
  split
  · cases t.rows[m.index]? <;> simp
  · rfl

theorem mem_entries : (a, b, ef) ∈ t.entries n ↔ t.get? n a b = some ef := by
  rw [get?_eq_getD, ← Std.TreeMap.mem_toList_iff_getElem?_eq_some]
  simp only [entries, List.mem_map, Prod.exists, unpackFacts, Prod.mk.injEq]
  constructor
  · rintro ⟨key, e, hmem, rfl, rfl, rfl⟩
    simpa [factPair] using hmem
  · intro hmem
    exact ⟨_, ef, hmem, by simp [factPair], by simp [factPair], rfl⟩

theorem mem_targetsOf : (b, ef) ∈ t.targetsOf n a ↔ t.get? n a b = some ef := by
  simp only [targetsOf, List.mem_map, List.mem_filter, Prod.exists, Prod.mk.injEq,
    decide_eq_true_eq]
  rw [← mem_entries]
  constructor
  · rintro ⟨_, _, _, ⟨hmem, rfl⟩, rfl, rfl⟩
    exact hmem
  · exact fun hmem => ⟨a, b, ef, ⟨hmem, rfl⟩, rfl, rfl⟩

theorem mem_edgeRefs (h : t.get? n a b = some ef) : ef ∈ t.edgeRefs := by
  obtain ⟨row, hrow, hef⟩ := get?_eq_some.1 h
  refine List.mem_flatMap.2 ⟨row, ?_, mem_values.2 ⟨_, hef⟩⟩
  exact List.mem_of_getElem? (by simpa using hrow)

/-- Every row belongs to a node. -/
def Wf (t : PathTable) : Prop := t.rows.size ≤ UInt32.size

theorem Wf.insert (h : t.Wf) : (t.insert n a b ef).2.Wf := by
  have hn : n.index < UInt32.size := n.val.toNat_lt
  simp only [Wf, PathTable.insert, extend, Array.size_modify, Array.size_append,
    Array.size_replicate] at h ⊢
  omega

theorem Wf.clearNode (h : t.Wf) : (t.clearNode n).2.Wf := by
  simpa only [Wf, PathTable.clearNode, Array.size_modify] using h

theorem exists_of_mem_edgeRefs (h : t.Wf) (hef : ef ∈ t.edgeRefs) :
    ∃ n a b, t.get? n a b = some ef := by
  obtain ⟨row, hrow, hef⟩ := List.mem_flatMap.1 hef
  obtain ⟨i, hi⟩ := List.mem_iff_getElem?.1 hrow
  obtain ⟨key, hkey⟩ := mem_values.1 hef
  rw [Array.getElem?_toList] at hi
  have hlt : i < UInt32.size := Nat.lt_of_lt_of_le (Array.getElem?_eq_some_iff.1 hi).1 h
  refine ⟨⟨UInt32.ofNat i⟩, (unpackFacts key).1, (unpackFacts key).2, get?_eq_some.2 ⟨row, ?_, ?_⟩⟩
  · rw [NodeId.index, UInt32.toNat_ofNat_of_lt' hlt]
    exact hi
  · simpa [factPair, unpackFacts] using hkey

theorem get?_empty : empty.get? n a b = none := by simp [empty, get?, row?]

/-! ### How many path edges there are -/

theorem sum_map_modify {α : Type} (g : α → Nat) (f : α → α) {l : List α} {i : Nat} {x : α}
    (h : l[i]? = some x) : ((l.modify i f).map g).sum + g x = (l.map g).sum + g (f x) := by
  induction l generalizing i with
  | nil => cases h
  | cons y l ih =>
    cases i with
    | zero =>
      obtain rfl := Option.some.inj h
      simp only [List.modify_zero_cons, List.map_cons, List.sum_cons]
      omega
    | succ i =>
      have := ih (i := i) (by simpa using h)
      simp only [List.modify_succ_cons, List.map_cons, List.sum_cons]
      omega

theorem size_eq : t.size = (t.rows.toList.map (·.size)).sum := by
  rw [size, ← Array.foldl_toList, List.sum_eq_foldl, List.foldl_map]

theorem size_extend : (t.extend n).size = t.size := by
  rw [size_eq, size_eq]
  simp [extend]

theorem size_insert : (t.insert n a b ef).2.size =
    if (t.get? n a b).isNone then t.size + 1 else t.size := by
  have hsize : n.index < (t.extend n).rows.size := by
    simp [extend]
    omega
  have hrow : (t.extend n).rows.toList[n.index]? = some ((t.row? n).getD ∅) := by
    rw [← row?_extend (n := n), Array.getElem?_toList, row?, Array.getElem?_eq_getElem hsize]
    rfl
  have hsum := sum_map_modify (fun row : PathRow => row.size)
    (fun row => row.insert (factPair a b) ef) hrow
  rw [size_eq, insert, Array.toList_modify]
  rw [← size_eq, size_extend, Std.TreeMap.size_insert] at hsum
  rw [get?_eq_getD]
  cases hmem : ((t.row? n).getD ∅).contains (factPair a b) with
  | true =>
    rw [if_neg (by simpa using hmem)]
    rw [hmem, if_pos rfl] at hsum
    omega
  | false =>
    have hnot : factPair a b ∉ (t.row? n).getD ∅ := by
      rw [Std.TreeMap.mem_iff_contains, hmem]
      decide
    rw [if_pos (by simpa using hnot)]
    rw [hmem, if_neg (by decide)] at hsum
    omega

/-- Dropping path edges at a node takes off as many as there were. -/
theorem size_clearNode : (t.clearNode n).2.size + (t.clearNode n).1 = t.size := by
  rw [size_eq, size_eq, clearNode, Array.toList_modify]
  cases hrow : t.row? n with
  | none =>
    have hlen : t.rows.toList.length ≤ n.index := by
      simpa using Array.getElem?_eq_none_iff.1 hrow
    rw [List.modify_eq_self hlen]
    rfl
  | some row =>
    have hsum := sum_map_modify (fun row : PathRow => row.size) (fun _ => ∅)
      (l := t.rows.toList) (i := n.index) (x := row) (by rw [Array.getElem?_toList]; exact hrow)
    simpa using hsum

end PathTable

/-! ## Summaries -/

namespace SummaryTable

variable {t : SummaryTable} {p q : ProcId} {e e' : FactId} {x x' : NodeId} {d d' : FactId}
  {ef : EdgeRef}

theorem get?_insert : (t.insert p e x d ef).2.get? q e' x' d' =
    if p = q ∧ e = e' ∧ x = x' ∧ d = d' then some ef else t.get? q e' x' d' := by
  have hkey : pack p.val e.val = pack q.val e'.val ↔ p = q ∧ e = e' := by
    cases p; cases q; cases e; cases e'
    simp [pack_inj]
  have hkey' : pack x.val d.val = pack x'.val d'.val ↔ x = x' ∧ d = d' := by
    cases x; cases x'; cases d; cases d'
    simp [pack_inj]
  simp only [get?, insert, table, getD_eq, getElem?_insert_eq, hkey]
  by_cases h : p = q ∧ e = e'
  · obtain ⟨rfl, rfl⟩ := h
    simp [getElem?_insert_eq, hkey']
  · rw [if_neg h, if_neg (fun hall => h ⟨hall.1, hall.2.1⟩)]

theorem mem_leaving : (d, ef) ∈ t.leaving p e x ↔ t.get? p e x d = some ef := by
  rw [get?, ← Std.TreeMap.mem_toList_iff_getElem?_eq_some]
  simp only [leaving, List.mem_filterMap, Prod.exists]
  constructor
  · rintro ⟨key, ef', hmem, h⟩
    split at h
    · next hx =>
      obtain ⟨rfl, rfl⟩ := Prod.mk.inj (Option.some.inj h)
      rw [← hx, pack_unpack]
      exact hmem
    · cases h
  · intro hmem
    exact ⟨_, ef, hmem, by simp⟩

theorem mem_edgeRefs (h : t.get? p e x d = some ef) : ef ∈ t.edgeRefs := by
  unfold get? table at h
  rw [getD_eq] at h
  cases htable : t.tables[pack p.val e.val]? with
  | none => simp [htable] at h
  | some table =>
    rw [htable, Option.getD_some] at h
    exact List.mem_flatMap.2 ⟨table, mem_values.2 ⟨_, htable⟩, mem_values.2 ⟨_, h⟩⟩

theorem exists_of_mem_edgeRefs (hef : ef ∈ t.edgeRefs) : ∃ p e x d, t.get? p e x d = some ef := by
  obtain ⟨table, htable, hef⟩ := List.mem_flatMap.1 hef
  obtain ⟨key, hkey⟩ := mem_values.1 htable
  obtain ⟨key', hkey'⟩ := mem_values.1 hef
  refine ⟨⟨(unpack key).1⟩, ⟨(unpack key).2⟩, ⟨(unpack key').1⟩, ⟨(unpack key').2⟩, ?_⟩
  rw [get?, SummaryTable.table, pack_unpack, pack_unpack, getD_eq, hkey]
  exact hkey'

theorem get?_empty : empty.get? p e x d = none := by simp [empty, get?, table, getD_eq]

end SummaryTable

/-! ## Queues -/

theorem Worklist.pop?_perm {α : Type} {w w' : Worklist α} {a : α} (h : w.pop? = some (a, w')) :
    w.toList.Perm (a :: w'.toList) := by
  unfold pop? at h
  split at h
  · rw [toList_popNewest h]
    exact List.perm_append_comm
  · rw [toList_popOldest h]

theorem Worklist.toList_pushAll {α : Type} (w : Worklist α) (l : List α) :
    (l.foldl push w).toList = w.toList ++ l := by
  induction l generalizing w with
  | nil => simp
  | cons a l ih => simp [ih]

theorem CallQueue.mem_insert {q : CallQueue} {k k' : UInt64} :
    k' ∈ (q.insert k).2.keys ↔ k' = k ∨ k' ∈ q.keys := by
  unfold insert
  split
  · next h =>
    rw [Array.contains_iff_mem] at h
    grind
  · simp [or_comm]

end Tabulation
