import Tabulation.Proofs.Interner
import Tabulation.Proofs.Maps
import Tabulation.Proofs.Program
import Tabulation.Results

/-!
# Values as they were written

The codes of a table do not show through: what is read is what was written last. A table is seen as
a partial function `find?` from nodes and facts to values, and `set_spec` says what writing does to
it. For this the code has to be lawful, as `Verbatim` and interning are.

Results are a table under names: `mem_entries` and `valueAt_cases` say what their lists and look-ups
show.
-/

namespace Tabulation

/-- Decoding gives back what was encoded, also when more is encoded later. -/
class LawfulCode (σ L : Type) [ValueCode σ L] where
  /-- The states that encoding leads to. -/
  Valid : σ → Prop
  valid_empty : Valid (ValueCode.empty L)
  encode_spec {s s' : σ} {v : L} {c : ValueCode.Code σ L} : Valid s →
    ValueCode.encode s v = .ok (c, s') → Valid s' ∧ ValueCode.decode s' c = some v ∧
      ∀ (c' : ValueCode.Code σ L) (w : L), ValueCode.decode s c' = some w →
        ValueCode.decode s' c' = some w

instance {L : Type} : LawfulCode (Verbatim L) L where
  Valid _ := True
  valid_empty := trivial
  encode_spec {s s' v c} _ h := by
    obtain ⟨rfl, rfl⟩ := Prod.mk.inj (Except.ok.inj h)
    exact ⟨trivial, rfl, fun _ _ h => h⟩

instance {L : Type} [Ord L] [Std.TransOrd L] [Std.LawfulEqOrd L] : LawfulCode (Interner L) L where
  Valid := Interner.Wf
  valid_empty := Interner.wf_empty
  encode_spec {s s' v c} hs h := by
    obtain ⟨hwf, hle, hc⟩ := Interner.intern_spec hs h
    exact ⟨hwf, hc, hle⟩

namespace ValueTable

variable {σ L : Type} [ValueCode σ L] {t t' : ValueTable σ L} {n m : NodeId} {d e : FactId} {v : L}

/-- The value that was written for a fact at a node. -/
def find? (t : ValueTable σ L) (n : NodeId) (d : FactId) : Option L :=
  (t.codesAt n)[d]?.bind (ValueCode.decode t.codes)

theorem get_eq (t : ValueTable σ L) (n : NodeId) (d : FactId) :
    t.get n d = (t.find? n d).getD t.default := rfl

theorem find?_empty : (empty v : ValueTable σ L).find? n d = none := by
  simp [find?, empty, codesAt, getD_eq]

theorem codesAt_insert (rows : Std.TreeMap NodeId (Std.TreeMap FactId (ValueCode.Code σ L)))
    (row : Std.TreeMap FactId (ValueCode.Code σ L)) (codes : σ) (default : L) :
    (ValueTable.mk (rows.insert n row) codes default).codesAt m =
      if n = m then row else (ValueTable.mk rows codes default).codesAt m := by
  simp only [codesAt, getD_eq, getElem?_insert_eq]
  split <;> rfl

theorem mem_row : (d, v) ∈ t.row n ↔ t.find? n d = some v := by
  simp only [row, List.mem_filterMap, Std.TreeMap.mem_toList_iff_getElem?_eq_some, Prod.exists,
    Option.map_eq_some_iff, Prod.mk.injEq, find?, Option.bind_eq_some_iff]
  constructor
  · rintro ⟨e, c, hc, w, hw, rfl, rfl⟩
    exact ⟨c, hc, hw⟩
  · rintro ⟨c, hc, hw⟩
    exact ⟨d, c, hc, v, hw, rfl, rfl⟩

theorem mem_nodes (h : t.find? n d = some v) : n ∈ t.nodes := by
  rw [nodes, Std.TreeMap.mem_keys, Std.TreeMap.mem_iff_isSome_getElem?]
  cases hrow : t.rows[n]? with
  | none => simp [find?, codesAt, getD_eq, hrow] at h
  | some row => rfl

variable [LawfulCode σ L]

/-- All codes in the table can be decoded. -/
structure Wf (t : ValueTable σ L) : Prop where
  valid : LawfulCode.Valid L t.codes
  decode : ∀ (n : NodeId) (d : FactId) (code : ValueCode.Code σ L), (t.codesAt n)[d]? = some code →
    ∃ v : L, ValueCode.decode t.codes code = some v

theorem wf_empty (v : L) : (empty v : ValueTable σ L).Wf where
  valid := LawfulCode.valid_empty
  decode n d code h := by simp [empty, codesAt, getD_eq] at h

theorem set_spec (ht : t.Wf) (h : t.set n d v = .ok t') :
    t'.Wf ∧ t'.default = t.default ∧
      ∀ m e, t'.find? m e = if n = m ∧ d = e then some v else t.find? m e := by
  rw [set, bind_eq_ok] at h
  obtain ⟨⟨code, codes⟩, hcode, h⟩ := h
  obtain rfl := pure_eq_ok.1 h
  obtain ⟨hvalid, hdecode, hkeep⟩ := LawfulCode.encode_spec ht.valid hcode
  have hrow : ∀ m e, ((ValueTable.mk (t.rows.insert n ((t.codesAt n).insert d code)) codes
      t.default).codesAt m)[e]? = if n = m ∧ d = e then some code else (t.codesAt m)[e]? := by
    intro m e
    rw [codesAt_insert]
    by_cases hn : n = m
    · subst hn
      simp only [if_true, getElem?_insert_eq, true_and]
    · simp only [hn, if_false, false_and]
      rfl
  refine ⟨⟨hvalid, fun m e c hc => ?_⟩, rfl, fun m e => ?_⟩
  · rw [hrow] at hc
    split at hc
    · exact ⟨v, Option.some.inj hc ▸ hdecode⟩
    · obtain ⟨w, hw⟩ := ht.decode m e c hc
      exact ⟨w, hkeep c w hw⟩
  · rw [find?, hrow]
    split
    · exact hdecode
    · rw [find?]
      cases hc : (t.codesAt m)[e]? with
      | none => rfl
      | some c =>
        obtain ⟨w, hw⟩ := ht.decode m e c hc
        exact (hkeep c w hw).trans hw.symm

theorem get_set (ht : t.Wf) (h : t.set n d v = .ok t') (m : NodeId) (e : FactId) :
    t'.get m e = if n = m ∧ d = e then v else t.get m e := by
  obtain ⟨-, hdefault, hfind⟩ := set_spec ht h
  rw [get_eq, get_eq, hfind, hdefault]
  split <;> rfl

theorem contains_iff (ht : t.Wf) : t.contains n d = true ↔ ∃ v, t.find? n d = some v := by
  rw [contains, Std.TreeMap.contains_eq_isSome_getElem?, find?]
  cases hc : (t.codesAt n)[d]? with
  | none => simp
  | some c => simpa using ht.decode n d c hc

end ValueTable

namespace Results

variable {σ D L : Type} [Ord D] [ValueCode σ L] {r : Results σ D L} {node : String} {fact : D}
  {v : L}

/-- There is an entry for a fact at a node, by names. -/
def HasValue (r : Results σ D L) (node : String) (fact : D) (v : L) : Prop :=
  ∃ n d, r.nodes.get? n = some node ∧ r.facts.get? d = some fact ∧
    r.values.find? ⟨n⟩ ⟨d⟩ = some v

theorem mem_entries : (node, fact, v) ∈ r.entries ↔ r.HasValue node fact v := by
  simp only [entries, rowOf, List.mem_flatMap, HasValue]
  constructor
  · rintro ⟨n, -, h⟩
    split at h
    · next name hname =>
      obtain ⟨⟨d, w⟩, hrow, hd⟩ := List.mem_map.1 h
      obtain ⟨⟨i, w'⟩, hi, hw⟩ := List.mem_filterMap.1 hrow
      obtain ⟨x, hx, hxw⟩ := Option.map_eq_some_iff.1 hw
      cases hxw
      cases hd
      exact ⟨n.val, i.val, hname, hx, ValueTable.mem_row.1 hi⟩
    · cases h
  · rintro ⟨n, d, hn, hd, hv⟩
    refine ⟨⟨n⟩, ValueTable.mem_nodes hv, ?_⟩
    rw [hn]
    refine List.mem_map.2 ⟨(fact, v), List.mem_filterMap.2 ⟨(⟨d⟩, v), ValueTable.mem_row.2 hv, ?_⟩,
      rfl⟩
    simp [hd]

/-- The value of a fact at a node that both have numbers is the one in the table. -/
theorem valueAt_eq_get (hn : r.nodes.Wf) (hd : r.facts.Wf) {i j : UInt32}
    (hi : r.nodes.get? i = some node) (hj : r.facts.get? j = some fact) :
    r.valueAt node fact = r.values.get ⟨i⟩ ⟨j⟩ := by
  rw [valueAt, node?, fact?, (Interner.find?_eq_some hn).2 hi, (Interner.find?_eq_some hd).2 hj]
  rfl

/-- A value is in the table, or it is the default. -/
theorem valueAt_cases (hn : r.nodes.Wf) (hd : r.facts.Wf) (node : String) (fact : D) :
    (∃ i j, r.nodes.get? i = some node ∧ r.facts.get? j = some fact ∧
      r.valueAt node fact = r.values.get ⟨i⟩ ⟨j⟩) ∨ r.valueAt node fact = r.values.default := by
  cases hi : r.nodes.find? node with
  | none =>
    refine .inr ?_
    rw [valueAt, node?, hi]
    rfl
  | some i =>
    cases hj : r.facts.find? fact with
    | none =>
      refine .inr ?_
      rw [valueAt, node?, hi, fact?, hj]
      rfl
    | some j =>
      have hi := (Interner.find?_eq_some hn).1 hi
      have hj := (Interner.find?_eq_some hd).1 hj
      exact .inl ⟨i, j, hi, hj, valueAt_eq_get hn hd hi hj⟩

end Results

end Tabulation
