import Tabulation.Proofs.Listings
import Tabulation.Proofs.ValueTable

/-!
# Tables and results as finite maps

A table of values is a finite map from nodes and facts to values, whatever code it uses. `ReadsAs`
says that all look-ups of a table are look-ups in one map. Results are such a table under names, and
`Results.Views` says the same of their queries: they all are views of one map, with every node and
fact in it once.

**What is needed.** All codes can be decoded and no row is empty, `ValueTable.Holds`. For results,
the numbers in the table have names.
-/

namespace Tabulation

/-- The values of facts at nodes. -/
abbrev ValueMap (L : Type) := Finmap fun _ : NodeId × FactId => L

namespace ValueTable

variable {σ L : Type} [ValueCode σ L] {t t' : ValueTable σ L} {m : ValueMap L}

/-- All look-ups of the table are look-ups in a map. What is not in the map has the default. -/
structure ReadsAs (t : ValueTable σ L) (default : L) (m : ValueMap L) : Prop where
  get : ∀ n d, t.get n d = (m.lookup (n, d)).getD default
  contains : ∀ n d, t.contains n d = true ↔ (n, d) ∈ m
  containsNode : ∀ n, t.containsNode n = true ↔ ∃ d, (n, d) ∈ m
  row : ∀ n, Lists (t.row n) fun d => m.lookup (n, d)
  nodes : t.nodes.Nodup ∧ ∀ n, n ∈ t.nodes ↔ ∃ d, (n, d) ∈ m
  size : t.size = m.keys.card

/-- The facts of a row are listed once each. -/
theorem nodup_row (t : ValueTable σ L) (n : NodeId) : ((t.row n).map Prod.fst).Nodup := by
  have hkeys : ((t.codesAt n).toList.map Prod.fst).Nodup := by
    rw [Std.TreeMap.map_fst_toList_eq_keys]
    exact Std.TreeMap.nodup_keys
  refine hkeys.sublist ?_
  rw [row]
  generalize (t.codesAt n).toList = l
  induction l with
  | nil => exact .slnil
  | cons x l ih =>
    rw [List.filterMap_cons]
    split
    · exact ih.cons _
    · next y hy =>
      obtain ⟨v, -, rfl⟩ := Option.map_eq_some_iff.1 hy
      exact ih.cons_cons _

/-- The numbers of entries, row by row. -/
def pairs (t : ValueTable σ L) : List (NodeId × FactId) :=
  t.rows.toList.flatMap fun (n, row) => row.keys.map (n, ·)

theorem length_pairs (t : ValueTable σ L) : t.pairs.length = t.size := by
  rw [size, values_eq_map, pairs, List.flatMap_map, List.length_flatMap, List.length_flatMap]
  simp

theorem nodup_pairs (t : ValueTable σ L) : t.pairs.Nodup := by
  refine List.nodup_flatMap.2 ⟨fun x _ => ?_, ?_⟩
  · exact Std.TreeMap.nodup_keys.map fun _ _ h => (Prod.mk.inj h).2
  · refine (Std.TreeMap.distinct_keys_toList).imp fun {x y} hxy => ?_
    rw [Function.onFun, List.disjoint_left]
    rintro ⟨n, d⟩ hx hy
    obtain ⟨_, -, heq⟩ := List.mem_map.1 hx
    obtain ⟨_, -, heq'⟩ := List.mem_map.1 hy
    refine hxy ?_
    rw [(Prod.mk.inj heq).1, (Prod.mk.inj heq').1]
    exact Std.ReflCmp.compare_self

variable [LawfulCode σ L]

/-- The table holds the values of a map. -/
structure Holds (t : ValueTable σ L) (m : ValueMap L) : Prop where
  wf : t.Wf
  filled : ∀ (n : NodeId) (row : Std.TreeMap FactId (ValueCode.Code σ L)),
    t.rows[n]? = some row → row.isEmpty = false
  find? : ∀ n d, t.find? n d = m.lookup (n, d)

theorem holds_empty (v : L) : (empty v : ValueTable σ L).Holds ∅ where
  wf := wf_empty v
  filled n row h := by simp [empty] at h
  find? n d := by rw [find?_empty, Finmap.lookup_empty]

/-- Writing is inserting into the map. -/
theorem Holds.set (h : t.Holds m) {n : NodeId} {d : FactId} {v : L} (hset : t.set n d v = .ok t') :
    t'.Holds (m.insert (n, d) v) ∧ t'.default = t.default := by
  obtain ⟨hwf, hdefault, hfind⟩ := set_spec h.wf hset
  refine ⟨⟨hwf, fun k row hrow => ?_, fun k e => ?_⟩, hdefault⟩
  · rw [ValueTable.set, bind_eq_ok] at hset
    obtain ⟨⟨code, codes⟩, -, hset⟩ := hset
    obtain rfl := pure_eq_ok.1 hset
    change (t.rows.insert n ((t.codesAt n).insert d code))[k]? = some row at hrow
    rw [getElem?_insert_eq] at hrow
    split at hrow
    · obtain rfl := Option.some.inj hrow
      exact Std.TreeMap.isEmpty_insert
    · exact h.filled k row hrow
  · rw [hfind]
    split
    · next hkey =>
      obtain ⟨rfl, rfl⟩ := hkey
      rw [Finmap.lookup_insert]
    · next hkey =>
      rw [Finmap.lookup_insert_of_ne _ fun heq => hkey (Prod.mk.inj heq.symm), h.find?]

/-! ## Look-ups -/

theorem Holds.contains_iff (h : t.Holds m) {n : NodeId} {d : FactId} :
    t.contains n d = true ↔ (n, d) ∈ m := by
  simp only [ValueTable.contains_iff h.wf, h.find?, Finmap.mem_iff]

theorem Holds.mem_codesAt_iff (h : t.Holds m) {n : NodeId} {d : FactId} :
    d ∈ t.codesAt n ↔ (n, d) ∈ m := by
  rw [← h.contains_iff, ValueTable.contains, Std.TreeMap.contains_iff_mem]

theorem Holds.containsNode_iff (h : t.Holds m) {n : NodeId} :
    t.containsNode n = true ↔ ∃ d, (n, d) ∈ m := by
  rw [ValueTable.containsNode, Bool.not_eq_true', Std.TreeMap.isEmpty_eq_false_iff_exists_mem]
  exact exists_congr fun d => h.mem_codesAt_iff

/-- A row is there if it has entries. -/
theorem Holds.getElem?_rows (h : t.Holds m) {n : NodeId}
    {row : Std.TreeMap FactId (ValueCode.Code σ L)} :
    t.rows[n]? = some row ↔ row = t.codesAt n ∧ ∃ d, (n, d) ∈ m := by
  constructor
  · intro hrow
    have hat : t.codesAt n = row := by simp [codesAt, getD_eq, hrow]
    refine ⟨hat.symm, ?_⟩
    obtain ⟨d, hd⟩ := Std.TreeMap.isEmpty_eq_false_iff_exists_mem.1 (h.filled n row hrow)
    exact ⟨d, h.mem_codesAt_iff.1 (hat ▸ hd)⟩
  · rintro ⟨rfl, d, hd⟩
    have hmem := h.mem_codesAt_iff.2 hd
    cases hrow : t.rows[n]? with
    | none => simp [codesAt, getD_eq, hrow] at hmem
    | some row => simp [codesAt, getD_eq, hrow]

theorem Holds.mem_nodes_iff (h : t.Holds m) {n : NodeId} : n ∈ t.nodes ↔ ∃ d, (n, d) ∈ m := by
  rw [nodes, Std.TreeMap.mem_keys, Std.TreeMap.mem_iff_isSome_getElem?, Option.isSome_iff_exists]
  simp only [h.getElem?_rows, exists_eq_left]

theorem Holds.mem_pairs_iff (h : t.Holds m) {n : NodeId} {d : FactId} :
    (n, d) ∈ t.pairs ↔ (n, d) ∈ m := by
  simp only [pairs, List.mem_flatMap, Prod.exists, Std.TreeMap.mem_toList_iff_getElem?_eq_some,
    List.mem_map, Prod.mk.injEq, Std.TreeMap.mem_keys]
  constructor
  · rintro ⟨k, row, hrow, e, he, rfl, rfl⟩
    obtain ⟨rfl, -⟩ := h.getElem?_rows.1 hrow
    exact h.mem_codesAt_iff.1 he
  · intro hm
    exact ⟨n, t.codesAt n, h.getElem?_rows.2 ⟨rfl, d, hm⟩, d, h.mem_codesAt_iff.2 hm, rfl, rfl⟩

theorem Holds.size_eq (h : t.Holds m) : t.size = m.keys.card := by
  have hkeys : m.keys = t.pairs.toFinset := by
    ext ⟨n, d⟩
    rw [Finmap.mem_keys, List.mem_toFinset, h.mem_pairs_iff]
  rw [hkeys, List.toFinset_card_of_nodup (nodup_pairs t), length_pairs]

theorem Holds.readsAs (h : t.Holds m) : t.ReadsAs t.default m where
  get n d := by rw [get_eq, h.find?]
  contains _ _ := h.contains_iff
  containsNode _ := h.containsNode_iff
  row n := ⟨nodup_row t n, fun d v => by rw [mem_row, h.find?]⟩
  nodes := ⟨Std.TreeMap.nodup_keys, fun _ => h.mem_nodes_iff⟩
  size := h.size_eq

end ValueTable

/-! ## Results -/

theorem map_fst_filterMap {α β γ : Type} (g : α → Option β) (l : List (α × γ)) :
    (l.filterMap fun (a, c) => (g a).map (·, c)).map Prod.fst = (l.map Prod.fst).filterMap g := by
  rw [List.map_filterMap, List.filterMap_map]
  refine List.filterMap_congr fun x _ => ?_
  cases h : g x.1 <;> simp [h]

namespace Results

variable {σ D L : Type} [Ord D] [ValueCode σ L] {r : Results σ D L} {zero : D}

/-- The numbers in the table have names, and that of the zero fact is 0. -/
structure Named (r : Results σ D L) (zero : D) : Prop where
  nodes : r.nodes.Wf
  facts : r.facts.Wf
  zero : r.facts.get? 0 = some zero
  names : ∀ n d, r.values.contains n d = true →
    (∃ node, r.nodes.get? n.val = some node) ∧ ∃ fact, r.facts.get? d.val = some fact

theorem node?_eq_some (h : r.Named zero) {node : String} {n : NodeId} :
    r.node? node = some n ↔ r.nodes.get? n.val = some node := by
  rw [node?, Option.map_eq_some_iff, ← Interner.find?_eq_some h.nodes]
  constructor
  · rintro ⟨i, hi, rfl⟩
    exact hi
  · exact fun hi => ⟨n.val, hi, rfl⟩

theorem fact?_eq_some (h : r.Named zero) {fact : D} {d : FactId} :
    r.fact? fact = some d ↔ r.facts.get? d.val = some fact := by
  rw [fact?, Option.map_eq_some_iff, ← Interner.find?_eq_some h.facts]
  constructor
  · rintro ⟨i, hi, rfl⟩
    exact hi
  · exact fun hi => ⟨d.val, hi, rfl⟩

/-- Names are unique, so there is at most one entry for each. -/
theorem HasValue.unique (h : r.Named zero) {node : String} {fact : D} {v w : L}
    (hv : r.HasValue node fact v) (hw : r.HasValue node fact w) : v = w := by
  obtain ⟨n, d, hn, hd, hv⟩ := hv
  obtain ⟨n', d', hn', hd', hw⟩ := hw
  obtain rfl := Interner.get?_inj h.nodes hn hn'
  obtain rfl := Interner.get?_inj h.facts hd hd'
  exact Option.some.inj (hv.symm.trans hw)

theorem hasValue_iff (h : r.Named zero) {node : String} {fact : D} {n : NodeId} {v : L}
    (hn : r.node? node = some n) :
    r.HasValue node fact v ↔ ∃ d : FactId, r.facts.get? d.val = some fact ∧
      (d, v) ∈ r.values.row n := by
  have hn := (node?_eq_some h).1 hn
  simp only [ValueTable.mem_row]
  constructor
  · rintro ⟨i, d, hi, hd, hv⟩
    obtain rfl : i = n.val := Interner.get?_inj h.nodes hi hn
    exact ⟨⟨d⟩, hd, hv⟩
  · rintro ⟨d, hd, hv⟩
    exact ⟨n.val, d.val, hn, hd, hv⟩

theorem not_hasValue (h : r.Named zero) {node : String} (hn : r.node? node = none) (fact : D)
    (v : L) : ¬ r.HasValue node fact v := by
  rintro ⟨n, d, hnode, -⟩
  have := (node?_eq_some h (n := ⟨n⟩)).2 hnode
  rw [hn] at this
  cases this

theorem nodup_named (h : r.Named zero) {l : List (FactId × L)} (hl : (l.map Prod.fst).Nodup) :
    ((l.filterMap fun (d, v) => (r.facts.get? d.val).map (·, v)).map Prod.fst).Nodup := by
  rw [map_fst_filterMap fun d : FactId => r.facts.get? d.val]
  refine List.Nodup.filterMap (fun d e fact hd he => ?_) hl
  exact congrArg FactId.mk (Interner.get?_inj h.facts hd he)

theorem mem_named {l : List (FactId × L)} {fact : D} {v : L} :
    (fact, v) ∈ l.filterMap (fun (d, v) => (r.facts.get? d.val).map (·, v)) ↔
      ∃ d : FactId, r.facts.get? d.val = some fact ∧ (d, v) ∈ l := by
  simp only [List.mem_filterMap, Prod.exists, Option.map_eq_some_iff, Prod.mk.injEq]
  constructor
  · rintro ⟨d, w, hmem, _, hd, rfl, rfl⟩
    exact ⟨d, hd, hmem⟩
  · rintro ⟨d, hd, hmem⟩
    exact ⟨d, v, hmem, fact, hd, rfl, rfl⟩

theorem nodup_entries (h : r.Named zero) :
    ((r.entries.map fun (node, fact, v) => ((node, fact), v)).map Prod.fst).Nodup := by
  rw [List.map_map, entries, List.map_flatMap]
  refine List.nodup_flatMap.2 ⟨fun n _ => ?_, ?_⟩
  · split
    · next node _ =>
      have hrow := nodup_named h (ValueTable.nodup_row r.values n)
      rw [List.map_map]
      have := hrow.map (f := fun fact => (node, fact)) fun _ _ heq => (Prod.mk.inj heq).2
      rwa [List.map_map] at this
    · exact .nil
  · refine (Std.TreeMap.nodup_keys (t := r.values.rows)).imp fun {n n'} hne => ?_
    rw [Function.onFun, List.disjoint_left]
    intro key hkey hkey'
    split at hkey
    · next node hnode =>
      split at hkey'
      · next node' hnode' =>
        have hfst : ∀ (x : String) (l : List (D × L)), key ∈ (l.map fun (fact, value) =>
            (x, fact, value)).map (Prod.fst ∘ fun (node, fact, v) => ((node, fact), v)) →
            key.1 = x := by
          intro x l hmem
          rw [List.map_map] at hmem
          obtain ⟨y, -, rfl⟩ := List.mem_map.1 hmem
          rfl
        have heq : node = node' := (hfst _ _ hkey).symm.trans (hfst _ _ hkey')
        subst heq
        exact hne (congrArg NodeId.mk (Interner.get?_inj h.nodes hnode hnode'))
      · cases hkey'
    · cases hkey

variable [DecidableEq D]

/-- All queries are views of one map. What is not in it has the default. -/
structure Views (r : Results σ D L) (zero : D) (default : L)
    (M : Finmap fun _ : String × D => L) : Prop where
  valueAt : ∀ node fact, r.valueAt node fact = (M.lookup (node, fact)).getD default
  valuesAt : ∀ node stripZero, Lists (r.valuesAt node stripZero) fun fact =>
    if stripZero = true ∧ fact = zero then none else M.lookup (node, fact)
  row : ∀ node, Lists (r.row node) fun fact => M.lookup (node, fact)
  factsAt : ∀ node, (r.factsAt node).Nodup ∧ ∀ fact, fact ∈ r.factsAt node ↔ (node, fact) ∈ M
  containsNode : ∀ node, r.containsNode node = true ↔ ∃ fact, (node, fact) ∈ M
  size : r.size = M.keys.card
  entries : Lists (r.entries.map fun (node, fact, v) => ((node, fact), v)) M.lookup

/-- The entries as a map. -/
def toMap (r : Results σ D L) : Finmap fun _ : String × D => L :=
  List.toFinmap (r.entries.map fun (node, fact, v) => ⟨(node, fact), v⟩)

theorem lookup_toMap (h : r.Named zero) {node : String} {fact : D} {v : L} :
    r.toMap.lookup (node, fact) = some v ↔ r.HasValue node fact v := by
  have hmem : ∀ w, (⟨(node, fact), w⟩ : Sigma fun _ : String × D => L) ∈
      (r.entries.map fun (node, fact, v) => (⟨(node, fact), v⟩ : Sigma fun _ : String × D => L)) ↔
      r.HasValue node fact w := fun w => by
    rw [← mem_entries, List.mem_map]
    constructor
    · rintro ⟨⟨node', fact', w'⟩, hmem, heq⟩
      cases heq
      exact hmem
    · exact fun hmem => ⟨(node, fact, w), hmem, rfl⟩
  rw [toMap, Finmap.dlookup_list_toFinmap]
  constructor
  · exact fun hv => (hmem v).1 (List.of_mem_dlookup hv)
  · intro hv
    obtain ⟨w, hw⟩ := Option.isSome_iff_exists.1
      (List.dlookup_isSome.2 (List.mem_keys_of_mem ((hmem v).2 hv)))
    rw [hw, HasValue.unique h hv ((hmem w).1 (List.of_mem_dlookup hw))]

theorem mem_toMap (h : r.Named zero) {node : String} {fact : D} :
    (node, fact) ∈ r.toMap ↔ ∃ v, r.HasValue node fact v := by
  rw [Finmap.mem_iff]
  exact exists_congr fun v => lookup_toMap h

/-! ### Rows -/

theorem valuesAt_lists (h : r.Named zero) (node : String) (stripZero : Bool) :
    Lists (r.valuesAt node stripZero) fun fact =>
      if stripZero = true ∧ fact = zero then none else r.toMap.lookup (node, fact) := by
  unfold valuesAt
  cases hn : r.node? node with
  | none =>
    refine ⟨.nil, fun fact v => ?_⟩
    have hnot := not_hasValue h hn fact v
    rw [← lookup_toMap h] at hnot
    simp [hnot]
  | some n =>
    refine ⟨nodup_named h ((ValueTable.nodup_row r.values n).sublist
      ((List.filter_sublist).map _)), fun fact v => ?_⟩
    have hzero : ∀ d : FactId, r.facts.get? d.val = some fact →
        (d.isZero = true ↔ fact = zero) := by
      intro d hd
      rw [FactId.isZero, beq_iff_eq]
      constructor
      · intro hd0
        rw [hd0, h.zero] at hd
        exact (Option.some.inj hd).symm
      · rintro rfl
        exact Interner.get?_inj h.facts hd h.zero
    rw [mem_named]
    simp only [List.mem_filter, Bool.not_eq_true', Bool.and_eq_false_iff]
    constructor
    · rintro ⟨d, hd, hrow, hstrip⟩
      rw [if_neg, lookup_toMap h, hasValue_iff h hn]
      · exact ⟨d, hd, hrow⟩
      · rintro ⟨hs, hfact⟩
        rw [hs, (hzero d hd).2 hfact] at hstrip
        simp at hstrip
    · intro hv
      split at hv
      · cases hv
      · next hstrip =>
        obtain ⟨d, hd, hrow⟩ := (hasValue_iff h hn).1 ((lookup_toMap h).1 hv)
        refine ⟨d, hd, hrow, ?_⟩
        rw [← hzero d hd] at hstrip
        cases stripZero <;> simp_all

theorem row_lists (h : r.Named zero) (node : String) :
    Lists (r.row node) fun fact => r.toMap.lookup (node, fact) := by
  have hrow : r.row node = r.valuesAt node false := by
    unfold row valuesAt rowOf
    simp
  rw [hrow]
  simpa using valuesAt_lists h node false

theorem containsNode_iff (h : r.Named zero) {m : ValueMap L} [LawfulCode σ L]
    (hm : r.values.Holds m) (node : String) :
    r.containsNode node = true ↔ ∃ fact, (node, fact) ∈ r.toMap := by
  unfold containsNode
  cases hn : r.node? node with
  | none => simp [mem_toMap h, not_hasValue h hn]
  | some n =>
    simp only [mem_toMap h, hasValue_iff h hn, ValueTable.mem_row, hm.containsNode_iff]
    constructor
    · rintro ⟨d, hd⟩
      have hcontains := hm.contains_iff.2 hd
      obtain ⟨v, hv⟩ := (ValueTable.contains_iff hm.wf).1 hcontains
      obtain ⟨-, fact, hfact⟩ := h.names n d hcontains
      exact ⟨fact, v, d, hfact, hv⟩
    · rintro ⟨fact, v, d, -, hv⟩
      exact ⟨d, Finmap.mem_of_lookup_eq_some ((hm.find? n d).symm.trans hv)⟩

/-! ### Entries -/

/-- A table under names has as many entries as without. -/
theorem size_eq_card (h : r.Named zero) {m : ValueMap L} [LawfulCode σ L]
    (hm : r.values.Holds m) : r.size = r.toMap.keys.card := by
  have himage : r.toMap.keys.image (fun key => (some key.1, some key.2)) =
      m.keys.image fun key => (r.nodes.get? key.1.val, r.facts.get? key.2.val) := by
    ext ⟨x, y⟩
    simp only [Finset.mem_image, Finmap.mem_keys, Prod.exists, Prod.mk.injEq]
    constructor
    · rintro ⟨node, fact, hmem, rfl, rfl⟩
      obtain ⟨v, n, d, hn, hd, hv⟩ := (mem_toMap h).1 hmem
      exact ⟨⟨n⟩, ⟨d⟩, Finmap.mem_of_lookup_eq_some ((hm.find? _ _).symm.trans hv), hn, hd⟩
    · rintro ⟨n, d, hmem, rfl, rfl⟩
      have hcontains := hm.contains_iff.2 hmem
      obtain ⟨v, hv⟩ := (ValueTable.contains_iff hm.wf).1 hcontains
      obtain ⟨⟨node, hnode⟩, fact, hfact⟩ := h.names n d hcontains
      exact ⟨node, fact, (mem_toMap h).2 ⟨v, n.val, d.val, hnode, hfact, hv⟩, hnode.symm,
        hfact.symm⟩
  have hinj : Set.InjOn (fun key : NodeId × FactId =>
      (r.nodes.get? key.1.val, r.facts.get? key.2.val)) m.keys := by
    rintro ⟨n, d⟩ hmem ⟨n', d'⟩ - heq
    obtain ⟨⟨node, hnode⟩, fact, hfact⟩ := h.names n d (hm.contains_iff.2 (Finmap.mem_keys.1 hmem))
    obtain ⟨hn, hd⟩ := Prod.mk.inj heq
    refine Prod.ext (congrArg NodeId.mk (Interner.get?_inj h.nodes hnode ?_))
      (congrArg FactId.mk (Interner.get?_inj h.facts hfact ?_))
    · exact hn.symm.trans hnode
    · exact hd.symm.trans hfact
  rw [size, hm.size_eq, ← Finset.card_image_of_injOn hinj, ← himage,
    Finset.card_image_of_injective]
  rintro ⟨a, b⟩ ⟨c, d⟩ heq
  simpa using heq

theorem valueAt_eq_lookup (h : r.Named zero) (node : String) (fact : D) :
    r.valueAt node fact = (r.toMap.lookup (node, fact)).getD r.values.default := by
  have hnone : (∀ v, ¬ r.HasValue node fact v) → r.toMap.lookup (node, fact) = none := fun hno =>
    Option.eq_none_iff_forall_ne_some.2 fun v hv => hno v ((lookup_toMap h).1 hv)
  unfold valueAt
  cases hn : r.node? node with
  | none => rw [hnone (not_hasValue h hn fact)]; rfl
  | some n =>
    cases hd : r.fact? fact with
    | none =>
      rw [hnone]
      · rfl
      · rintro v ⟨_, d, -, hfact, -⟩
        have := (fact?_eq_some h (d := ⟨d⟩)).2 hfact
        rw [hd] at this
        cases this
    | some d =>
      have hfind : r.toMap.lookup (node, fact) = r.values.find? n d := by
        refine Option.ext fun v => ?_
        rw [lookup_toMap h]
        constructor
        · rintro ⟨i, j, hi, hj, hv⟩
          obtain rfl := Interner.get?_inj h.nodes hi ((node?_eq_some h).1 hn)
          obtain rfl := Interner.get?_inj h.facts hj ((fact?_eq_some h).1 hd)
          exact hv
        · exact fun hv => ⟨n.val, d.val, (node?_eq_some h).1 hn, (fact?_eq_some h).1 hd, hv⟩
      rw [hfind]
      rfl

theorem entries_lists (h : r.Named zero) :
    Lists (r.entries.map fun (node, fact, v) => ((node, fact), v)) r.toMap.lookup := by
  refine ⟨nodup_entries h, ?_⟩
  rintro ⟨node, fact⟩ v
  rw [lookup_toMap h, ← mem_entries, List.mem_map]
  constructor
  · rintro ⟨⟨node', fact', v'⟩, hmem, heq⟩
    cases heq
    exact hmem
  · exact fun hmem => ⟨(node, fact, v), hmem, rfl⟩

theorem factsAt_iff (h : r.Named zero) (node : String) :
    (r.factsAt node).Nodup ∧ ∀ fact, fact ∈ r.factsAt node ↔ (node, fact) ∈ r.toMap := by
  obtain ⟨hnodup, hmem⟩ := row_lists h node
  refine ⟨hnodup, fun fact => ?_⟩
  rw [factsAt, List.mem_map, Finmap.mem_iff]
  constructor
  · rintro ⟨⟨_, v⟩, hv, rfl⟩
    exact ⟨v, (hmem _ v).1 hv⟩
  · rintro ⟨v, hv⟩
    exact ⟨(fact, v), (hmem fact v).2 hv, rfl⟩

theorem Named.views (h : r.Named zero) {m : ValueMap L} [LawfulCode σ L] (hm : r.values.Holds m) :
    r.Views zero r.values.default r.toMap where
  valueAt := valueAt_eq_lookup h
  valuesAt := valuesAt_lists h
  row := row_lists h
  factsAt := factsAt_iff h
  containsNode := containsNode_iff h hm
  size := size_eq_card h hm
  entries := entries_lists h

end Results

end Tabulation
