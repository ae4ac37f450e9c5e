import Tabulation.Proofs.Graph

/-!
# Building operations return

What each building operation needs in order to return, and what the graph then holds. A procedure
needs a new name and new nodes, an edge two nodes of one procedure, and a call a procedure that was
declared.
-/

namespace Tabulation

/-- A fold over positions returns if each of its steps does. -/
theorem foldlM_range_total {ε β : Type} {f : β → Nat → Except ε β} (I : Nat → β → Prop) {n : Nat}
    {b : β} (hb : I 0 b) (hf : ∀ i < n, ∀ c, I i c → ∃ c', f c i = .ok c' ∧ I (i + 1) c') :
    ∃ r, (List.range n).foldlM f b = .ok r ∧ I n r := by
  induction n with
  | zero => exact ⟨b, rfl, hb⟩
  | succ n ih =>
    obtain ⟨c, hc, hI⟩ := ih fun i hi => hf i (Nat.lt_succ_of_lt hi)
    obtain ⟨r, hr, hIr⟩ := hf n (Nat.lt_succ_self n) c hI
    refine ⟨r, ?_, hIr⟩
    rw [List.range_succ, List.foldlM_append]
    exact bind_eq_ok.2 ⟨c, hc, bind_eq_ok.2 ⟨r, hr, rfl⟩⟩

namespace Supergraph

variable {g : Supergraph}

theorem addNodes_total {i : Nat} {isFirst : Bool} {names : List String} (hnodup : names.Nodup)
    (hfresh : ∀ n ∈ names, g.nodes[n]? = none) : ∃ g', addNodes i isFirst names g = .ok g' := by
  induction names generalizing isFirst g with
  | nil => exact ⟨g, rfl⟩
  | cons a rest ih =>
    obtain ⟨ha, hrest⟩ := List.nodup_cons.1 hnodup
    have hnew : ¬ g.nodes.contains a = true := by
      rw [Std.TreeMap.contains_eq_isSome_getElem?, hfresh a List.mem_cons_self]
      nofun
    rw [addNodes, if_neg hnew]
    refine ih hrest fun n hn => ?_
    have hne : a ≠ n := fun h => ha (h ▸ hn)
    rw [getElem?_insert_eq, if_neg hne]
    exact hfresh n (List.mem_cons_of_mem a hn)

/-- A procedure with a new name and new nodes can be declared. -/
theorem addProc_total (hg : g.Consistent) {name : String} {names : List String}
    (hname : name ∉ g.procNames) (hnodup : names.Nodup)
    (hfresh : ∀ n ∈ names, g.nodes[n]? = none) :
    ∃ g', g.addProc name names = .ok g' ∧ g'.procNames = g.procNames ++ [name] ∧
      ∀ n, g'.nodes[n]? = if n ∈ names then
        some { proc := g.procNames.length, succs := [], preds := [], callees := [],
               isStart := names.head? == some n, isExit := names.getLast? == some n }
        else g.nodes[n]? := by
  have hnew : ¬ g.procIndex.contains name = true := by
    rw [Std.TreeMap.contains_eq_isSome_getElem?, Option.isSome_iff_exists]
    rintro ⟨i, hi⟩
    obtain ⟨P, hP, hP'⟩ := (hg.index name i).1 hi
    exact hname (mem_procNames.2 ⟨i, P, hP, hP'⟩)
  have hreturns : ∃ g', addNodes g.procs.size true names { g with
      procs := g.procs.push ⟨name, names, names.head?.toList, names.getLast?.toList, [], []⟩
      procIndex := g.procIndex.insert name g.procs.size } = .ok g' := addNodes_total hnodup hfresh
  obtain ⟨g', hg'⟩ := hreturns
  obtain ⟨hprocs, -, -, hnodes⟩ := addNodes_ok hg'
  rw [addProc, if_neg hnew]
  refine ⟨g', hg', ?_, fun n => ?_⟩
  · simp [procNames, hprocs]
  · simpa [procNames] using hnodes n

/-- An edge between two nodes of one procedure can be added. -/
theorem addEdge_total {source target : String} {a b : NodeInfo} (ha : g.nodes[source]? = some a)
    (hb : g.nodes[target]? = some b) (hproc : a.proc = b.proc) (hne : source ≠ target) :
    ∃ g', g.addEdge source target = .ok g' ∧ g'.procNames = g.procNames ∧
      (∀ n, g'.Known n → g.Known n) ∧ ∀ n, g'.nodes[n]? =
        if n = target then some { b with preds := addName b.preds source }
        else if n = source then some { a with succs := addName a.succs target }
        else g.nodes[n]? := by
  have hread : (g.nodes.insert source { a with succs := addName a.succs target }).getD target b =
      b := by
    rw [getD_eq, getElem?_insert_eq, if_neg hne, hb]
    rfl
  have hedge : g.addEdge source target = .ok { g with
      nodes := (g.nodes.insert source { a with succs := addName a.succs target }).insert target
        { b with preds := addName b.preds source } } := by
    refine bind_eq_ok.2 ⟨a, node_eq_ok.2 ha, bind_eq_ok.2 ⟨b, node_eq_ok.2 hb, ?_⟩⟩
    simp only [if_pos hproc, hread]
    rfl
  refine ⟨_, hedge, rfl, fun n hn => ?_, fun n => ?_⟩
  · obtain ⟨info, hinfo⟩ := hn
    simp only [getElem?_insert_eq] at hinfo
    split_ifs at hinfo with htarget hsource
    · exact ⟨b, htarget ▸ hb⟩
    · exact ⟨a, hsource ▸ ha⟩
    · exact ⟨info, hinfo⟩
  · simp only [getElem?_insert_eq, @eq_comm _ target, @eq_comm _ source]

theorem map_name_modify {procs : Array Procedure} {i : Nat} {f : Procedure → Procedure}
    (hf : ∀ p, (f p).name = p.name) : (procs.modify i f).map (·.name) = procs.map (·.name) := by
  refine Array.ext_getElem? fun j => ?_
  rw [Array.getElem?_map, Array.getElem?_map, Array.getElem?_modify]
  split
  · rw [Option.map_map]
    exact congrArg (Option.map · _) (funext hf)
  · rfl

/-- A call of a declared procedure can be added. -/
theorem addCall_total (hg : g.Consistent) {site callee : String} {info : NodeInfo}
    (hcallee : callee ∈ g.procNames) (hsite : g.nodes[site]? = some info)
    (hnew : callee ∉ info.callees) :
    ∃ g', g.addCall site callee = .ok g' ∧ g'.procNames = g.procNames ∧
      (∀ n, g'.Known n → g.Known n) ∧ ∀ n, g'.nodes[n]? =
        if n = site then some { info with callees := info.callees ++ [callee] }
        else g.nodes[n]? := by
  obtain ⟨index, P, hP, hname⟩ := mem_procNames.1 hcallee
  have hindex : g.procIndex[callee]? = some index := (hg.index callee index).2 ⟨P, hP, hname⟩
  have hreturns : ∃ g', g.addCall site callee = .ok g' := by
    unfold addCall
    rw [hindex]
    exact ⟨_, bind_eq_ok.2 ⟨info, node_eq_ok.2 hsite, if_neg hnew⟩⟩
  obtain ⟨g', h⟩ := hreturns
  refine ⟨g', h, ?_⟩
  unfold addCall at h
  rw [hindex] at h
  obtain ⟨info', hinfo, h⟩ := bind_eq_ok.1 h
  obtain rfl := Option.some.inj (hsite.symm.trans (node_eq_ok.1 hinfo))
  rw [if_neg hnew] at h
  obtain rfl := pure_eq_ok.1 h
  refine ⟨?_, fun n hn => ?_, fun n => ?_⟩
  · simp only [procNames]
    rw [map_name_modify]
    · split
      · rw [map_name_modify]
        exact fun _ => rfl
      · rfl
    · exact fun _ => rfl
  · obtain ⟨info', hinfo'⟩ := hn
    simp only [getElem?_insert_eq] at hinfo'
    split_ifs at hinfo' with hn
    · exact ⟨info, hn ▸ hsite⟩
    · exact ⟨info', hinfo'⟩
  · simp only [getElem?_insert_eq, @eq_comm _ site]

/-- A list of all nodes has at least as many names as there are nodes. -/
theorem size_nodes_le {names : List String} (h : ∀ n, g.Known n → n ∈ names) :
    g.nodes.size ≤ names.length := by
  rw [← Std.TreeMap.length_keys]
  refine (List.Nodup.subperm ?_ fun n hn => h n (mem_names.1 (List.mem_toFinset.2 hn))).length_le
  exact Std.TreeMap.nodup_keys

end Supergraph

end Tabulation
