import Tabulation.Proofs.Graph
import Tabulation.Proofs.Tables

/-!
# The views of a supergraph

A supergraph keeps what it knows in several places: edges at both ends, calls at the call site, at
the callee and at the caller, start and exit points as flags and as lists, and the call sites as
lists and as a number. `Consistent` says that the tables hold the same names. Here it is shown that
no list repeats a name, `Tidy`, and what that means for a client, who only sees the queries:
`Built.coherent`.
-/

namespace Tabulation

namespace Supergraph

/-- No list repeats a name, and the lists of call sites add up to their number. -/
structure Tidy (g : Supergraph) : Prop where
  procs : ∀ (i : Nat) (p : Procedure), g.procs[i]? = some p →
    p.nodes.Nodup ∧ p.exitPoints.Nodup ∧ p.callers.Nodup ∧ p.calls.Nodup
  nodes : ∀ (n : String) (info : NodeInfo), g.nodes[n]? = some info →
    info.succs.Nodup ∧ info.preds.Nodup
  callSites : g.numCallSites = (g.procs.toList.map (·.calls.length)).sum

section Building

variable {g g' : Supergraph}

theorem tidy_empty : Tidy empty := by
  constructor <;> simp [empty]

/-- New nodes are distinct, and none of them is a call site. -/
theorem addNodes_nodup {i : Nat} {isFirst : Bool} {names : List String}
    (h : addNodes i isFirst names g = .ok g') :
    names.Nodup ∧ g'.numCallSites = g.numCallSites := by
  induction names generalizing isFirst g with
  | nil =>
    obtain rfl := Except.ok.inj h
    exact ⟨List.nodup_nil, rfl⟩
  | cons a rest ih =>
    simp only [addNodes] at h
    split at h
    · cases h
    · obtain ⟨hrest, hnum⟩ := ih h
      obtain ⟨-, -, hfresh, -⟩ := addNodes_ok h
      refine ⟨List.nodup_cons.2 ⟨fun hmem => ?_, hrest⟩, hnum⟩
      simpa [getElem?_insert_eq] using hfresh a hmem

theorem Tidy.addProc (ht : g.Tidy) {name : String} {nodes : List String}
    (h : g.addProc name nodes = .ok g') : g'.Tidy := by
  unfold Supergraph.addProc at h
  split at h
  · cases h
  · obtain ⟨hp, -, -, hn⟩ := addNodes_ok h
    obtain ⟨hnodup, hnum⟩ := addNodes_nodup h
    simp only at hp hn hnum
    constructor
    · intro i p hi
      rw [hp, Array.getElem?_push] at hi
      split at hi
      · obtain rfl := Option.some.inj hi
        exact ⟨hnodup, by cases nodes.getLast? <;> simp, List.nodup_nil, List.nodup_nil⟩
      · exact ht.procs i p hi
    · intro n info hinfo
      rw [hn n] at hinfo
      split at hinfo
      · obtain rfl := Option.some.inj hinfo
        exact ⟨List.nodup_nil, List.nodup_nil⟩
      · exact ht.nodes n info hinfo
    · rw [hnum, hp, ht.callSites]
      simp

theorem nodup_append_name {l : List String} {x : String} (h : l.Nodup) (hx : x ∉ l) :
    (l ++ [x]).Nodup := by
  rw [← List.concat_eq_append]
  exact h.concat hx

theorem Tidy.addExit (hg : g.Consistent) (ht : g.Tidy) {name : String}
    (h : g.addExit name = .ok g') : g'.Tidy := by
  unfold Supergraph.addExit at h
  obtain ⟨info, hinfo, h⟩ := bind_eq_ok.1 h
  rw [node_eq_ok] at hinfo
  split at h
  · rw [← pure_eq_ok.1 h]
    exact ht
  · next hexit =>
    rw [← pure_eq_ok.1 h]
    obtain ⟨P, hP⟩ := hg.owner name info hinfo
    -- A node that is no exit point yet is not in the list.
    have hnew : name ∉ P.exitPoints := fun hmem => by
      obtain ⟨info', hinfo', -, hexit'⟩ := (hg.exits _ P name hP).1 hmem
      rw [hinfo] at hinfo'
      exact hexit (Option.some.inj hinfo' ▸ hexit')
    constructor
    · intro i p hi
      rw [Array.getElem?_modify] at hi
      split at hi
      · next heq =>
        subst heq
        rw [hP] at hi
        obtain rfl := Option.some.inj hi
        obtain ⟨hnodes, hexits, hrest⟩ := ht.procs _ P hP
        exact ⟨hnodes, nodup_append_name hexits hnew, hrest⟩
      · exact ht.procs i p hi
    · intro n info' hn
      rw [getElem?_insert_eq] at hn
      split at hn
      · rw [← Option.some.inj hn]
        exact ht.nodes name info hinfo
      · exact ht.nodes n info' hn
    · have hsum := PathTable.sum_map_modify (fun p : Procedure => p.calls.length)
        (fun p => { p with exitPoints := p.exitPoints ++ [name] })
        (show g.procs.toList[info.proc]? = some P by simpa using hP)
      rw [Array.toList_modify]
      have := ht.callSites
      simp only at hsum ⊢
      omega

theorem nodup_addName {l : List String} (h : l.Nodup) (x : String) : (addName l x).Nodup := by
  unfold addName
  split
  · exact h
  · next hx => exact nodup_append_name h hx

theorem Tidy.addEdge (ht : g.Tidy) {source target : String}
    (h : g.addEdge source target = .ok g') : g'.Tidy := by
  unfold Supergraph.addEdge at h
  obtain ⟨a, ha, h⟩ := bind_eq_ok.1 h
  obtain ⟨b, hb, h⟩ := bind_eq_ok.1 h
  rw [node_eq_ok] at ha hb
  split at h
  · rw [← pure_eq_ok.1 h]
    refine ⟨ht.procs, ?_, ht.callSites⟩
    have ha' := ht.nodes source a ha
    have hsource : ∀ (n : String) (info : NodeInfo),
        (g.nodes.insert source { a with succs := addName a.succs target })[n]? = some info →
        info.succs.Nodup ∧ info.preds.Nodup := fun n info hn => by
      rw [getElem?_insert_eq] at hn
      split at hn
      · rw [← Option.some.inj hn]
        exact ⟨nodup_addName ha'.1 target, ha'.2⟩
      · exact ht.nodes n info hn
    intro n info hn
    rw [getElem?_insert_eq] at hn
    split at hn
    · rw [← Option.some.inj hn, getD_eq]
      -- The target is in the table, whether or not it is the source.
      cases hb' : (g.nodes.insert source { a with succs := addName a.succs target })[target]? with
      | none =>
        have := ht.nodes target b hb
        exact ⟨this.1, nodup_addName this.2 source⟩
      | some b' =>
        have := hsource target b' hb'
        exact ⟨this.1, nodup_addName this.2 source⟩
    · exact hsource n info hn
  · cases h

theorem Tidy.addChain (ht : g.Tidy) {names : List String} (h : g.addChain names = .ok g') :
    g'.Tidy :=
  foldlM_ok (fun _ g => g.Tidy) h ht fun _ _ _ _ _ ht h => ht.addEdge h

/-- What a procedure looks like after calls were added to it. -/
theorem modify_rows {procs : Array Procedure} {f : Procedure → Procedure} {i j : Nat}
    {p : Procedure} (h : (procs.modify j f)[i]? = some p) :
    ∃ q : Procedure, procs[i]? = some q ∧ p = if j = i then f q else q := by
  rw [Array.getElem?_modify] at h
  split at h
  · next heq =>
    obtain ⟨q, hq, rfl⟩ := Option.map_eq_some_iff.1 h
    exact ⟨q, hq, (if_pos heq).symm⟩
  · next hne => exact ⟨p, h, (if_neg hne).symm⟩

/-- Adding a first callee makes one more call site. -/
theorem sum_calls_append {procs : Array Procedure} {i : Nat} {P : Procedure} (site : String)
    (h : procs[i]? = some P) :
    (((procs.modify i fun p => { p with calls := p.calls ++ [site] }).toList).map
      (·.calls.length)).sum = (procs.toList.map (·.calls.length)).sum + 1 := by
  have hsum := PathTable.sum_map_modify (fun p : Procedure => p.calls.length)
    (fun p => { p with calls := p.calls ++ [site] })
    (show procs.toList[i]? = some P by simpa using h)
  rw [List.length_append, List.length_singleton] at hsum
  rw [Array.toList_modify]
  omega

theorem sum_calls_callers {procs : Array Procedure} {i : Nat} (site : String) :
    (((procs.modify i fun p => { p with callers := p.callers ++ [site] }).toList).map
      (·.calls.length)).sum = (procs.toList.map (·.calls.length)).sum := by
  rw [Array.toList_modify]
  cases h : procs.toList[i]? with
  | none => rw [List.modify_eq_self (List.getElem?_eq_none_iff.1 h)]
  | some P =>
    have hsum := PathTable.sum_map_modify (fun p : Procedure => p.calls.length)
      (fun p => { p with callers := p.callers ++ [site] }) h
    simp only at hsum ⊢
    omega

theorem Tidy.addCall (hg : g.Consistent) (ht : g.Tidy) {site callee : String}
    (h : g.addCall site callee = .ok g') : g'.Tidy := by
  unfold Supergraph.addCall at h
  split at h
  · cases h
  · next index hindex =>
    obtain ⟨info, hinfo, h⟩ := bind_eq_ok.1 h
    rw [node_eq_ok] at hinfo
    split at h
    · rw [← pure_eq_ok.1 h]
      exact ht
    · next hcallee =>
      rw [← pure_eq_ok.1 h]
      obtain ⟨P, hP⟩ := hg.owner site info hinfo
      obtain ⟨Q, hQ, hname⟩ := (hg.index callee index).1 hindex
      -- A node is in the list of a callee, or in that of call sites, only if it has callees.
      have hnewCaller : ∀ p : Procedure, g.procs[index]? = some p → site ∉ p.callers := by
        intro p hp hmem
        rw [hQ] at hp
        obtain rfl := Option.some.inj hp
        obtain ⟨info', hinfo', hmem⟩ := (hg.callers index Q site hQ).1 hmem
        rw [hinfo] at hinfo'
        exact hcallee (hname ▸ Option.some.inj hinfo' ▸ hmem)
      have hnewCall : info.callees = [] → ∀ p : Procedure, g.procs[info.proc]? = some p →
          site ∉ p.calls := by
        intro hfirst p hp hmem
        obtain ⟨info', hinfo', -, hne⟩ := (hg.calls _ p site hp).1 hmem
        rw [hinfo] at hinfo'
        exact hne (Option.some.inj hinfo' ▸ hfirst)
      constructor
      · intro i p hi
        obtain ⟨q, hq, rfl⟩ := modify_rows hi
        have hrow : q.nodes.Nodup ∧ q.exitPoints.Nodup ∧ q.callers.Nodup ∧ q.calls.Nodup ∧
            (i = index → site ∉ q.callers) := by
          split at hq
          · next hfirst =>
            obtain ⟨q', hq', rfl⟩ := modify_rows hq
            obtain ⟨hnodes, hexits, hcallers, hcalls⟩ := ht.procs i q' hq'
            split
            · next heq =>
              subst heq
              exact ⟨hnodes, hexits, hcallers,
                nodup_append_name hcalls (hnewCall (List.isEmpty_iff.1 hfirst) q' hq'),
                fun hi => hnewCaller q' (hi ▸ hq')⟩
            · exact ⟨hnodes, hexits, hcallers, hcalls, fun hi => hnewCaller q' (hi ▸ hq')⟩
          · obtain ⟨hnodes, hexits, hcallers, hcalls⟩ := ht.procs i q hq
            exact ⟨hnodes, hexits, hcallers, hcalls, fun hi => hnewCaller q (hi ▸ hq)⟩
        obtain ⟨hnodes, hexits, hcallers, hcalls, hnew⟩ := hrow
        split
        · next heq => exact ⟨hnodes, hexits, nodup_append_name hcallers (hnew heq.symm), hcalls⟩
        · exact ⟨hnodes, hexits, hcallers, hcalls⟩
      · intro n info' hn
        rw [getElem?_insert_eq] at hn
        split at hn
        · rw [← Option.some.inj hn]
          exact ht.nodes site info hinfo
        · exact ht.nodes n info' hn
      · simp only [sum_calls_callers]
        split
        · rw [sum_calls_append site hP, ht.callSites]
        · exact ht.callSites

/-- Supergraphs that can be built are tidy. -/
theorem Built.tidy (h : Built g) : g.Tidy := by
  induction h with
  | empty => exact tidy_empty
  | proc _ h ih => exact ih.addProc h
  | declaration _ h ih => exact ih.addProc h
  | exit hb h ih => exact ih.addExit hb.consistent h
  | edge _ h ih => exact ih.addEdge h
  | chain _ h ih => exact ih.addChain h
  | call hb h ih => exact ih.addCall hb.consistent h

end Building

/-! ## What a client sees -/

/-- The query returns a list of exactly the names with a property, each once. -/
def Lists (query : Except Fault (List String)) (Q : String → Prop) : Prop :=
  ∃ ns, query = .ok ns ∧ ns.Nodup ∧ ∀ n, n ∈ ns ↔ Q n

/-- The call sites of the program. -/
def callSites (g : Supergraph) : Finset String := g.names.filter fun n => g.isCallSite n = .ok true

/-- The answers of a supergraph about its nodes and procedures agree. -/
structure Coherent (g : Supergraph) : Prop where
  owner : ∀ n ∈ g.names, ∃ p ∈ g.procNames, g.procOf n = .ok p ∧
    ∀ q, (∃ ns, g.nodesOf q = .ok ns ∧ n ∈ ns) ↔ q = p
  nodesOf : ∀ p ∈ g.procNames, Lists (g.nodesOf p) fun n => g.procOf n = .ok p
  succs : ∀ n ∈ g.names, Lists (g.succs n) fun m => ∃ ns, g.preds m = .ok ns ∧ n ∈ ns
  preds : ∀ m ∈ g.names, Lists (g.preds m) fun n => ∃ ms, g.succs n = .ok ms ∧ m ∈ ms
  inside : ∀ n m, g.Succ n m → ∃ p, g.procOf n = .ok p ∧ g.procOf m = .ok p
  exitPoints : ∀ p ∈ g.procNames, Lists (g.exitPoints p) fun n =>
    g.procOf n = .ok p ∧ g.isExit n = .ok true
  startPoints : ∀ p ∈ g.procNames, Lists (g.startPoints p) fun n =>
    g.procOf n = .ok p ∧ g.isStart n = .ok true
  start_unique : ∀ p ns, g.startPoints p = .ok ns → ns.length ≤ 1
  callers : ∀ p ∈ g.procNames, Lists (g.callers p) fun n => ∃ ps, g.callees n = .ok ps ∧ p ∈ ps
  calls : ∀ p ∈ g.procNames, Lists (g.calls p) fun n =>
    g.procOf n = .ok p ∧ g.isCallSite n = .ok true
  numCallSites : g.numCallSites = g.callSites.card

section Views

variable {g : Supergraph}

/-- A list of a procedure, as a query returns it. -/
theorem lists_of_proc (hg : g.Consistent) {f : Procedure → List String} {p : String}
    {Q : String → Prop} (hp : p ∈ g.procNames)
    (hnodup : ∀ (i : Nat) (P : Procedure), g.procs[i]? = some P → (f P).Nodup)
    (hmem : ∀ n, (∃ ns, (do return f (← g.proc p) : Except Fault (List String)) = .ok ns ∧ n ∈ ns) ↔
      Q n) : Lists (do return f (← g.proc p)) Q := by
  obtain ⟨i, P, hP, hname⟩ := mem_procNames.1 hp
  have hquery : (do return f (← g.proc p) : Except Fault (List String)) = .ok (f P) :=
    bind_eq_ok.2 ⟨P, (proc_eq_ok hg).2 ⟨i, hP, hname⟩, rfl⟩
  refine ⟨f P, hquery, hnodup i P hP, fun n => ⟨fun hn => (hmem n).1 ⟨_, hquery, hn⟩, fun hn => ?_⟩⟩
  obtain ⟨ns, hns, hn⟩ := (hmem n).2 hn
  obtain rfl := Except.ok.inj (hquery.symm.trans hns)
  exact hn

theorem succ_iff (hg : g.Consistent) {n m : String} :
    g.Succ n m ↔ ∃ ns, g.preds m = .ok ns ∧ n ∈ ns := by
  constructor
  · rintro ⟨ms, hms, hm⟩
    obtain ⟨info, hinfo, rfl⟩ := succs_eq_ok.1 hms
    obtain ⟨info', hinfo', -, hn⟩ := hg.succs n info m hinfo hm
    exact ⟨_, preds_eq_ok.2 ⟨info', hinfo', rfl⟩, hn⟩
  · rintro ⟨ns, hns, hn⟩
    obtain ⟨info, hinfo, rfl⟩ := preds_eq_ok.1 hns
    obtain ⟨info', hinfo', hm⟩ := hg.preds m info n hinfo hn
    exact ⟨_, succs_eq_ok.2 ⟨info', hinfo', rfl⟩, hm⟩

theorem mem_callers_iff (hg : g.Consistent) {n p : String} :
    (∃ ns, g.callers p = .ok ns ∧ n ∈ ns) ↔ g.Calls n p := by
  refine ⟨fun ⟨ns, hns, hn⟩ => ?_, callers_of_calls hg⟩
  simp only [callers, bind_eq_ok, pure_eq_ok, proc_eq_ok hg] at hns
  obtain ⟨P, ⟨i, hP, rfl⟩, rfl⟩ := hns
  obtain ⟨info, hinfo, hmem⟩ := (hg.callers i P n hP).1 hn
  exact ⟨_, callees_eq_ok.2 ⟨info, hinfo, rfl⟩, hmem⟩

/-- A call site is in the list of one procedure only. -/
theorem nodup_calls (hg : g.Consistent) (ht : g.Tidy) :
    (g.procs.toList.flatMap (·.calls)).Nodup := by
  refine List.nodup_flatMap.2 ⟨fun P hP => ?_, ?_⟩
  · obtain ⟨i, hi⟩ := List.mem_iff_getElem?.1 hP
    exact (ht.procs i P (by simpa using hi)).2.2.2
  · rw [List.pairwise_iff_getElem]
    intro i j hi hj hij n hn hn'
    rw [Array.length_toList] at hi hj
    obtain ⟨info, hinfo, hproc, -⟩ := (hg.calls i _ n (Array.getElem?_eq_getElem hi)).1
      (by simpa using hn)
    obtain ⟨info', hinfo', hproc', -⟩ :=
      (hg.calls j _ n (Array.getElem?_eq_getElem hj)).1 (by simpa using hn')
    rw [hinfo] at hinfo'
    obtain rfl := Option.some.inj hinfo'
    omega

theorem card_callSites (hg : g.Consistent) (ht : g.Tidy) : g.callSites.card = g.numCallSites := by
  have hset : g.callSites = (g.procs.toList.flatMap (·.calls)).toFinset := by
    ext n
    rw [callSites, Finset.mem_filter, mem_names, List.mem_toFinset, List.mem_flatMap]
    constructor
    · rintro ⟨-, hsite⟩
      obtain ⟨info, hinfo, hne⟩ := isCallSite_eq_ok.1 hsite
      obtain ⟨P, hP⟩ := hg.owner n info hinfo
      exact ⟨P, Array.mem_toList_iff.2 (Array.mem_of_getElem? hP),
        (hg.calls _ P n hP).2 ⟨info, hinfo, rfl, by simpa using hne⟩⟩
    · rintro ⟨P, hP, hn⟩
      obtain ⟨i, hi⟩ := List.mem_iff_getElem?.1 hP
      obtain ⟨info, hinfo, -, hne⟩ := (hg.calls i P n (by simpa using hi)).1 hn
      exact ⟨⟨info, hinfo⟩, isCallSite_eq_ok.2 ⟨info, hinfo, by simpa using hne⟩⟩
  rw [hset, List.toFinset_card_of_nodup (nodup_calls hg ht), List.length_flatMap, ht.callSites]

/-- **All views of a supergraph that can be built agree.** -/
theorem Built.coherent (h : Built g) : g.Coherent := by
  have hg := h.consistent
  have ht := h.tidy
  have hlength : ∀ (i : Nat) (P : Procedure), g.procs[i]? = some P → P.startPoints.Nodup :=
    fun i P hP => List.nodup_iff_injective_get.2 fun a b _ => by
      have := hg.start_unique i P hP
      omega
  constructor
  · intro n hn
    obtain ⟨p, hp, hproc⟩ := (mem_names.1 hn).procOf hg
    refine ⟨p, hp, hproc, fun q => ?_⟩
    rw [mem_nodesOf_iff hg, hproc]
    exact ⟨fun heq => (Except.ok.inj heq).symm, fun heq => heq ▸ rfl⟩
  · exact fun p hp => lists_of_proc hg hp (fun i P hP => (ht.procs i P hP).1)
      fun n => mem_nodesOf_iff hg
  · intro n hn
    obtain ⟨info, hinfo⟩ := mem_names.1 hn
    have hsuccs : g.succs n = .ok info.succs := succs_eq_ok.2 ⟨info, hinfo, rfl⟩
    refine ⟨_, hsuccs, (ht.nodes n info hinfo).1, fun m => ?_⟩
    refine Iff.trans ?_ (succ_iff hg)
    simp [Succ, hsuccs]
  · intro m hm
    obtain ⟨info, hinfo⟩ := mem_names.1 hm
    have hpreds : g.preds m = .ok info.preds := preds_eq_ok.2 ⟨info, hinfo, rfl⟩
    refine ⟨_, hpreds, (ht.nodes m info hinfo).2, fun n => ?_⟩
    refine Iff.trans ?_ (succ_iff hg).symm
    simp [hpreds]
  · intro n m hedge
    obtain ⟨ms, hms, -⟩ := id hedge
    obtain ⟨info, hinfo, -⟩ := succs_eq_ok.1 hms
    obtain ⟨p, -, hp⟩ := Known.procOf hg ⟨info, hinfo⟩
    exact ⟨p, hp, procOf_succ hg hedge hp⟩
  · exact fun p hp => lists_of_proc hg hp (fun i P hP => (ht.procs i P hP).2.1)
      fun n => exitOf_iff hg
  · exact fun p hp => lists_of_proc hg hp hlength fun n => startOf_iff hg
  · intro p ns hns
    obtain ⟨P, hP, hns⟩ := bind_eq_ok.1 hns
    obtain ⟨i, hP, -⟩ := (proc_eq_ok hg).1 hP
    exact pure_eq_ok.1 hns ▸ hg.start_unique i P hP
  · exact fun p hp => lists_of_proc hg hp (fun i P hP => (ht.procs i P hP).2.2.1)
      fun n => mem_callers_iff hg
  · exact fun p hp => lists_of_proc hg hp (fun i P hP => (ht.procs i P hP).2.2.2)
      fun n => mem_calls_iff hg
  · exact (card_callSites hg ht).symm

end Views

namespace Tangled

/-- Edges, exit points and calls that are added twice, an edge from a node to itself, a node that
calls two procedures, and a procedure without a body. -/
def graph : Except Fault Supergraph := ofSteps
  [.proc "main" ["a", "b", "c"], .proc "p" ["s"], .declaration "q",
   .chain ["a", "b", "b", "c", "b", "c"], .exit "b", .exit "c", .call "b" "p", .call "b" "q",
   .call "b" "p", .call "s" "p"]

end Tangled

/-- The two call sites are counted once each, and the callers of `p` are both of them. -/
theorem Built.coherent_tangled : ∃ g, Tangled.graph = .ok g ∧ Built g ∧ g.Coherent ∧
    g.callSites.card = 2 ∧ g.callers "p" = .ok ["b", "s"] ∧ g.preds "b" = .ok ["a", "b", "c"] := by
  have heval : (do
      let g ← Tangled.graph
      return (g.numCallSites, ← g.callers "p", ← g.preds "b")) =
      .ok (2, ["b", "s"], ["a", "b", "c"]) := by decide +kernel
  obtain ⟨g, hgraph, heval⟩ := bind_eq_ok.1 heval
  obtain ⟨callers, hcallers, heval⟩ := bind_eq_ok.1 heval
  obtain ⟨preds, hpreds, heval⟩ := bind_eq_ok.1 heval
  obtain ⟨hnum, hrest⟩ := Prod.mk.inj (pure_eq_ok.1 heval)
  obtain ⟨rfl, rfl⟩ := Prod.mk.inj hrest
  have hbuilt := Built.ofSteps hgraph
  have hcoherent := hbuilt.coherent
  exact ⟨g, hgraph, hbuilt, hcoherent, hcoherent.numCallSites.symm.trans hnum, hcallers, hpreds⟩

end Supergraph

end Tabulation
