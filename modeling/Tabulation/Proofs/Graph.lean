import Tabulation.Supergraph
import Tabulation.Proofs.Maps
import Tabulation.Proofs.Program

/-!
# Consistent supergraphs

`Built` are the supergraphs that the building operations produce. The tables of such a graph agree:
a node knows its procedure and the procedure knows its nodes, its start and exit points and its call
sites, edges stay inside a procedure and are known at both ends, and a callee knows its callers.
`Built.consistent` states this on the tables; the lemmas after it restate it for the queries.
-/

namespace Tabulation

namespace Supergraph

/-- The supergraphs that can be built. -/
inductive Built : Supergraph → Prop
  | empty : Built empty
  | proc {g g' : Supergraph} {name : String} {nodes : List String} :
      Built g → g.addProc name nodes = .ok g' → Built g'
  | declaration {g g' : Supergraph} {name : String} :
      Built g → g.addDeclaration name = .ok g' → Built g'
  | exit {g g' : Supergraph} {name : String} : Built g → g.addExit name = .ok g' → Built g'
  | edge {g g' : Supergraph} {source target : String} :
      Built g → g.addEdge source target = .ok g' → Built g'
  | chain {g g' : Supergraph} {names : List String} :
      Built g → g.addChain names = .ok g' → Built g'
  | call {g g' : Supergraph} {site callee : String} :
      Built g → g.addCall site callee = .ok g' → Built g'

/-- A step in building a supergraph. -/
inductive Step where
  | proc (name : String) (nodes : List String)
  | declaration (name : String)
  | exit (name : String)
  | edge (source target : String)
  | chain (names : List String)
  | call (site callee : String)

def take (g : Supergraph) : Step → Except Fault Supergraph
  | .proc name nodes => g.addProc name nodes
  | .declaration name => g.addDeclaration name
  | .exit name => g.addExit name
  | .edge source target => g.addEdge source target
  | .chain names => g.addChain names
  | .call site callee => g.addCall site callee

/-- The supergraph that a list of steps builds. -/
def ofSteps (steps : List Step) : Except Fault Supergraph := steps.foldlM take empty

theorem Built.take {g g' : Supergraph} (hg : g.Built) {step : Step} (h : g.take step = .ok g') :
    g'.Built := by
  cases step with
  | proc name nodes => exact hg.proc h
  | declaration name => exact hg.declaration h
  | exit name => exact hg.exit h
  | edge source target => exact hg.edge h
  | chain names => exact hg.chain h
  | call site callee => exact hg.call h

theorem Built.ofSteps {steps : List Step} {g : Supergraph} (h : Supergraph.ofSteps steps = .ok g) :
    g.Built :=
  foldlM_ok (fun _ g => g.Built) h .empty fun _ _ _ _ _ hg hstep => hg.take hstep

/-- The tables of a supergraph agree. -/
structure Consistent (g : Supergraph) : Prop where
  index : ∀ (name : String) (i : Nat),
    g.procIndex[name]? = some i ↔ ∃ p : Procedure, g.procs[i]? = some p ∧ p.name = name
  nodes : ∀ (i : Nat) (p : Procedure) (n : String), g.procs[i]? = some p →
    (n ∈ p.nodes ↔ ∃ info : NodeInfo, g.nodes[n]? = some info ∧ info.proc = i)
  owner : ∀ (n : String) (info : NodeInfo), g.nodes[n]? = some info →
    ∃ p : Procedure, g.procs[info.proc]? = some p
  starts : ∀ (i : Nat) (p : Procedure) (n : String), g.procs[i]? = some p →
    (n ∈ p.startPoints ↔
      ∃ info : NodeInfo, g.nodes[n]? = some info ∧ info.proc = i ∧ info.isStart = true)
  start_unique : ∀ (i : Nat) (p : Procedure), g.procs[i]? = some p → p.startPoints.length ≤ 1
  exits : ∀ (i : Nat) (p : Procedure) (n : String), g.procs[i]? = some p →
    (n ∈ p.exitPoints ↔
      ∃ info : NodeInfo, g.nodes[n]? = some info ∧ info.proc = i ∧ info.isExit = true)
  succs : ∀ (n : String) (info : NodeInfo) (m : String), g.nodes[n]? = some info → m ∈ info.succs →
    ∃ info' : NodeInfo, g.nodes[m]? = some info' ∧ info'.proc = info.proc ∧ n ∈ info'.preds
  preds : ∀ (n : String) (info : NodeInfo) (m : String), g.nodes[n]? = some info → m ∈ info.preds →
    ∃ info' : NodeInfo, g.nodes[m]? = some info' ∧ n ∈ info'.succs
  calls : ∀ (i : Nat) (p : Procedure) (n : String), g.procs[i]? = some p →
    (n ∈ p.calls ↔
      ∃ info : NodeInfo, g.nodes[n]? = some info ∧ info.proc = i ∧ info.callees ≠ [])
  callers : ∀ (i : Nat) (p : Procedure) (n : String), g.procs[i]? = some p →
    (n ∈ p.callers ↔ ∃ info : NodeInfo, g.nodes[n]? = some info ∧ p.name ∈ info.callees)
  callees : ∀ (n : String) (info : NodeInfo) (q : String), g.nodes[n]? = some info →
    q ∈ info.callees → ∃ i : Nat, g.procIndex[q]? = some i

theorem node_eq_ok {g : Supergraph} {n : String} {info : NodeInfo} :
    g.node n = .ok info ↔ g.nodes[n]? = some info := by
  unfold node
  cases g.nodes[n]? <;> simp

theorem consistent_empty : Consistent empty := by
  constructor <;> simp [empty]

/-! ## Declaring a procedure -/

/-- What the nodes table holds after the nodes of a procedure were added. -/
theorem addNodes_ok {i : Nat} {isFirst : Bool} {names : List String} {g g' : Supergraph}
    (h : addNodes i isFirst names g = .ok g') :
    g'.procs = g.procs ∧ g'.procIndex = g.procIndex ∧ (∀ n ∈ names, g.nodes[n]? = none) ∧
      ∀ n, g'.nodes[n]? = if n ∈ names then
        some { proc := i, succs := [], preds := [], callees := [],
               isStart := isFirst && names.head? == some n, isExit := names.getLast? == some n }
        else g.nodes[n]? := by
  induction names generalizing isFirst g with
  | nil =>
    obtain rfl := Except.ok.inj h
    simp
  | cons a rest ih =>
    simp only [addNodes] at h
    split at h
    · cases h
    · next hnew =>
      have hnone : g.nodes[a]? = none := by
        rw [Std.TreeMap.contains_eq_isSome_getElem?] at hnew
        simpa using hnew
      obtain ⟨hp, hi, hfresh, hn⟩ := ih h
      simp only [getElem?_insert_eq] at hfresh hn
      have ha : a ∉ rest := fun hmem => by simpa using hfresh a hmem
      refine ⟨hp, hi, fun n hmem => ?_, fun n => ?_⟩
      · rcases List.mem_cons.1 hmem with rfl | hmem
        · exact hnone
        · have hne : a ≠ n := fun he => ha (he ▸ hmem)
          simpa [hne] using hfresh n hmem
      · rw [hn n]
        by_cases hmem : n ∈ rest
        · have hne : a ≠ n := fun he => ha (he ▸ hmem)
          have hrest : rest ≠ [] := List.ne_nil_of_mem hmem
          simp [hmem, hne, List.getLast?_cons, List.getLast?_eq_some_getLast hrest]
        · by_cases hna : a = n
          · subst hna
            cases rest with
            | nil => simp
            | cons b rest =>
              have hlast : (b :: rest).getLast? ≠ some a := fun hl =>
                hmem (List.mem_of_getLast? hl)
              simp [hmem, hlast, List.getLast?_cons_cons]
          · simp [hmem, hna, Ne.symm hna]

theorem Consistent.addProc {g g' : Supergraph} (hg : g.Consistent) {name : String}
    {nodes : List String} (h : g.addProc name nodes = .ok g') : g'.Consistent := by
  unfold Supergraph.addProc at h
  split at h
  · cases h
  · next hnew =>
    obtain ⟨hp, hi, hfresh, hn⟩ := addNodes_ok h
    simp only at hp hi hfresh hn
    have hnone : g.procIndex[name]? = none := by
      rw [Std.TreeMap.contains_eq_isSome_getElem?] at hnew
      simpa using hnew
    have hlt : ∀ (j : Nat) (p : Procedure), g.procs[j]? = some p → j ≠ g.procs.size :=
      fun j p hj => Nat.ne_of_lt (Array.getElem?_eq_some_iff.1 hj).1
    have hold : ∀ (n : String) (info : NodeInfo), g.nodes[n]? = some info → n ∉ nodes :=
      fun n info hinfo hmem => by rw [hfresh n hmem] at hinfo; cases hinfo
    have hother : ∀ (n : String) (info : NodeInfo), g.nodes[n]? = some info →
        info.proc ≠ g.procs.size := fun n info hinfo => by
      obtain ⟨p, hp⟩ := hg.owner n info hinfo
      exact hlt _ _ hp
    have hnot : ∀ (n : String) (info : NodeInfo), g.nodes[n]? = some info →
        name ∉ info.callees := fun n info hinfo hmem => by
      obtain ⟨i, hi⟩ := hg.callees n info name hinfo hmem
      rw [hnone] at hi
      cases hi
    -- The new procedure and its nodes are looked up apart from the old ones.
    constructor <;> simp only [hp, hi, hn, Array.getElem?_push, getElem?_insert_eq]
    · intro nm i
      by_cases hj : i = g.procs.size
      · have hno : g.procIndex[nm]? ≠ some i := fun hnm => by
          obtain ⟨p, hp, -⟩ := (hg.index nm i).1 hnm
          exact hlt i p hp hj
        by_cases hnm : name = nm <;> simp_all
      · have := hg.index nm i
        by_cases hnm : name = nm <;> grind
    · intro i p n
      have := hg.nodes i p n
      by_cases hi : i = g.procs.size <;> by_cases hn : n ∈ nodes <;> grind
    · intro n info
      have := hg.owner n info
      by_cases hn : n ∈ nodes
      · simp only [if_pos hn, Option.some.injEq]
        rintro rfl
        exact ⟨_, if_pos rfl⟩
      · grind
    · intro i p n
      have := hg.starts i p n
      have hhead : n ∈ nodes.head?.toList → n ∈ nodes := fun hmem =>
        List.mem_of_mem_head? (Option.mem_toList.1 hmem)
      by_cases hi : i = g.procs.size <;> by_cases hn : n ∈ nodes <;> grind
    · intro i p
      have := hg.start_unique i p
      by_cases hi : i = g.procs.size <;> grind
    · intro i p n
      have := hg.exits i p n
      by_cases hi : i = g.procs.size <;> by_cases hn : n ∈ nodes <;> grind
    · intro n info m
      have := hg.succs n info m
      by_cases hn : n ∈ nodes <;> grind
    · intro n info m
      have := hg.preds n info m
      by_cases hn : n ∈ nodes <;> grind
    · intro i p n
      have := hg.calls i p n
      by_cases hi : i = g.procs.size <;> by_cases hn : n ∈ nodes <;> grind
    · intro i p n
      have := hg.callers i p n
      by_cases hi : i = g.procs.size <;> by_cases hn : n ∈ nodes <;> grind
    · intro n info q
      have := hg.callees n info q
      by_cases hn : n ∈ nodes <;> grind

/-! ## Exit points, edges and calls -/

theorem Consistent.addExit {g g' : Supergraph} (hg : g.Consistent) {name : String}
    (h : g.addExit name = .ok g') : g'.Consistent := by
  unfold Supergraph.addExit at h
  rw [bind_eq_ok] at h
  obtain ⟨info, hinfo, h⟩ := h
  rw [node_eq_ok] at hinfo
  split at h
  · rw [← pure_eq_ok.1 h]
    exact hg
  · next hexit =>
    rw [← pure_eq_ok.1 h]
    constructor <;> simp only [Array.getElem?_modify, getElem?_insert_eq]
    · grind [hg.index]
    · grind [hg.nodes]
    · grind [hg.owner]
    · grind [hg.starts]
    · intro i p
      have := hg.start_unique i
      cases hp : g.procs[i]? <;> grind
    · grind [hg.exits]
    · grind [hg.succs]
    · grind [hg.preds]
    · grind [hg.calls]
    · grind [hg.callers]
    · grind [hg.callees]

theorem Consistent.addEdge {g g' : Supergraph} (hg : g.Consistent) {source target : String}
    (h : g.addEdge source target = .ok g') : g'.Consistent := by
  unfold Supergraph.addEdge at h
  rw [bind_eq_ok] at h
  obtain ⟨a, ha, h⟩ := h
  rw [bind_eq_ok] at h
  obtain ⟨b, hb, h⟩ := h
  rw [node_eq_ok] at ha hb
  split at h
  · next hproc =>
    rw [← pure_eq_ok.1 h]
    have hmem : ∀ (l : List String) (x y : String), y ∈ addName l x ↔ y ∈ l ∨ y = x := by
      intro l x y
      unfold addName
      split <;> grind
    constructor <;> simp only [getD_eq, getElem?_insert_eq]
    · exact hg.index
    · intro i p n
      have := hg.nodes i p n
      grind
    · intro n info
      have := hg.owner n
      grind
    · intro i p n
      have := hg.starts i p n
      grind
    · exact hg.start_unique
    · intro i p n
      have := hg.exits i p n
      grind
    · intro n info m
      have := hg.succs n
      grind
    · intro n info m
      have := hg.preds n
      grind
    · intro i p n
      have := hg.calls i p n
      grind
    · intro i p n
      have := hg.callers i p n
      grind
    · intro n info q
      have := hg.callees n
      grind
  · cases h

theorem Consistent.addChain {g g' : Supergraph} (hg : g.Consistent) {names : List String}
    (h : g.addChain names = .ok g') : g'.Consistent :=
  foldlM_ok (fun _ g => g.Consistent) h hg fun _ _ _ _ _ hg h => hg.addEdge h

/-- Rows of procedures keep their names, nodes, start and exit points when a call is added. -/
theorem addCall_rows {g g' : Supergraph} {site callee : String} {index : Nat} {info : NodeInfo}
    (h : (pure { g with
        nodes := g.nodes.insert site { info with callees := info.callees ++ [callee] }
        procs :=
          (if info.callees.isEmpty then
            g.procs.modify info.proc fun p => { p with calls := p.calls ++ [site] }
          else g.procs).modify index fun p => { p with callers := p.callers ++ [site] }
        numCallSites :=
          if info.callees.isEmpty then g.numCallSites + 1 else g.numCallSites } :
      Except Fault Supergraph) = .ok g') :
    ∃ (procs : Array Procedure) (num : Nat),
      g' = { g with
        nodes := g.nodes.insert site { info with callees := info.callees ++ [callee] }
        procs, numCallSites := num } ∧
      (∀ (i : Nat) (p : Procedure), procs[i]? = some p → ∃ q : Procedure, g.procs[i]? = some q ∧
        p.name = q.name ∧ p.nodes = q.nodes ∧ p.startPoints = q.startPoints ∧
        p.exitPoints = q.exitPoints ∧
        (∀ n, n ∈ p.calls ↔ n ∈ q.calls ∨ (info.callees = [] ∧ i = info.proc ∧ n = site)) ∧
        (∀ n, n ∈ p.callers ↔ n ∈ q.callers ∨ (i = index ∧ n = site))) ∧
      ∀ (i : Nat) (q : Procedure), g.procs[i]? = some q →
        ∃ p : Procedure, procs[i]? = some p ∧ p.name = q.name := by
  refine ⟨_, _, (pure_eq_ok.1 h).symm, fun i p hp => ?_, fun i q hq => ?_⟩
  · cases hq : g.procs[i]? with
    | none => split at hp <;> simp_all
    | some q =>
      refine ⟨q, rfl, ?_⟩
      split at hp <;> simp only [Array.getElem?_modify, hq] at hp <;> grind
  · split <;> simp only [Array.getElem?_modify, hq] <;> grind

theorem Consistent.addCall {g g' : Supergraph} (hg : g.Consistent) {site callee : String}
    (h : g.addCall site callee = .ok g') : g'.Consistent := by
  unfold Supergraph.addCall at h
  split at h
  · cases h
  · next index hindex =>
    rw [bind_eq_ok] at h
    obtain ⟨info, hinfo, h⟩ := h
    rw [node_eq_ok] at hinfo
    split at h
    · rw [← pure_eq_ok.1 h]
      exact hg
    · next hnew =>
      obtain ⟨pc, hpc, hname⟩ := (hg.index callee index).1 hindex
      -- Names tell procedures apart.
      have huniq : ∀ (i : Nat) (p : Procedure), g.procs[i]? = some p → p.name = callee →
          i = index :=
        fun i p hp hn => by
          have hi := (hg.index callee i).2 ⟨p, hp, hn⟩
          rw [hindex] at hi
          exact (Option.some.inj hi).symm
      obtain ⟨procs, num, rfl, hrow, hrow'⟩ := addCall_rows h
      clear h
      constructor <;> simp only [getElem?_insert_eq]
      · intro name i
        rw [hg.index]
        grind
      · intro i p n hp
        obtain ⟨q, hq, -, hnodes, -⟩ := hrow i p hp
        have := hg.nodes i q n hq
        grind
      · intro n info'
        have := hg.owner n
        grind
      · intro i p n hp
        obtain ⟨q, hq, -, -, hstarts, -⟩ := hrow i p hp
        have := hg.starts i q n hq
        grind
      · intro i p hp
        obtain ⟨q, hq, -, -, hstarts, -⟩ := hrow i p hp
        rw [hstarts]
        exact hg.start_unique i q hq
      · intro i p n hp
        obtain ⟨q, hq, -, -, -, hexits, -⟩ := hrow i p hp
        have := hg.exits i q n hq
        grind
      · intro n info' m
        have := hg.succs n
        grind
      · intro n info' m
        have := hg.preds n
        grind
      · intro i p n hp
        obtain ⟨q, hq, -, -, -, -, hcalls, -⟩ := hrow i p hp
        have := hg.calls i q n hq
        rw [hcalls]
        by_cases hn : site = n
        · subst hn
          simp only [hinfo, Option.some.injEq, exists_eq_left', if_true] at this ⊢
          by_cases hc : info.callees = [] <;> simp [this, hc, @eq_comm _ i]
        · grind
      · intro i p n hp
        obtain ⟨q, hq, hname', -, -, -, -, hcallers⟩ := hrow i p hp
        have := hg.callers i q n hq
        have := huniq i q hq
        rw [hcallers]
        grind
      · intro n info' q
        have := hg.callees n
        grind

/-- **Supergraphs that can be built are consistent.** -/
theorem Built.consistent {g : Supergraph} (h : Built g) : g.Consistent := by
  induction h with
  | empty => exact consistent_empty
  | proc _ h ih => exact ih.addProc h
  | declaration _ h ih => exact ih.addProc h
  | exit _ h ih => exact ih.addExit h
  | edge _ h ih => exact ih.addEdge h
  | chain _ h ih => exact ih.addChain h
  | call _ h ih => exact ih.addCall h

/-! ## What the queries answer -/

/-- `m` is a successor of `n`, and a return site if `n` is a call site. -/
def Succ (g : Supergraph) (n m : String) : Prop := ∃ ms, g.succs n = .ok ms ∧ m ∈ ms

/-- `n` calls `p`. -/
def Calls (g : Supergraph) (n p : String) : Prop := ∃ ps, g.callees n = .ok ps ∧ p ∈ ps

/-- `n` is the start point of `p`. -/
def StartOf (g : Supergraph) (p n : String) : Prop := ∃ ns, g.startPoints p = .ok ns ∧ n ∈ ns

/-- `n` is an exit point of `p`. -/
def ExitOf (g : Supergraph) (p n : String) : Prop := ∃ ns, g.exitPoints p = .ok ns ∧ n ∈ ns

section Queries

variable {g : Supergraph} {n m p q : String}

theorem proc_eq_ok (hg : g.Consistent) {P : Procedure} :
    g.proc p = .ok P ↔ ∃ i : Nat, g.procs[i]? = some P ∧ P.name = p := by
  unfold proc
  cases hi : g.procIndex[p]? with
  | none =>
    simp only [Option.bind_none, reduceCtorEq, false_iff]
    rintro ⟨i, hP⟩
    rw [(hg.index p i).2 ⟨P, hP⟩] at hi
    cases hi
  | some j =>
    obtain ⟨P', hP', hname⟩ := (hg.index p j).1 hi
    simp only [Option.bind_some, hP', Except.ok.injEq]
    constructor
    · rintro rfl
      exact ⟨j, hP', hname⟩
    · rintro ⟨i, hP⟩
      rw [(hg.index p i).2 ⟨P, hP⟩] at hi
      rw [Option.some.inj hi, hP'] at hP
      exact Option.some.inj hP.1

theorem procOf_eq_ok : g.procOf n = .ok p ↔
    ∃ (info : NodeInfo) (P : Procedure), g.nodes[n]? = some info ∧ g.procs[info.proc]? = some P ∧
      P.name = p := by
  unfold procOf
  rw [bind_eq_ok]
  constructor
  · rintro ⟨info, hinfo, h⟩
    rw [node_eq_ok] at hinfo
    split at h
    · next P hP => exact ⟨info, P, hinfo, hP, pure_eq_ok.1 h⟩
    · cases h
  · rintro ⟨info, P, hinfo, hP, rfl⟩
    refine ⟨info, node_eq_ok.2 hinfo, ?_⟩
    simp only [hP]
    rfl

theorem succs_eq_ok {ms : List String} :
    g.succs n = .ok ms ↔ ∃ info : NodeInfo, g.nodes[n]? = some info ∧ info.succs = ms := by
  unfold succs
  simp only [bind_eq_ok, node_eq_ok, pure_eq_ok]

theorem preds_eq_ok {ms : List String} :
    g.preds n = .ok ms ↔ ∃ info : NodeInfo, g.nodes[n]? = some info ∧ info.preds = ms := by
  unfold preds
  simp only [bind_eq_ok, node_eq_ok, pure_eq_ok]

theorem callees_eq_ok {ps : List String} :
    g.callees n = .ok ps ↔ ∃ info : NodeInfo, g.nodes[n]? = some info ∧ info.callees = ps := by
  unfold callees
  simp only [bind_eq_ok, node_eq_ok, pure_eq_ok]

theorem isCallSite_eq_ok {b : Bool} :
    g.isCallSite n = .ok b ↔
      ∃ info : NodeInfo, g.nodes[n]? = some info ∧ (!info.callees.isEmpty) = b := by
  unfold isCallSite
  simp only [bind_eq_ok, node_eq_ok, pure_eq_ok]

theorem isStart_eq_ok {b : Bool} :
    g.isStart n = .ok b ↔ ∃ info : NodeInfo, g.nodes[n]? = some info ∧ info.isStart = b := by
  unfold isStart
  simp only [bind_eq_ok, node_eq_ok, pure_eq_ok]

theorem isExit_eq_ok {b : Bool} :
    g.isExit n = .ok b ↔ ∃ info : NodeInfo, g.nodes[n]? = some info ∧ info.isExit = b := by
  unfold isExit
  simp only [bind_eq_ok, node_eq_ok, pure_eq_ok]

theorem isCallSite_iff : g.isCallSite n = .ok true ↔ ∃ p, g.Calls n p := by
  simp only [isCallSite_eq_ok, Calls, callees_eq_ok]
  constructor
  · rintro ⟨info, hinfo, h⟩
    obtain ⟨p, hp⟩ := List.exists_mem_of_ne_nil info.callees (by simpa using h)
    exact ⟨p, _, ⟨info, hinfo, rfl⟩, hp⟩
  · rintro ⟨p, _, ⟨info, hinfo, rfl⟩, hp⟩
    refine ⟨info, hinfo, ?_⟩
    simpa using List.ne_nil_of_mem hp

/-- A list of a procedure that holds its nodes with a property. -/
theorem exists_mem_proc_iff (hg : g.Consistent) {f : Procedure → List String} {Q : NodeInfo → Prop}
    (h : ∀ (i : Nat) (P : Procedure) (n : String), g.procs[i]? = some P →
      (n ∈ f P ↔ ∃ info : NodeInfo, g.nodes[n]? = some info ∧ info.proc = i ∧ Q info)) :
    (∃ ns, (do return f (← g.proc p) : Except Fault (List String)) = .ok ns ∧ n ∈ ns) ↔
      g.procOf n = .ok p ∧ ∃ info : NodeInfo, g.nodes[n]? = some info ∧ Q info := by
  simp only [bind_eq_ok, pure_eq_ok, proc_eq_ok hg, procOf_eq_ok]
  constructor
  · rintro ⟨ns, ⟨P, ⟨i, hP, rfl⟩, rfl⟩, hn⟩
    obtain ⟨info, hinfo, rfl, hs⟩ := (h i P n hP).1 hn
    exact ⟨⟨info, P, hinfo, hP, rfl⟩, info, hinfo, hs⟩
  · rintro ⟨⟨info, P, hinfo, hP, rfl⟩, info', hinfo', hs⟩
    rw [hinfo] at hinfo'
    obtain rfl := Option.some.inj hinfo'
    exact ⟨_, ⟨P, ⟨_, hP, rfl⟩, rfl⟩, (h _ P n hP).2 ⟨info, hinfo, rfl, hs⟩⟩

theorem startOf_iff (hg : g.Consistent) :
    g.StartOf p n ↔ g.procOf n = .ok p ∧ g.isStart n = .ok true := by
  rw [isStart_eq_ok]
  exact exists_mem_proc_iff hg hg.starts

theorem exitOf_iff (hg : g.Consistent) :
    g.ExitOf p n ↔ g.procOf n = .ok p ∧ g.isExit n = .ok true := by
  rw [isExit_eq_ok]
  exact exists_mem_proc_iff hg hg.exits

theorem mem_nodesOf_iff (hg : g.Consistent) :
    (∃ ns, g.nodesOf p = .ok ns ∧ n ∈ ns) ↔ g.procOf n = .ok p := by
  refine (exists_mem_proc_iff (Q := fun _ => True) hg fun i P n hP => ?_).trans ?_
  · simpa using hg.nodes i P n hP
  · refine and_iff_left_of_imp fun h => ?_
    obtain ⟨info, P, hinfo, -⟩ := procOf_eq_ok.1 h
    exact ⟨info, hinfo, trivial⟩

theorem mem_calls_iff (hg : g.Consistent) :
    (∃ ns, g.calls p = .ok ns ∧ n ∈ ns) ↔ g.procOf n = .ok p ∧ g.isCallSite n = .ok true := by
  rw [isCallSite_eq_ok]
  refine (exists_mem_proc_iff hg hg.calls).trans (and_congr_right fun _ => ?_)
  simp

theorem exists_startOf (hg : g.Consistent) (h : g.isStart n = .ok true) : ∃ p, g.StartOf p n := by
  obtain ⟨info, hinfo, -⟩ := isStart_eq_ok.1 h
  obtain ⟨P, hP⟩ := hg.owner n info hinfo
  exact ⟨P.name, (startOf_iff hg).2 ⟨procOf_eq_ok.2 ⟨info, P, hinfo, hP, rfl⟩, h⟩⟩

theorem StartOf.unique (hg : g.Consistent) (hn : g.StartOf p n) (hm : g.StartOf p m) : n = m := by
  obtain ⟨ns, hns, hn⟩ := hn
  obtain ⟨ms, hms, hm⟩ := hm
  obtain rfl := Except.ok.inj (hns.symm.trans hms)
  simp only [startPoints, bind_eq_ok, pure_eq_ok, proc_eq_ok hg] at hns
  obtain ⟨P, ⟨i, hP, rfl⟩, rfl⟩ := hns
  -- a list of at most one element
  cases hs : P.startPoints with
  | nil => simp [hs] at hn
  | cons a rest =>
    have hlen := hg.start_unique i P hP
    rw [hs] at hn hm hlen
    obtain rfl : rest = [] := List.eq_nil_of_length_eq_zero (by simpa using hlen)
    rw [List.mem_singleton.1 hn, List.mem_singleton.1 hm]

theorem ExitOf.mem_exitPoints (h : g.ExitOf p n) :
    ∃ ns ∈ g.procs.toList.map (·.exitPoints), n ∈ ns := by
  obtain ⟨ns, hns, hn⟩ := h
  rw [exitPoints, bind_eq_ok] at hns
  obtain ⟨P, hP, hns⟩ := hns
  obtain rfl := pure_eq_ok.1 hns
  unfold proc at hP
  split at hP
  · next hget =>
    obtain ⟨i, -, hi⟩ := Option.bind_eq_some_iff.1 hget
    obtain rfl := Except.ok.inj hP
    exact ⟨_, List.mem_map_of_mem (Array.mem_toList_iff.2 (Array.mem_of_getElem? hi)), hn⟩
  · cases hP

theorem ExitOf.unique (hg : g.Consistent) (hp : g.ExitOf p n) (hq : g.ExitOf q n) : p = q :=
  Except.ok.inj (((exitOf_iff hg).1 hp).1.symm.trans ((exitOf_iff hg).1 hq).1)

theorem callers_of_calls (hg : g.Consistent) (h : g.Calls n p) :
    ∃ ns, g.callers p = .ok ns ∧ n ∈ ns := by
  obtain ⟨ps, hps, hp⟩ := h
  obtain ⟨info, hinfo, rfl⟩ := callees_eq_ok.1 hps
  obtain ⟨i, hi⟩ := hg.callees n info p hinfo hp
  obtain ⟨P, hP, rfl⟩ := (hg.index p i).1 hi
  refine ⟨P.callers, ?_, (hg.callers i P n hP).2 ⟨info, hinfo, hp⟩⟩
  simp only [callers, bind_eq_ok, pure_eq_ok, proc_eq_ok hg]
  exact ⟨P, ⟨i, hP, rfl⟩, rfl⟩

theorem mem_preds (hg : g.Consistent) (h : g.Succ n m) {ms : List String}
    (hm : g.preds m = .ok ms) : n ∈ ms := by
  obtain ⟨ns, hns, hmem⟩ := h
  obtain ⟨info, hinfo, rfl⟩ := succs_eq_ok.1 hns
  obtain ⟨info', hinfo', rfl⟩ := preds_eq_ok.1 hm
  obtain ⟨info'', hinfo'', -, hpred⟩ := hg.succs n info m hinfo hmem
  rw [hinfo'] at hinfo''
  obtain rfl := Option.some.inj hinfo''
  exact hpred

theorem procOf_succ (hg : g.Consistent) (h : g.Succ n m) (hn : g.procOf n = .ok p) :
    g.procOf m = .ok p := by
  obtain ⟨ms, hms, hm⟩ := h
  obtain ⟨info, hinfo, rfl⟩ := succs_eq_ok.1 hms
  obtain ⟨info', P, hinfo', hP, hname⟩ := procOf_eq_ok.1 hn
  rw [hinfo] at hinfo'
  obtain rfl := Option.some.inj hinfo'
  obtain ⟨info'', hinfo'', hproc, -⟩ := hg.succs n info m hinfo hm
  exact procOf_eq_ok.2 ⟨info'', P, hinfo'', by rw [hproc, hP], hname⟩

/-! ### Queries about declared names return -/

/-- A node of the program. -/
def Known (g : Supergraph) (n : String) : Prop := ∃ info : NodeInfo, g.nodes[n]? = some info

/-- The nodes of the program. -/
def names (g : Supergraph) : Finset String := g.nodes.keys.toFinset

theorem mem_names : n ∈ g.names ↔ g.Known n := by
  rw [names, List.mem_toFinset, Std.TreeMap.mem_keys, Std.TreeMap.mem_iff_isSome_getElem?,
    Option.isSome_iff_exists, Known]

theorem card_names_le (g : Supergraph) : g.names.card ≤ g.nodes.size :=
  Nat.le_trans (List.toFinset_card_le _) (Nat.le_of_eq Std.TreeMap.length_keys)

theorem mem_procNames : p ∈ g.procNames ↔ ∃ (i : Nat) (P : Procedure),
    g.procs[i]? = some P ∧ P.name = p := by
  rw [procNames, Array.toList_map, List.mem_map]
  constructor
  · rintro ⟨P, hP, hname⟩
    obtain ⟨i, hi⟩ := List.mem_iff_getElem?.1 hP
    exact ⟨i, P, by simpa using hi, hname⟩
  · rintro ⟨i, P, hi, hname⟩
    exact ⟨P, List.mem_iff_getElem?.2 ⟨i, by simpa using hi⟩, hname⟩

theorem Known.procOf (hg : g.Consistent) (hn : g.Known n) :
    ∃ p ∈ g.procNames, g.procOf n = .ok p := by
  obtain ⟨info, hinfo⟩ := hn
  obtain ⟨P, hP⟩ := hg.owner n info hinfo
  exact ⟨P.name, mem_procNames.2 ⟨_, P, hP, rfl⟩, procOf_eq_ok.2 ⟨info, P, hinfo, hP, rfl⟩⟩

theorem Known.succs (hg : g.Consistent) (hn : g.Known n) :
    ∃ ms, g.succs n = .ok ms ∧ ∀ m ∈ ms, g.Known m := by
  obtain ⟨info, hinfo⟩ := hn
  refine ⟨info.succs, succs_eq_ok.2 ⟨info, hinfo, rfl⟩, fun m hm => ?_⟩
  obtain ⟨info', hinfo', -⟩ := hg.succs n info m hinfo hm
  exact ⟨info', hinfo'⟩

theorem Known.preds (hg : g.Consistent) (hn : g.Known n) :
    ∃ ms, g.preds n = .ok ms ∧ ∀ m ∈ ms, g.Known m := by
  obtain ⟨info, hinfo⟩ := hn
  refine ⟨info.preds, preds_eq_ok.2 ⟨info, hinfo, rfl⟩, fun m hm => ?_⟩
  obtain ⟨info', hinfo', -⟩ := hg.preds n info m hinfo hm
  exact ⟨info', hinfo'⟩

theorem Known.callees (hg : g.Consistent) (hn : g.Known n) :
    ∃ ps, g.callees n = .ok ps ∧ ∀ p ∈ ps, p ∈ g.procNames := by
  obtain ⟨info, hinfo⟩ := hn
  refine ⟨info.callees, callees_eq_ok.2 ⟨info, hinfo, rfl⟩, fun p hp => ?_⟩
  obtain ⟨i, hi⟩ := hg.callees n info p hinfo hp
  obtain ⟨P, hP, rfl⟩ := (hg.index p i).1 hi
  exact mem_procNames.2 ⟨i, P, hP, rfl⟩

theorem Known.isCallSite (hn : g.Known n) : ∃ b, g.isCallSite n = .ok b :=
  hn.elim fun info hinfo => ⟨_, isCallSite_eq_ok.2 ⟨info, hinfo, rfl⟩⟩

theorem Known.isExit (hn : g.Known n) : ∃ b, g.isExit n = .ok b :=
  hn.elim fun info hinfo => ⟨_, isExit_eq_ok.2 ⟨info, hinfo, rfl⟩⟩

theorem Known.isStart (hn : g.Known n) : ∃ b, g.isStart n = .ok b :=
  hn.elim fun info hinfo => ⟨_, isStart_eq_ok.2 ⟨info, hinfo, rfl⟩⟩

theorem known_of_procOf (h : g.procOf n = .ok p) : g.Known n := by
  obtain ⟨info, -, hinfo, -⟩ := procOf_eq_ok.1 h
  exact ⟨info, hinfo⟩

theorem startPoints_total (hg : g.Consistent) (hp : p ∈ g.procNames) :
    ∃ ns, g.startPoints p = .ok ns ∧ ∀ n ∈ ns, g.Known n := by
  obtain ⟨i, P, hP, hname⟩ := mem_procNames.1 hp
  have hns : g.startPoints p = .ok P.startPoints :=
    bind_eq_ok.2 ⟨P, (proc_eq_ok hg).2 ⟨i, hP, hname⟩, rfl⟩
  exact ⟨P.startPoints, hns, fun n hn => known_of_procOf ((startOf_iff hg).1 ⟨_, hns, hn⟩).1⟩

theorem exitPoints_total (hg : g.Consistent) (hp : p ∈ g.procNames) :
    ∃ ns, g.exitPoints p = .ok ns ∧ ∀ n ∈ ns, g.Known n := by
  obtain ⟨i, P, hP, hname⟩ := mem_procNames.1 hp
  have hns : g.exitPoints p = .ok P.exitPoints :=
    bind_eq_ok.2 ⟨P, (proc_eq_ok hg).2 ⟨i, hP, hname⟩, rfl⟩
  exact ⟨P.exitPoints, hns, fun n hn => known_of_procOf ((exitOf_iff hg).1 ⟨_, hns, hn⟩).1⟩

theorem nodesOf_total (hg : g.Consistent) (hp : p ∈ g.procNames) :
    ∃ ns, g.nodesOf p = .ok ns ∧ ∀ n ∈ ns, g.Known n := by
  obtain ⟨i, P, hP, hname⟩ := mem_procNames.1 hp
  have hns : g.nodesOf p = .ok P.nodes :=
    bind_eq_ok.2 ⟨P, (proc_eq_ok hg).2 ⟨i, hP, hname⟩, rfl⟩
  exact ⟨P.nodes, hns, fun n hn => known_of_procOf ((mem_nodesOf_iff hg).1 ⟨_, hns, hn⟩)⟩

theorem calls_total (hg : g.Consistent) (hp : p ∈ g.procNames) : ∃ ns, g.calls p = .ok ns := by
  obtain ⟨i, P, hP, hname⟩ := mem_procNames.1 hp
  exact ⟨P.calls, bind_eq_ok.2 ⟨P, (proc_eq_ok hg).2 ⟨i, hP, hname⟩, rfl⟩⟩

end Queries

end Supergraph

end Tabulation
