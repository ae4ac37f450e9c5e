import Tabulation.Proofs.Reachability

/-!
# Which facts are derived

`Derives` says what follows from the seeds without paths and without values, and wherever the seeds
are. A run derives all of it, `Complete.hasPath_of_derives`. It derives nothing else if callees are
only left through exit points that are no call sites, `Complete.derives`.

**The summary table.** What is derived does not mention the configuration, except for the zero fact.
So two runs that differ in the order of work or in how they keep summaries report the same facts,
`entries_summaryTable`, as long as no exit point is a call site. An exit point that is a call site
is never a summary in the table, but path edges at it may be read as one when there is no table.
-/

namespace Tabulation

namespace Analysis

variable {D L K : Type} {A B : Analysis D L K}

/-! ## Analyses of one problem -/

/-- Both analyses are about one problem and one graph, and treat the zero fact alike. -/
structure Agrees (A B : Analysis D L K) : Prop where
  problem : A.problem = B.problem
  graph : A.graph = B.graph
  autoAddZero : A.config.autoAddZero = B.config.autoAddZero

theorem Agrees.symm (h : A.Agrees B) : B.Agrees A :=
  ⟨h.problem.symm, h.graph.symm, h.autoAddZero.symm⟩

theorem Agrees.seedsAtStarts (h : A.Agrees B) (hA : A.SeedsAtStarts) : B.SeedsAtStarts := by
  unfold SeedsAtStarts at hA ⊢
  rwa [← h.problem, ← h.graph]

variable [DecidableEq D]

theorem Agrees.targets (h : A.Agrees B) (f : FlowFunction D) (d : D) :
    A.targets f d = B.targets f d := by
  rw [Analysis.targets, Analysis.targets, h.problem, h.autoAddZero]

theorem Inside.congr (hAB : A.Agrees B) {n m : String} {d t : D} {e : EdgeFunction L K}
    (h : A.Inside n d m t e) : B.Inside n d m t e := by
  cases h with
  | normal hno hsucc ht =>
    rw [hAB.targets] at ht
    rw [hAB.graph] at hno hsucc
    rw [hAB.problem] at ht ⊢
    exact .normal hno hsucc ht
  | bypass hcallees hne hsucc ht =>
    rw [hAB.targets] at ht
    rw [hAB.graph] at hcallees hsucc
    rw [hAB.problem] at ht ⊢
    exact .bypass hcallees hne hsucc ht
  | summary hcalls hf hsucc ht =>
    rw [hAB.targets] at ht
    rw [hAB.graph] at hcalls hsucc
    rw [hAB.problem] at hf ⊢
    exact .summary hcalls hf hsucc ht

theorem Enter.congr (hAB : A.Agrees B) {site q : String} {d t : D} {e : EdgeFunction L K}
    (h : A.Enter site d q t e) : B.Enter site d q t e := by
  cases h with
  | intro hcalls hnone ht =>
    rw [hAB.targets] at ht
    rw [hAB.graph] at hcalls
    rw [hAB.problem] at hnone ht ⊢
    exact .intro hcalls hnone ht

theorem Leave.congr (hAB : A.Agrees B) {site q x m : String} {d t : D} {e : EdgeFunction L K}
    (h : A.Leave site q x d m t e) : B.Leave site q x d m t e := by
  cases h with
  | intro hexit hno hsucc ht =>
    rw [hAB.targets] at ht
    rw [hAB.graph] at hexit hno hsucc
    rw [hAB.problem] at ht ⊢
    exact .intro hexit hno hsucc ht

theorem Derives.congr (hAB : A.Agrees B) {p n : String} {a d : D} (h : A.Derives p a n d) :
    B.Derives p a n d := by
  induction h with
  | seed hseed hp => exact .seed (hAB.problem ▸ hseed) (hAB.graph ▸ hp)
  | enter _ he hsp ih => exact .enter ih (he.congr hAB) (hAB.graph ▸ hsp)
  | inside _ he ih => exact .inside ih (he.congr hAB)
  | across _ he hsp _ he' ih ih' =>
    exact .across ih (he.congr hAB) (hAB.graph ▸ hsp) ih' (he'.congr hAB)

end Analysis

variable {D L K : Type} [Ord L] [Ord K] [JoinLattice L] [Payload K L] {A B : Analysis D L K}

theorem Setting.plain (hgraph : A.graph.Built) (hplain : A.config.computeValues = false)
    (hgc : A.config.gcMode = .disabled) : Setting A := by
  have hvalued : ¬ A.config.computeValues = true := by rw [hplain]; exact nofun
  exact ⟨hgraph.consistent, fun hv => absurd hv hvalued, .inl hgc, fun hv => absurd hv hvalued⟩

variable [Ord D] [DecidableEq D] [DecidableEq L] {s : State D L K}

/-! ## Derived facts and path edges -/

/-- All derived facts are found. -/
theorem Complete.hasPath_of_derives (h : Complete A s) {p n : String} {a d : D}
    (hd : A.Derives p a n d) : s.HasPath n a d := by
  induction hd with
  | seed hseed _ =>
    obtain ⟨job, -, -, hfact, -, hcov⟩ := h.submitted _ _ _ hseed
    exact hcov.hasPath hfact
  | enter _ he hsp ih =>
    obtain ⟨x, ψ, -, -, hx⟩ := h.crossedAs ih
    obtain ⟨c, -, -, -, -, hentry, -, hcov⟩ := hx.enter _ _ _ _ he hsp
    exact hcov.hasPath hentry
  | inside _ he ih =>
    obtain ⟨x, ψ, hsource, -, hx⟩ := h.crossedAs ih
    exact (hx.inside _ _ _ he).hasPath hsource
  | @across p q site sp exit m a b c d t e e' _ he hsp _ he' ih ih' =>
    obtain ⟨x, ψ, hsource, -, hx⟩ := h.crossedAs ih
    obtain ⟨r, hr, hrsource, hrsite, hcallee, hentry, -, -⟩ := hx.enter _ _ _ _ he hsp
    obtain ⟨y, χ, hysource, hef, hy⟩ := h.crossedAs ih'
    have heq : y.source = r.entry :=
      congrArg FactId.mk (Interner.get?_inj h.facts hysource hentry)
    obtain ⟨hexit, hno⟩ : A.graph.ExitOf q exit ∧ A.graph.isCallSite exit = .ok false := by
      cases he' with
      | intro hexit hno => exact ⟨hexit, hno⟩
    -- The callee has a summary, which was applied to the call.
    obtain ⟨ef, hsum, -⟩ := h.summary hef hy hexit hno hcallee
    rw [heq] at hsum
    obtain ⟨site', callee', exit', fact', _, _, happ⟩ := h.returned r hr _ _ _ hsum
    obtain rfl := Option.some.inj (happ.hasSite.symm.trans (hrsite ▸ hx.hasNode))
    obtain rfl := Option.some.inj (happ.hasCallee.symm.trans hcallee)
    obtain rfl := Option.some.inj (happ.hasExit.symm.trans hy.hasNode)
    obtain rfl := Option.some.inj (happ.hasFact.symm.trans hy.hasFact)
    exact (happ.leave m t e' he').hasPath (hrsource ▸ hsource)

/-- What is found is derived. -/
theorem Complete.derives (h : Complete A s) (hsealed : A.Sealed) {n : String} {a d : D}
    (hpath : s.HasPath n a d) : ∃ p, A.Derives p a n d := by
  obtain ⟨k, i, j, ef, hk, hi, hj, hef⟩ := hpath
  obtain ⟨_, node, proc, source, target, hfacts⟩ := h.paths k i j ef hef
  obtain rfl := Option.some.inj (hfacts.hasNode.symm.trans hk)
  obtain rfl := Option.some.inj (hfacts.hasSource.symm.trans hi)
  obtain rfl := Option.some.inj (hfacts.hasTarget.symm.trans hj)
  exact ⟨proc, hfacts.derives hsealed⟩

/-! ## Derived facts and entries -/

variable {σ : Type} [ValueCode σ L] [LawfulCode σ L] [Std.TransOrd D] [Std.LawfulEqOrd D]

/-- A run reports all derived facts, and no others if callees are sealed. -/
theorem Solver.entries_derived (hA : Scope A) {steps : Nat} {r : Results σ D L}
    (hsolve : solve A σ steps = .ok r) (n : String) (d : D) :
    ((∃ p a, A.Derives p a n d) → ∃ v, (n, d, v) ∈ r.entries) ∧
      (A.Sealed → (∃ v, (n, d, v) ∈ r.entries) → ∃ p a, A.Derives p a n d) := by
  obtain ⟨s, hends, hentries⟩ := exists_hasPath_iff hA hsolve
  have hs := hends.complete hA
  rw [hentries]
  constructor
  · rintro ⟨p, a, hd⟩
    exact ⟨a, hs.hasPath_of_derives hd⟩
  · rintro hsealed ⟨a, hpath⟩
    obtain ⟨p, hd⟩ := hs.derives hsealed hpath
    exact ⟨p, a, hd⟩

theorem Solver.entry_of_derives (hA : Setting A) {steps : Nat} {r : Results σ D L}
    (hsolve : solve A σ steps = .ok r) (n : String) (d : D) :
    ((∃ p a, A.Derives p a n d) → ∃ v, (n, d, v) ∈ r.entries) ∧
      (A.Sealed → (∃ v, (n, d, v) ∈ r.entries) → ∃ p a, A.Derives p a n d) :=
  entries_derived hA.scope hsolve n d

/-- Without the summary table, a run reports what it reports with the table, and nothing else if no
exit point is a call site. -/
theorem entries_summaryTable (A B : Analysis D L K) (hAB : A.Agrees B) (hgraph : A.graph.Built)
    (hA : A.config.computeValues = false) (hB : B.config.computeValues = false)
    (hgcA : A.config.gcMode = .disabled) (hgcB : B.config.gcMode = .disabled)
    (htable : A.config.useSummaryTable = true) {steps steps' : Nat} {r r' : Results σ D L}
    (hr : Solver.solve A σ steps = .ok r) (hr' : Solver.solve B σ steps' = .ok r')
    (n : String) (d : D) :
    ((∃ v, (n, d, v) ∈ r.entries) → ∃ v, (n, d, v) ∈ r'.entries) ∧
      ((∀ p x, A.graph.ExitOf p x → A.graph.isCallSite x = .ok false) →
        (∃ v, (n, d, v) ∈ r'.entries) → ∃ v, (n, d, v) ∈ r.entries) := by
  obtain ⟨hfound, hderived⟩ := Solver.entry_of_derives (.plain hgraph hA hgcA) hr n d
  obtain ⟨hfound', hderived'⟩ :=
    Solver.entry_of_derives (.plain (hAB.graph ▸ hgraph) hB hgcB) hr' n d
  constructor
  · intro hentry
    obtain ⟨p, a, hd⟩ := hderived (.inl htable) hentry
    exact hfound' ⟨p, a, hd.congr hAB⟩
  · intro hexits hentry
    obtain ⟨p, a, hd⟩ := hderived' (.inr (hAB.graph ▸ hexits)) hentry
    exact hfound ⟨p, a, hd.congr hAB.symm⟩

/-- The nodes and facts of a list of entries. -/
theorem mem_keys {α β : Type} {es : List (String × α × β)} {n : String} {d : α} :
    (n, d) ∈ es.map (fun x => (x.1, x.2.1)) ↔ ∃ v, (n, d, v) ∈ es := by
  simp

/-- The recursive procedure, with summaries read off path edges and the oldest work first. -/
def Recursion.scanning (g : Supergraph) : Analysis Nat Binary NoPayload :=
  ⟨problem.toProblem, g, { computeValues := false, useSummaryTable := false, queueOrder := .fifo }⟩

/-- The recursive procedure has no call at its exit point, so both ways to keep summaries return
the generated fact, and neither lets it hold before the call. -/
theorem entries_summaryTable_recursion :
    ∃ g r r', Recursion.graph = .ok g ∧
      Solver.solve (Recursion.analysis g) (Verbatim Binary) 40 = .ok r ∧
      Solver.solve (Recursion.scanning g) (Verbatim Binary) 40 = .ok r' ∧
      (∃ v, ("c", 1, v) ∈ r'.entries) ∧ ¬ ∃ v, ("b", 1, v) ∈ r'.entries := by
  have hrun : (do
      let g ← Recursion.graph
      let r ← Solver.solve (Recursion.analysis g) (Verbatim Binary) 40
      let r' ← Solver.solve (Recursion.scanning g) (Verbatim Binary) 40
      return (g.procs.toList.map Procedure.exitPoints, g.isCallSite "c", g.isCallSite "e",
        r.entries.map fun x : String × Nat × Binary => (x.1, x.2.1), r'.size)) =
      .ok ([["c"], ["e"]], .ok false, .ok false, [("a", 0), ("b", 0), ("c", 0), ("c", 1), ("s", 0),
        ("s", 1), ("e", 0), ("e", 1), ("t", 0), ("t", 1)], 10) := by
    set_option synthInstance.maxSize 1024 in
    decide +kernel
  simp only [bind_eq_ok, pure_eq_ok, Prod.mk.injEq] at hrun
  obtain ⟨g, hg, r, hr, r', hr', hexits, hc, he, hkeys, -⟩ := hrun
  have hiff := entries_summaryTable (Recursion.analysis g) (Recursion.scanning g) ⟨rfl, rfl, rfl⟩
    (.ofSteps hg) rfl rfl rfl rfl rfl hr hr'
  refine ⟨g, r, r', hg, hr, hr', (hiff "c" 1).1 (mem_keys.1 ?_), fun hb => ?_⟩
  · rw [hkeys]
    decide
  · have hb' := mem_keys.2 ((hiff "b" 1).2 (fun p x hx => ?_) hb)
    · rw [hkeys] at hb'
      revert hb'
      decide
    · obtain ⟨ns, hns, hx⟩ := hx.mem_exitPoints
      rw [show (Recursion.analysis g).graph = g from rfl, hexits] at hns
      simp only [List.mem_cons, List.not_mem_nil, or_false] at hns
      rcases hns with rfl | rfl <;> obtain rfl := List.mem_singleton.1 hx
      exacts [hc, he]

namespace CallAtExit

/-- `main` branches to two calls of a procedure whose exit point is a call site. -/
def graph : Except Fault Supergraph := Supergraph.ofSteps
  [.proc "main" ["a", "b1", "c1", "b2", "c2"], .chain ["a", "b1", "c1"], .chain ["a", "b2", "c2"],
   .proc "p" ["s", "x"], .edge "s" "x", .exit "x", .declaration "q", .call "b1" "p", .call "b2" "p",
   .call "x" "q"]

/-- One fact that goes everywhere but past a call. -/
def problem : ReachabilityProblem Nat where
  zero := 0
  seeds := Seeds.empty.addFact "a" 1
  normalFlow _ _ := .identity
  callFlow _ _ := .identity
  returnFlow _ _ _ _ := .identity
  bypassFlow _ _ _ := .killAll

def analysis (g : Supergraph) (useSummaryTable : Bool) : Analysis Nat Binary NoPayload :=
  ⟨problem.toProblem, g, { computeValues := false, useSummaryTable }⟩

end CallAtExit

/-- Without the table, the call that comes last returns what is known at the exit point, which is a
call site; with the table, no call returns. -/
theorem entries_summaryTable_callAtExit :
    ∃ g r r', CallAtExit.graph = .ok g ∧
      Solver.solve (CallAtExit.analysis g true) (Verbatim Binary) 40 = .ok r ∧
      Solver.solve (CallAtExit.analysis g false) (Verbatim Binary) 40 = .ok r' ∧
      (∃ v, ("c1", 1, v) ∈ r'.entries) ∧ ¬ ∃ v, ("c1", 1, v) ∈ r.entries := by
  have hrun : (do
      let g ← CallAtExit.graph
      let r ← Solver.solve (CallAtExit.analysis g true) (Verbatim Binary) 40
      let r' ← Solver.solve (CallAtExit.analysis g false) (Verbatim Binary) 40
      return (r.entries.map fun x : String × Nat × Binary => (x.1, x.2.1),
        r'.entries.map fun x : String × Nat × Binary => (x.1, x.2.1))) =
      .ok ([("a", 1), ("b1", 1), ("b2", 1), ("s", 1), ("x", 1)],
        [("a", 1), ("b1", 1), ("b2", 1), ("s", 1), ("x", 1), ("c1", 1)]) := by
    decide +kernel
  simp only [bind_eq_ok, pure_eq_ok, Prod.mk.injEq] at hrun
  obtain ⟨g, hg, r, hr, r', hr', hon, hoff⟩ := hrun
  refine ⟨g, r, r', hg, hr, hr', ?_, ?_⟩ <;> rw [← mem_keys]
  · rw [hoff]
    decide
  · rw [hon]
    decide

end Tabulation
