import Tabulation.Proofs.Solver.Rounds
import Tabulation.Solver.Solve

/-!
# The tables at the end of fact propagation

When fact propagation ends, nothing is pending. `Complete A s` says what that means: every path edge
is crossed, every call is returned and receives values, and every seed is submitted. What is dropped
and freed before values are computed does not matter for this.

**Coverage.** The label of a path edge covers every path at its level, `Complete.covered`, and every
procedure that a path enters was entered, `Complete.started`.

**Exactness.** If the run is precise, path edges and recorded calls stand for paths, `Exactly`.
Entered procedures are entered by paths, `Entered.enters`.
-/

namespace Tabulation

variable {D L K : Type} [Ord D] [Ord L] [Ord K] [JoinLattice L] [Payload K L]
  {A : Analysis D L K} {s s' : State D L K}

theorem Covered.weaken {n : String} {i : FactId} {d : D} {φ φ' : L → L} (h : Covered A s n i d φ)
    (hle : A.Valued → ∀ v, Below (φ' v) (φ v)) : Covered A s n i d φ' := by
  obtain ⟨m, b, ef, hm, hb, hef, hcov⟩ := h
  refine ⟨m, b, ef, hm, hb, hef, fun hv => ?_⟩
  have := hv.2.join
  obtain ⟨ψ, hψ, hφ⟩ := hcov hv
  exact ⟨ψ, hψ, fun v => (hle hv v).trans (hφ v)⟩

variable [DecidableEq D]

/-- Labels are exact: path edges and recorded calls stand for paths. -/
structure Exactly (A : Analysis D L K) (s : State D L K) : Prop where
  seeds : A.SeedsAtStarts
  paths : ∀ n i j ef node p a b, s.paths.get? n i j = some ef → s.HasNode n node →
    s.HasFact i a → s.HasFact j b → A.graph.procOf node = .ok p →
    A.Exact s.store ef (A.SameLevel p a node b)
  records : ∀ c ∈ s.ledger, ∀ site caller callee a b, s.HasNode c.site site →
    s.HasFact c.source a → s.HasProc c.callee callee → s.HasFact c.entry b →
    A.graph.procOf site = .ok caller → A.Exact s.store c.edge (A.CallPath caller a site callee b)

/-- Where labels are exact, procedures are only entered along paths. -/
theorem Entered.enters (hA : Scope A) (h : Exactly A s) {p : String} {a : D}
    (he : Entered A s p a) : ∃ cs u, A.Enters cs p a u := by
  induction he with
  | seed hseed hproc =>
    exact ⟨[], _, .seed hseed ((Supergraph.startOf_iff hA.graph).2 ⟨hproc, h.seeds _ hseed⟩)⟩
  | call _ hproc hpath he hs ih =>
    obtain ⟨cs, u, henters⟩ := ih
    obtain ⟨n, i, j, ef, hn, hi, hj, hef⟩ := hpath
    obtain ⟨⟨φ, hlevel⟩, -⟩ := h.paths n i j ef _ _ _ _ hef hn hi hj hproc
    exact ⟨_, _, henters.call hlevel he hs⟩

variable [DecidableEq L]

/-- Everything in the tables makes sense, and everything that follows from it is there. -/
structure Complete (A : Analysis D L K) (s : State D L K) : Prop where
  nodes : s.nodes.Wf
  facts : s.facts.Wf
  procs : s.procs.Wf
  regular : s.store.Regular
  paths : ∀ n a b ef, s.paths.get? n a b = some ef →
    ∃ p node proc source target, PathKnown A s ⟨n, a, b, ef⟩ p node proc source target
  summaries : ∀ p e x d ef, s.summaries.get? p e x d = some ef →
    (∃ proc exit entry fact, SummaryKnown A s p e x d ef proc exit entry fact) ∧
      Backed A s ⟨x, e, d, ef⟩
  ledger : s.ledger.Wf
  records : ∀ c ∈ s.ledger, ∃ site caller callee source entry,
    RecordKnown A s c site caller callee source entry
  forward : ∀ a n, ∀ c ∈ s.ledger.callsFrom a n, c ∈ s.ledger ∧ c.source = a ∧ c.site = n
  reached : ∀ n b : UInt32, s.reached.contains (pack n b) = true ↔
    ∃ a ef, s.paths.get? ⟨n⟩ a ⟨b⟩ = some ef
  seeds : ∀ job ∈ s.seeds, ∃ sp a, s.HasNode job.node sp ∧ s.HasFact job.fact a ∧
    (sp, a, job.value) ∈ A.problem.seeds.toList
  drained : s.queue.toList = []
  crossed : ∀ n a b ef, s.paths.get? n a b = some ef → Crossed A s ⟨n, a, b, ef⟩
  returned : ∀ c ∈ s.ledger, Returned A s c
  attached : ∀ c ∈ s.ledger, A.config.computeValues = true →
    c ∈ s.ledger.callsFrom c.source c.site
  submitted : ∀ sp a v, (sp, a, v) ∈ A.problem.seeds.toList → Submitted A s sp a v

theorem Ready.complete {W : ProcId → FactId → Prop} (h : Ready A W s) (hdone : s.stage = .done) :
    Complete A s := by
  have hstage := h.stage
  simp only [StageOk, hdone] at hstage
  obtain ⟨hkeys, hqueue⟩ := hstage
  have hnone : ∀ e q, ¬ PendingKey s e q := by
    intro e q hk
    simp [PendingKey, hkeys, hdone] at hk
  have hreturned : ∀ e q, ∀ c ∈ s.ledger.callsInto e q, Returned A s c := fun e q c hc =>
    ((h.calls e q c hc).resolve_left id).resolve_left (hnone e q)
  exact {
    nodes := h.inv.nodes
    facts := h.inv.facts
    procs := h.inv.procs
    regular := h.inv.store
    paths := fun n a b ef hef => by
      obtain ⟨p, node, proc, source, target, hp⟩ := h.inv.paths n a b ef hef
      exact ⟨p, node, proc, source, target, hp.toPathKnown⟩
    summaries := fun p e x d ef hef => by
      obtain ⟨⟨proc, exit, entry, fact, hs⟩, hback⟩ := h.inv.summaries p e x d ef hef
      exact ⟨⟨proc, exit, entry, fact, hs.toSummaryKnown⟩, hback⟩
    ledger := h.inv.ledger
    records := fun c hc => by
      obtain ⟨site, caller, callee, source, entry, hr⟩ := h.inv.records c hc
      exact ⟨site, caller, callee, source, entry, hr.toRecordKnown⟩
    forward := h.inv.forward
    reached := h.inv.reached
    seeds := h.inv.seeds
    drained := hqueue
    crossed := fun n a b ef hef => by
      refine ((h.paths n a b ef hef).resolve_left id).resolve_left fun hx => ?_
      rw [hqueue] at hx
      cases hx
    returned := fun c hc => (h.attached c hc).2.elim (hreturned _ _ c) And.right
    attached := fun c hc => (h.attached c hc).1
    submitted := h.submitted (by simp [hdone]) }

/-- In a precise run, labels are exact. -/
theorem Inv.exactly (h : Inv A s) (hp : Precise A s) : Exactly A s where
  seeds := hp.seeds
  paths n i j ef node p a b hef hn hi hj hproc := by
    obtain ⟨_, _, _, _, _, hpath⟩ := h.paths n i j ef hef
    obtain rfl := Option.some.inj (hpath.hasNode.symm.trans hn)
    obtain rfl := Option.some.inj (hpath.hasSource.symm.trans hi)
    obtain rfl := Option.some.inj (hpath.hasTarget.symm.trans hj)
    obtain rfl := Except.ok.inj (hpath.procOf.symm.trans hproc)
    exact hpath.exact hp
  records c hc site caller callee a b hn ha hq hb hproc := by
    obtain ⟨_, _, _, _, _, hrec⟩ := h.records c hc
    obtain rfl := Option.some.inj (hrec.hasSite.symm.trans hn)
    obtain rfl := Option.some.inj (hrec.hasSource.symm.trans ha)
    obtain rfl := Option.some.inj (hrec.hasCallee.symm.trans hq)
    obtain rfl := Option.some.inj (hrec.hasEntry.symm.trans hb)
    obtain rfl := Except.ok.inj (hrec.procOf.symm.trans hproc)
    exact hrec.exact hp

/-- Answers, queues and waiting lists are no longer needed. -/
theorem Complete.update (h : Complete A s) {answers : Answers D}
    {ledger : CallLedger} {queue : Worklist PathEdge} {callQueue : CallQueue} {stats : Stats}
    (hledger : s.ledger.Forgets ledger) (hqueue : queue.toList = []) :
    Complete A { s with answers, ledger, queue, callQueue, stats } := by
  have hmem : ∀ c, c ∈ ledger ↔ c ∈ s.ledger := hledger.mem_iff
  have hfrom : ∀ a n, ledger.callsFrom a n = s.ledger.callsFrom a n := hledger.callsFrom
  have hg : s.Grows { s with answers, ledger, queue, callQueue, stats } :=
    { State.Grows.refl s with }
  have hlater : Later A s { s with answers, ledger, queue, callQueue, stats } :=
    .of_grows hg rfl rfl fun c hc => (hmem c).2 hc
  exact {
    nodes := h.nodes
    facts := h.facts
    procs := h.procs
    regular := h.regular
    paths := fun n a b ef hef => by
      obtain ⟨p, node, proc, source, target, hp⟩ := h.paths n a b ef hef
      exact ⟨p, node, proc, source, target, hp.mono hg⟩
    summaries := fun p e x d ef hef => by
      obtain ⟨⟨proc, exit, entry, fact, hs⟩, hback⟩ := h.summaries p e x d ef hef
      exact ⟨⟨proc, exit, entry, fact, hs.mono hg⟩, hback⟩
    ledger := hledger.wf h.ledger
    records := fun c hc => by
      obtain ⟨site, caller, callee, source, entry, hr⟩ := h.records c ((hmem c).1 hc)
      exact ⟨site, caller, callee, source, entry, hr.mono hg⟩
    forward := fun a n c hc => by
      rw [hfrom] at hc
      exact (h.forward a n c hc).imp_left (hmem c).2
    reached := h.reached
    seeds := h.seeds
    drained := hqueue
    crossed := fun n a b ef hef => (h.crossed n a b ef hef).later hlater fun _ _ hψ => hψ
    returned := fun c hc => (h.returned c ((hmem c).1 hc)).later hlater
      (fun x d ef hef => hef.congr rfl rfl rfl rfl fun hmem => by
        rw [h.drained] at hmem
        cases hmem)
      (fun _ _ hψ => hψ) fun _ _ _ _ _ _ hψ => hψ
    attached := fun c hc hv => by
      rw [hfrom]
      exact h.attached c ((hmem c).1 hc) hv
    submitted := fun sp a v hseed => (h.submitted sp a v hseed).later hlater fun _ hjob => hjob }

theorem Complete.swept (h : Complete A s) (hs : Solver.Swept A s s') :
    Complete A s' := by
  have hlater := hs.later h.ledger
  have hpaths : ∀ n a b ef, s.paths.get? n a b = some ef → ∃ p node proc source target,
      PathKnown A s' ⟨n, a, b, ef⟩ p node proc source target := fun n a b ef hef => by
    obtain ⟨p, node, proc, source, target, hp⟩ := h.paths n a b ef hef
    exact ⟨p, node, proc, source, target, hs.pathKnown (Solver.path_mem_edgeRoots hef) hp⟩
  have hsummaries : ∀ p e x d ef, s.summaries.get? p e x d = some ef →
      (∃ proc exit entry fact, SummaryKnown A s' p e x d ef proc exit entry fact) ∧
        Backed A s' ⟨x, e, d, ef⟩ := fun p e x d ef hef => by
    have hroot := Solver.summary_mem_edgeRoots hef
    obtain ⟨⟨proc, exit, entry, fact, hk⟩, hback⟩ := h.summaries p e x d ef hef
    exact ⟨⟨proc, exit, entry, fact, hs.summaryKnown hroot hk⟩,
      hs.backed h.ledger hroot hk.labelled hback⟩
  have hrecords : ∀ c ∈ s.ledger, ∃ site caller callee source entry,
      RecordKnown A s' c site caller callee source entry := fun c hc => by
    obtain ⟨site, caller, callee, source, entry, hr⟩ := h.records c hc
    exact ⟨site, caller, callee, source, entry,
      hs.recordKnown (Solver.record_mem_edgeRoots h.ledger hc) hr⟩
  have hcrossed : ∀ n a b ef, s.paths.get? n a b = some ef → Crossed A s' ⟨n, a, b, ef⟩ :=
    fun n a b ef hef => hs.crossed h.ledger hef (h.crossed n a b ef hef)
  have hreturned : ∀ c ∈ s.ledger, Returned A s' c := fun c hc =>
    hs.returned h.ledger hc (h.returned c hc)
  have hregular := hs.regular
  obtain ⟨store, rfl⟩ : ∃ store, s' = { s with store, answers := s.answers.clearEdges } :=
    ⟨_, hs.same⟩
  exact {
    nodes := h.nodes
    facts := h.facts
    procs := h.procs
    regular := hregular
    paths := hpaths
    summaries := hsummaries
    ledger := h.ledger
    records := hrecords
    forward := h.forward
    reached := h.reached
    seeds := h.seeds
    drained := h.drained
    crossed := hcrossed
    returned := hreturned
    attached := h.attached
    submitted := fun sp a v hseed => (h.submitted sp a v hseed).later hlater fun _ hjob => hjob }

/-- Sweeping keeps labels exact. -/
theorem Exactly.swept (h : Exactly A s) (hled : s.ledger.Wf) {s' : State D L K}
    (hs : Solver.Swept A s s') : Exactly A s' := by
  have hexact : ∀ ef ∈ Solver.edgeRoots s, ∀ F, A.Exact s.store ef F → A.Exact s'.store ef F :=
    fun _ hef _ => hs.exact hef
  obtain ⟨store, rfl⟩ : ∃ store, s' = { s with store, answers := s.answers.clearEdges } :=
    ⟨_, hs.same⟩
  exact ⟨h.seeds,
    fun n i j ef node p a b hef hn hi hj hproc => hexact ef (Solver.path_mem_edgeRoots hef) _
      (h.paths n i j ef node p a b hef hn hi hj hproc),
    fun c hc site caller callee a b hn ha hq hb hproc =>
      hexact _ (Solver.record_mem_edgeRoots hled hc) _
        (h.records c hc site caller callee a b hn ha hq hb hproc)⟩

/-! ## Coverage of paths -/

section Coverage

variable {n m p : String} {i : FactId} {a d : D} {φ φ' : L → L}

/-- What is covered was crossed. -/
theorem Complete.cross (h : Complete A s) (hc : Covered A s n i d φ) :
    ∃ x ψ, x.source = i ∧ s.paths.get? x.node x.source x.target = some x.edge ∧
      CrossedAs A s x n d ψ ∧ (A.Valued → ∀ v, Below (φ v) (ψ v)) := by
  obtain ⟨k, b, ef, hk, hb, hef, hcov⟩ := hc
  obtain ⟨node, fact, ψ, hx⟩ := h.crossed k i b ef hef
  obtain rfl := Option.some.inj (hx.hasNode.symm.trans hk)
  obtain rfl := Option.some.inj (hx.hasFact.symm.trans hb)
  refine ⟨_, ψ, rfl, hef, hx, fun hv => ?_⟩
  obtain ⟨ψ', hψ', hle⟩ := hcov hv
  rwa [(hx.label hv).unique hψ']

/-- The start point of a procedure is covered for an entry fact. -/
def StartCovered (A : Analysis D L K) (s : State D L K) (p : String) (i : FactId) (a : D) : Prop :=
  s.HasFact i a ∧ ∀ sp, A.graph.StartOf p sp → Covered A s sp i a id

/-- A covered path that takes a call was recorded, and covers the start of the callee. -/
theorem Complete.enter (hA : Scope A) (h : Complete A s) (hc : Covered A s n i d φ) {q sp : String}
    {t : D} {e : EdgeFunction L K} (he : A.Enter n d q t e) (hsp : A.graph.StartOf q sp) :
    ∃ c ∈ s.ledger, ∃ ψ, c.source = i ∧ s.HasNode c.site n ∧ s.HasProc c.callee q ∧
      StartCovered A s q c.entry t ∧
      (A.Valued → s.store.Means c.edge (e.apply ∘ ψ) ∧
        ∀ v, Below (φ v) (ψ v)) := by
  obtain ⟨x, ψ, hsource, -, hx, hle⟩ := h.cross hc
  obtain ⟨c, hmem, hsrc, hsite, hcallee, hentry, hmeans, hcov⟩ := hx.enter q t e sp he hsp
  refine ⟨c, hmem, ψ, hsrc.trans hsource, hsite ▸ hx.hasNode, hcallee, ⟨hentry, fun sp' hsp' => ?_⟩,
    fun hv => ⟨hmeans hv, hle hv⟩⟩
  rw [hsp'.unique hA.graph hsp]
  exact hcov

/-- A path edge at an exit point has a summary. -/
theorem Complete.summary (h : Complete A s) {x : PathEdge} {ψ : L → L}
    (hef : s.paths.get? x.node x.source x.target = some x.edge) (hx : CrossedAs A s x n d ψ)
    {q : String} (hexit : A.graph.ExitOf q n) (hno : A.graph.isCallSite n = .ok false) {j : ProcId}
    (hj : s.HasProc j q) :
    ∃ ef, Summary A s j x.source x.node x.target ef ∧ A.Covers s.store ef ψ := by
  by_cases hu : A.config.useSummaryTable = true
  · obtain ⟨j', ef, hj', hsum, hcov⟩ := hx.leave hu q hexit hno
    obtain rfl : j' = j := congrArg ProcId.mk (Interner.get?_inj h.procs hj' hj)
    exact ⟨ef, .table hu hsum, hcov⟩
  · refine ⟨x.edge, .path hu ⟨q, n, hj, hx.hasNode, hexit, hno⟩ hef ?_, fun hv => ?_⟩
    · rw [h.drained]
      exact List.not_mem_nil
    · have := hv.2.join
      exact ⟨ψ, hx.label hv, fun v => Below.refl _⟩

/-- Labels cover all paths at their level. -/
theorem Complete.covered (hA : Scope A) (hmono : A.config.computeValues = true → A.Monotone)
    (h : Complete A s) (hpath : A.SameLevel p a n d φ)
    (hstart : StartCovered A s p i a) : Covered A s n i d φ := by
  induction hpath generalizing i with
  | start hs => exact hstart.2 _ hs
  | @inside _ _ _ _ _ _ φ e _ he ih =>
    obtain ⟨x, ψ, rfl, -, hx, hle⟩ := h.cross (ih hstart)
    exact (hx.inside _ _ _ he).weaken fun hv v => hmono hv.1 _ he.edgeOf _ _ (hle hv v)
  | @across _ q site exit m _ _ c d t φ ψ e₁ e₂ _ he₁ hcallee he₂ ih₁ ih₂ =>
    obtain ⟨sp, hsp⟩ := hcallee.exists_start
    obtain ⟨r, hr, φ', rfl, hsite, hproc, hentry, hcall⟩ := h.enter hA (ih₁ hstart) he₁ hsp
    obtain ⟨x, ψ', hsource, hef, hx, hle⟩ := h.cross (ih₂ hentry)
    obtain ⟨hexit, hno⟩ : A.graph.ExitOf q exit ∧ A.graph.isCallSite exit = .ok false := by
      cases he₂ with
      | intro hexit hno => exact ⟨hexit, hno⟩
    -- The callee has a summary that covers its path, and it was applied to the call.
    obtain ⟨ef, hsum, hcov⟩ := h.summary hef hx hexit hno hproc
    rw [hsource] at hsum
    obtain ⟨site', callee', exit', fact', χ, σ, happ⟩ := h.returned r hr _ _ _ hsum
    obtain rfl := Option.some.inj (happ.hasSite.symm.trans hsite)
    obtain rfl := Option.some.inj (happ.hasCallee.symm.trans hproc)
    obtain rfl := Option.some.inj (happ.hasExit.symm.trans hx.hasNode)
    obtain rfl := Option.some.inj (happ.hasFact.symm.trans hx.hasFact)
    refine (happ.leave m t e₂ he₂).weaken fun hv v => ?_
    have := hv.2.join
    have hmono := hmono hv.1
    obtain ⟨hmeans, hle₁⟩ := hcall hv
    obtain rfl := (happ.call hv).unique hmeans
    obtain ⟨σ', hσ', hle₂⟩ := hcov hv
    obtain rfl := (happ.summary hv).unique hσ'
    have hin : Below (ψ (e₁.apply (φ v))) (ψ (e₁.apply (φ' v))) :=
      hcallee.respects hmono _ _ (hmono _ he₁.edgeOf _ _ (hle₁ v))
    exact hmono _ he₂.edgeOf _ _ (hin.trans ((hle hv _).trans (hle₂ _)))

/-- Every procedure that a path enters was entered. -/
theorem Complete.started (hA : Scope A) (hmono : A.config.computeValues = true → A.Monotone)
    (h : Complete A s) {cs : List (String × String)} {u : L}
    (hpath : A.Enters cs p a u) : ∃ i, StartCovered A s p i a := by
  induction hpath with
  | seed hseed hs =>
    obtain ⟨job, -, -, hfact, -, hcov⟩ := h.submitted _ _ _ hseed
    refine ⟨job.fact, hfact, fun sp hsp => ?_⟩
    rw [hsp.unique hA.graph hs]
    exact hcov
  | call _ hlevel he hs ih =>
    obtain ⟨i, hi⟩ := ih
    obtain ⟨c, -, -, -, -, -, hc, -⟩ := h.enter hA (h.covered hA hmono hlevel hi) he hs
    exact ⟨c.entry, hc⟩

end Coverage

/-! ## The end of the first phase -/

/-- No join was widened when the first phase ends after so many steps. -/
def Analysis.Unwidened (A : Analysis D L K) (steps : Nat) : Prop :=
  ∀ s₀ s, Solver.create A = .ok s₀ → Solver.run A steps s₀ = .ok s → s.store.Unwidened

namespace Solver

/-- What is dropped after the first phase is not needed. -/
theorem dropPending_spec (hA : Scope A) (h : Complete A s) {u : Unit}
    (hrun : (dropPending A).run s = .ok (u, s')) :
    Complete A s' ∧ (Exactly A s → Exactly A s') ∧
      s'.stats.edgesInterned = s.store.interned := by
  obtain ⟨_, s₁, hclear, hrun⟩ := run_bind_ok hrun
  obtain ⟨_, s₂, hsweep, hstats⟩ := run_bind_ok hrun
  obtain rfl := run_modify_ok hstats
  have hs₁ := run_modify_ok hclear
  have hforgets := CallLedger.forgets_clearByCallee s.ledger
  have h₁ : Complete A s₁ := hs₁ ▸ h.update hforgets rfl
  have hexact₁ (he : Exactly A s) : Exactly A s₁ :=
    hs₁ ▸ ⟨he.seeds, he.paths, fun c hc => he.records c ((hforgets.mem_iff c).1 hc)⟩
  have hinterned₁ : s₁.store.interned = s.store.interned := by rw [← hs₁]
  suffices h₂ : Complete A s₂ ∧ (Exactly A s₁ → Exactly A s₂) ∧
      s₂.store.interned = s₁.store.interned by
    refine ⟨h₂.1.update (.refl _) h₂.1.drained, fun he => ?_, h₂.2.2.trans hinterned₁⟩
    obtain ⟨hseeds, hpaths, hrecords⟩ := h₂.2.1 (hexact₁ he)
    exact ⟨hseeds, hpaths, hrecords⟩
  unfold sweepIfAsked at hsweep
  split at hsweep
  · next hasked =>
    have hv : A.config.computeValues = true := (Bool.and_eq_true_iff.1 hasked).2
    have hswept := sweepEdges_spec hA hv h₁.regular hsweep
    exact ⟨h₁.swept hswept, fun he => he.swept h₁.ledger hswept, hswept.interned⟩
  · obtain ⟨-, rfl⟩ := run_pure_ok hsweep
    exact ⟨h₁, id, rfl⟩

/-- There are not enough numbers for the names that the first phase comes across. -/
def RunsOut (A : Analysis D L K) : Prop :=
  ∃ n, (do run A n (← create A)) = .error .idsExhausted

/-- Then the run always fails if it is given enough steps. -/
theorem RunsOut.solve (h : RunsOut A) (σ : Type) [ValueCode σ L] :
    ∃ N, ∀ n, N ≤ n → solve A σ n = .error .idsExhausted := by
  obtain ⟨N, h⟩ := h
  refine ⟨N, fun n hn => ?_⟩
  obtain ⟨k, rfl⟩ := Nat.exists_eq_add_of_le hn
  unfold Solver.solve
  cases hcreate : create A with
  | error f =>
    rw [hcreate] at h
    exact congrArg Except.error (Except.error.inj h)
  | ok s =>
    rw [hcreate] at h
    show (do conclude A σ (N + k) (← run A (N + k) s)) = _
    rw [run_add_exhausted h k]
    rfl

/-- The results are read off the state when the first phase takes at most `n` steps. -/
def Ends (A : Analysis D L K) (n : Nat) (s : State D L K) : Prop :=
  ∃ s₀ s₁ u, create A = .ok s₀ ∧ run A n s₀ = .ok s₁ ∧ (dropPending A).run s₁ = .ok (u, s)

theorem Ends.unique {n : Nat} (h : Ends A n s) (h' : Ends A n s') : s = s' := by
  obtain ⟨s₀, s₁, u, h₀, h₁, hdrop⟩ := h
  obtain ⟨s₀', s₁', u', h₀', h₁', hdrop'⟩ := h'
  obtain rfl := Except.ok.inj (h₀.symm.trans h₀')
  obtain rfl := Except.ok.inj (h₁.symm.trans h₁')
  exact (Prod.mk.inj (Except.ok.inj (hdrop.symm.trans hdrop'))).2

variable [Std.TransOrd D] [Std.LawfulEqOrd D]

/-- A run ends with complete tables. -/
theorem run_create_spec (hA : Scope A) {s₀ : State D L K} {n : Nat} (h₀ : create A = .ok s₀)
    (hrun : run A n s₀ = .ok s) : Complete A s := by
  obtain ⟨⟨W, h⟩, hdone⟩ := run_spec hA (create_spec h₀) hrun
  exact h.complete hdone

/-- No join was widened if no two functions that were joined have too many parts together. -/
theorem run_create_unwidened (hA : Scope A) (hlaws : LawfulLabels L K) {s₀ : State D L K} {n : Nat}
    (h₀ : create A = .ok s₀) (hrun : run A n s₀ = .ok s)
    (hfits : ∀ a b, s.store.joined.table[(a, b)]? = some .allBottom →
      (s.store.parts a ∪ s.store.parts b).card ≤ A.config.joinLimit) : s.store.Unwidened := by
  obtain ⟨⟨W, h⟩, -⟩ := run_spec hA (create_spec h₀) hrun
  have := hlaws.join
  have := hlaws.payload
  exact h.inv.store.unwidened (h.inv.joinLimit ▸ hfits)

/-- No join was widened if none of those that were remembered is all-bottom. -/
theorem unwidened_of_joined (hA : Scope A) (hlaws : LawfulLabels L K) {s₀ : State D L K} {n : Nat}
    (h₀ : create A = .ok s₀) (hrun : run A n s₀ = .ok s)
    (hjoined : s.store.joined.table.toList.all (·.2 ≠ .allBottom) = true) : A.Unwidened n := by
  rintro s₀' s' h₀' hrun'
  obtain rfl := Except.ok.inj (h₀.symm.trans h₀')
  obtain rfl := Except.ok.inj (hrun.symm.trans hrun')
  refine run_create_unwidened hA hlaws h₀ hrun fun a b hab => ?_
  have hmem := Std.TreeMap.mem_toList_iff_getElem?_eq_some.2 hab
  simpa using List.all_eq_true.1 hjoined _ hmem

theorem Ends.complete (hA : Scope A) {n : Nat} (h : Ends A n s) : Complete A s := by
  obtain ⟨s₀, s₁, u, h₀, h₁, hdrop⟩ := h
  exact (dropPending_spec hA (run_create_spec hA h₀ h₁) hdrop).1

/-- Labels are exact at the end of a precise run. -/
theorem Ends.exactly (hA : Scope A) {n : Nat} (h : Ends A n s) (hseeds : A.SeedsAtStarts)
    (hsealed : A.Sealed) (hvalues : A.config.computeValues = true →
      A.Distributive ∧ A.config.gcMode = .disabled ∧ A.Unwidened n) : Exactly A s := by
  obtain ⟨s₀, s₁, u, h₀, h₁, hdrop⟩ := h
  obtain ⟨⟨W, hready⟩, -⟩ := run_spec hA (create_spec h₀) h₁
  refine (dropPending_spec hA (run_create_spec hA h₀ h₁) hdrop).2.1 (hready.inv.exactly ?_)
  refine ⟨hseeds, hsealed, fun hv => ?_⟩
  obtain ⟨hdist, hgc, hwide⟩ := hvalues hv
  exact ⟨hdist, hgc, hwide _ _ h₀ h₁⟩

end Solver

end Tabulation
