import Tabulation.Proofs.Solver.Returns

/-!
# Calls

`enterCallee` covers the start point of a callee and records the call. A call is linked to the lists
in which it waits only after all summaries that its callee has were applied to it, so that it is
`Returned` then.

Main statements: `propagate_spec` says that a path edge is crossed when it is propagated, and
`replay_spec` that calls are returned when their key is replayed.
-/

namespace Tabulation

variable {D L K : Type} [Ord D] [Ord L] [Ord K] [DecidableEq D] [JoinLattice L] [Payload K L]
  [DecidableEq L] {A : Analysis D L K}

/-- A path edge where paths begin. -/
theorem PathFacts.first {s : State D L K} {n : NodeId} {a : FactId} {p : ProcId}
    {node proc : String} {source : D} (hb : Base A s) (hn : s.HasNode n node)
    (ha : s.HasFact a source) (hp : s.HasProc p proc) (hproc : A.graph.procOf node = .ok proc)
    (hentered : Entered A s proc source)
    (hderives : A.Sealed → A.Derives proc source node source)
    (hstart : Precise A s → A.graph.StartOf proc node)
    (hspelled : ∀ R, A.Spelling R → R proc source node source .identity) :
    PathFacts A s ⟨n, a, a, .identity⟩ p node proc source source where
  hasNode := hn
  hasSource := ha
  hasTarget := ha
  hasProc := hp
  procOf := hproc
  entered := hentered
  origin := .inl rfl
  derives := hderives
  labelled _ := hb.store.means ⟨_, hb.store.identity⟩
  exact hp := ⟨⟨id, .start (hstart hp)⟩,
    fun _ => ⟨id, .one (.start (hstart hp)), hb.store.means_identity⟩⟩
  spelled R hR := ⟨.identity, hspelled R hR, .identity⟩

namespace Solver

variable {Z : ProcId → FactId → Prop} {s s' : State D L K}

/-- The start points of a callee are covered. -/
theorem recordStarts_spec (hA : Scope A) (h : Inv A s) {q : ProcId} {i : FactId}
    {callee : String} {entry : D} {starts : List String} {u : PUnit} (hq : s.HasProc q callee)
    (hi : s.HasFact i entry) (hstarts : A.graph.startPoints callee = .ok starts)
    (hentered : Entered A s callee entry)
    (hderives : ∀ sp, A.graph.StartOf callee sp → A.Sealed → A.Derives callee entry sp entry)
    (hspelled : ∀ sp, A.graph.StartOf callee sp → ∀ R, A.Spelling R →
      R callee entry sp entry .identity)
    (hrun : StateT.run (starts.forM fun start => do
      record A (← nodeId start) i i q .identity : SolverM D L K PUnit) s = .ok (u, s')) :
    Inv A s' ∧ Fill A Z s s' ∧ ∀ sp ∈ starts, Covered A s' sp i entry id := by
  refine run_forM_rel (I := Inv A) (R := Fill A Z) (Q := fun sp t => Covered A t sp i entry id)
    Fill.refl Fill.trans (fun hI hR hQ => hQ.later (hR.moves.later hI)) hrun h ?_
  intro sp hsp t t' ht hfill hrun
  have hstart : A.graph.StartOf callee sp := ⟨starts, hstarts, hsp⟩
  obtain ⟨n, t₁, hnode, hrec⟩ := run_bind_ok hrun
  obtain ⟨hb₁, hq₁, hn⟩ := nodeId_spec ht.toBase hnode
  have hg₁ := hfill.moves.grows.trans hq₁.grows
  have hfill₁ : Fill A Z t t₁ := hq₁.fill hb₁
  have hpath : PathFacts A t₁ ⟨n, i, i, .identity⟩ q sp callee entry entry :=
    .first hb₁ hn (hg₁.facts _ _ hi) (hg₁.procs _ _ hq)
      ((Supergraph.startOf_iff hA.graph).1 hstart).1
      (hentered.mono hg₁) (hderives sp hstart) (fun _ => hstart) (hspelled sp hstart)
  obtain ⟨hfill₂, ef, hef, hle⟩ := record_spec (Z := Z) hA (Moves.inv ht hfill₁.moves)
    ⟨_, _, _, _, hpath⟩ (.inr ⟨rfl, rfl, sp, callee, hn, hstart⟩) hrec
  have hg₂ := hfill₂.moves.grows
  exact ⟨Moves.inv (Moves.inv ht hfill₁.moves) hfill₂.moves, hfill₁.trans hfill₂,
    n, i, ef, hg₂.nodes _ _ hn, hg₂.facts _ _ hpath.hasTarget, hef,
    hle.covers fun hv => hb₁.store.means_identity⟩

variable [Std.TransOrd D] [Std.LawfulEqOrd D]

theorem recordCall_spec (hA : Scope A) (h : Inv A s) {c : CallRecord} {p : ProcId}
    {site caller callee : String} {source entry : D} {u : Unit}
    (hc : RecordFacts A s c site caller callee source entry) (hp : s.HasProc p caller)
    (hz : Z p c.source) (hstarted : Started A s c.callee c.entry)
    (hrun : (recordCall A c callee).run s = .ok (u, s')) :
    Pass A Z s s' ∧ c ∈ s'.ledger := by
  obtain ⟨_, _, hget, hrun⟩ := run_bind_ok hrun
  obtain ⟨rfl, rfl⟩ := run_get_ok hget
  by_cases hmem : c ∈ s.ledger
  · simp only [CallLedger.insert_of_mem hmem] at hrun
    obtain ⟨_, _, hmod, hrun⟩ := run_bind_ok hrun
    obtain rfl := run_modify_ok hmod
    obtain rfl := run_modify_ok hrun
    exact ⟨Move.pass (.stats h.toBase _) rfl, hmem⟩
  have hinsert := CallLedger.insert_of_not_mem hmem
  simp only [hinsert] at hrun
  obtain ⟨_, t, hmod, hrun⟩ := run_bind_ok hrun
  have ht : t = { s with ledger := (s.ledger.insert c).2 } := by
    rw [hinsert, ← run_modify_ok hmod]
  have hcall : Move A Z s t := ht ▸ .call ⟨_, _, _, _, _, hc⟩ hmem
    h.ledger.toThreaded ⟨site, caller, hc.hasSite, hc.procOf, hp⟩ hz hstarted
  have ht' := hcall.inv h
  obtain ⟨_, t₁, hmod, hrun⟩ := run_bind_ok hrun
  obtain rfl := run_modify_ok hmod
  have hstats : Move A Z t { t with stats := { t.stats with calls := t.stats.calls + 1 } } :=
    .stats ht'.toBase _
  obtain ⟨_, t₂, hknown, hrun⟩ := run_bind_ok hrun
  have hg₁ := hcall.grows.trans hstats.grows
  obtain ⟨hfill, hret⟩ := applyKnownSummaries_spec (Z := Z) hA (hstats.inv ht') (hc.mono hg₁)
    (fun t q hg hb hq => by
      obtain rfl : p = q := congrArg ProcId.mk
        (Interner.get?_inj hb.procs (hg.procs _ _ (hg₁.procs _ _ hp)) hq)
      exact hz) hknown
  obtain ⟨_, _, hget', hrun⟩ := run_bind_ok hrun
  obtain ⟨rfl, rfl⟩ := run_get_ok hget'
  obtain ⟨ledger, _, hlift, hrun⟩ := run_bind_ok hrun
  obtain ⟨hlink, rfl⟩ := run_lift_ok hlift
  obtain rfl := run_modify_ok hrun
  have hledger : t₂.ledger = (s.ledger.insert c).2 := hfill.ledger.trans (by rw [ht])
  have hi : t₂.ledger.records[s.ledger.records.size]? = some c := by
    rw [hledger, CallLedger.records_insert hmem]
    exact Array.getElem?_push_size
  have hfree : t₂.ledger.Linkable s.ledger.records.size :=
    hledger ▸ h.ledger.toThreaded.linkable c
  have hmove : Move A Z t₂ { t₂ with ledger } := .link hi hfree hlink hret
  obtain ⟨-, hknown', hinto, hforward⟩ := CallLedger.link_spec hlink hi hfree
  have hmem' : ∀ c', c' ∈ ledger ↔ c' = c ∨ c' ∈ s.ledger := fun c' => by
    rw [← CallLedger.mem_insert, ← hledger, CallLedger.mem_iff, CallLedger.mem_iff, hknown']
  refine ⟨⟨(((Relation.ReflTransGen.single hcall).tail hstats).trans hfill.moves).tail hmove,
    fun c' hc' => ?_⟩, (hmem' c).2 (.inl rfl)⟩
  rcases (hmem' c').1 hc' with rfl | hc'
  · exact .inr ⟨(hinto _ _ _).2 (.inl ⟨rfl, rfl, rfl⟩),
      fun hv => (hforward _ _ _).2 (.inl ⟨hv, rfl, rfl, rfl⟩)⟩
  · exact .inl hc'

theorem enterCallee_spec (hA : Scope A) (h : Inv A s) {job : PathEdge} {p q : ProcId}
    {site caller callee : String} {source fact : D} {ψ : L → L} {u : Unit}
    (hjob : PathFacts A s job p site caller source fact)
    (hhas : ∃ ef, s.paths.get? job.node job.source job.target = some ef)
    (hψ : A.Valued → s.store.Means job.edge ψ) (hz : Z p job.source)
    (hq : s.HasProc q callee) (hcalls : A.graph.Calls site callee)
    (hnone : A.problem.summaryFlow site callee = none)
    (hrun : (enterCallee A job site fact callee q (pack job.node.val q.val)).run s = .ok (u, s')) :
    Pass A Z s s' ∧ ∀ t e sp, A.Enter site fact callee t e → A.graph.StartOf callee sp →
      Called A s' job ψ callee t e sp := by
  obtain ⟨starts, _, hlift, hrun⟩ := run_bind_ok hrun
  obtain ⟨hstarts, rfl⟩ := run_lift_ok hlift
  split at hrun
  · next hempty =>
    obtain ⟨-, rfl⟩ := run_pure_ok hrun
    refine ⟨.refl s, fun t e sp _ hsp => ?_⟩
    obtain ⟨ns, hns, hsp⟩ := hsp
    obtain rfl := Except.ok.inj (hns.symm.trans hstarts)
    rw [List.isEmpty_iff.1 hempty] at hsp
    cases hsp
  next hne =>
  obtain ⟨sp₀, hsp₀⟩ := List.exists_mem_of_ne_nil starts (by simpa using hne)
  have hstart₀ : A.graph.StartOf callee sp₀ := ⟨starts, hstarts, hsp₀⟩
  obtain ⟨flow, s₁, hflow, hrun⟩ := run_bind_ok hrun
  obtain ⟨hb₁, hq₁, rfl⟩ := askFlow_spec h.toBase (h.answers.ask_callFlow hjob.hasNode hq) hflow
  obtain ⟨ds, _, htargets, hrun⟩ := run_bind_ok hrun
  obtain ⟨rfl, rfl⟩ := targets_spec hb₁ htargets
  have hpass₁ : Pass A Z s s₁ := (hq₁.fill hb₁).pass
  have hloop := run_forM_rel (I := Inv A) (R := Pass A Z)
    (Q := fun t s => ∀ sp, A.graph.StartOf callee sp →
      Called A s job ψ callee t (A.problem.callEdge site fact callee t) sp)
    Pass.refl Pass.trans (fun hI hR hQ sp hsp => (hQ sp hsp).later (hR.moves.later hI))
    hrun (Moves.inv h hpass₁.moves) ?_
  · refine ⟨hpass₁.trans hloop.2.1, fun t e sp he hsp => ?_⟩
    cases he with
    | intro _ _ ht => exact hloop.2.2 t ht sp hsp
  intro entry hentry t t' ht hpass hrun
  have hg := hq₁.grows.trans hpass.moves.grows
  have henter : A.Enter site fact callee entry (A.problem.callEdge site fact callee entry) :=
    .intro hcalls hnone hentry
  obtain ⟨i, t₁, hfact, hrun⟩ := run_bind_ok hrun
  obtain ⟨hb₂, hq₂, hi⟩ := factId_spec ht.toBase hfact
  have hg₂ := hg.trans hq₂.grows
  obtain ⟨edge, t₂, hcomp, hrun⟩ := run_bind_ok hrun
  obtain ⟨hb₃, hq₃, hl, hmeans, hleaf⟩ := composeWith_spec hA hb₂ (hjob.labelled.mono hg₂.store)
    (fun hv => by
      obtain ⟨_, _, _, _⟩ := hA.orders hv
      exact asks_callEdge hb₂.store hb₂.answers (hg₂.nodes _ _ hjob.hasNode)
        (hg₂.procs _ _ hq) (hg₂.facts _ _ hjob.hasTarget) hi) hcomp
  have hg₃ := hg₂.trans hq₃.grows
  have hfill₃ : Fill A Z t t₂ := (hq₂.trans hq₃).fill hb₃
  have ht₂ := Moves.inv ht hfill₃.moves
  have hpath : s.HasPath site source fact := by
    obtain ⟨ef, hef⟩ := hhas
    exact ⟨_, _, _, ef, hjob.hasNode, hjob.hasSource, hjob.hasTarget, hef⟩
  have hentered : Entered A t₂ callee entry :=
    .call (hjob.entered.mono hg₃) hjob.procOf (hpath.mono hg₃) henter hstart₀
  obtain ⟨_, t₃, hstart, hcall⟩ := run_bind_ok hrun
  obtain ⟨ht₃, hfill₄, hcov⟩ := recordStarts_spec (Z := Z) hA ht₂ (hg₃.procs _ _ hq)
    (hq₃.facts _ _ hi) hstarts hentered (fun sp hsp hs => (hjob.derives hs).enter henter hsp)
    (fun sp hsp R hR => (hjob.spelled R hR).elim fun f hf => hR.enter hf.1 henter hsp) hstart
  have hg₄ := hg₃.trans hfill₄.moves.grows
  have hmeans₄ : A.Valued → ∀ φ, s.store.Means job.edge φ →
      t₃.store.Means edge ((A.problem.callEdge site fact callee entry).apply ∘ φ) := fun hv φ hφ =>
    (hmeans hv φ (hφ.mono hg₂.store)).mono hfill₄.moves.grows.store
  have hrec : RecordFacts A t₃ ⟨edge, job.source, q, job.node, i⟩ site caller callee source
      entry := {
    hasSite := hg₄.nodes _ _ hjob.hasNode
    hasSource := hg₄.facts _ _ hjob.hasSource
    hasCallee := hg₄.procs _ _ hq
    hasEntry := hfill₄.moves.grows.facts _ _ (hq₃.facts _ _ hi)
    procOf := hjob.procOf
    entered := hjob.entered.mono hg₄
    enter := ⟨fact, _, hpath.mono hg₄, henter, hjob.derives⟩
    start := ⟨sp₀, hstart₀⟩
    labelled := hl.mono hfill₄.moves.grows.store
    exact := fun hp => (hjob.exact (hp.of_grows hg₄)).extend (hp.distributes henter.edgeOf)
      (fun _ hφ => .intro hφ henter) hmeans₄
    spelled := fun R hR => by
      obtain ⟨f, hf, hat⟩ := hjob.spelled R hR
      obtain ⟨h, hh⟩ := hR.call hf henter
      exact ⟨h, ⟨fact, f, _, hf, henter, hh⟩,
        (hleaf hR.valued f h (hat.mono hg₂.store) hh).mono hfill₄.moves.grows.store⟩ }
  have hstarted : Started A t₃ q i := by
    obtain ⟨n, i', ef, hn, hi', hef, -⟩ := hcov sp₀ hsp₀
    obtain rfl : i = i' := congrArg FactId.mk (Interner.get?_inj ht₃.facts hrec.hasEntry hi')
    exact ⟨callee, sp₀, n, ef, hrec.hasCallee, hstart₀, hn, hef⟩
  obtain ⟨hpass₅, hmem⟩ := recordCall_spec hA ht₃ hrec (hg₄.procs _ _ hjob.hasProc) hz hstarted
    hcall
  have hg₅ := hpass₅.moves.grows
  refine ⟨Moves.inv ht₃ hpass₅.moves, (hfill₃.trans hfill₄).pass.trans hpass₅, fun sp hsp => ?_⟩
  obtain ⟨ns, hns, hsp⟩ := hsp
  obtain rfl := Except.ok.inj (hns.symm.trans hstarts)
  exact ⟨_, hmem, rfl, rfl, hg₅.procs _ _ hrec.hasCallee, hg₅.facts _ _ hrec.hasEntry,
    fun hv => (hmeans₄ hv ψ (hψ hv)).mono hg₅.store,
    (hcov sp hsp).later (hpass₅.moves.later ht₃)⟩

/-- The edges past the callees of a call site are covered. -/
theorem bypass_spec (hA : Scope A) (h : Inv A s) {job : PathEdge} {p : ProcId}
    {site caller : String} {source fact : D} {ψ : L → L} {callees rets : List String} {u : PUnit}
    (hjob : PathFacts A s job p site caller source fact)
    (hψ : A.Valued → s.store.Means job.edge ψ) (hz : Z p job.source)
    (hcallees : A.graph.callees site = .ok callees) (hne : callees ≠ [])
    (hrets : A.graph.succs site = .ok rets)
    (hrun : StateT.run (rets.forM fun ret => do
      let retId ← nodeId ret
      let key := pack job.node.val retId.val
      let flow ← askFlow fun a => a.bypassFlow A.problem site ret callees key
      spread A job p fact retId flow fun target facts a s =>
        a.bypassEdge A.problem s site fact ret target callees (key, facts) :
          SolverM D L K PUnit) s =
      .ok (u, s')) :
    Inv A s' ∧ Fill A Z s s' ∧ ∀ m ∈ rets, (∃ n, s'.HasNode n m) ∧
      ∀ t ∈ A.targets (A.problem.bypassFlow site m callees) fact, Covered A s' m job.source t
        ((A.problem.bypassEdge site fact m t callees).apply ∘ ψ) := by
  refine run_forM_rel (I := Inv A) (R := Fill A Z)
    (Q := fun m s => (∃ n, s.HasNode n m) ∧
      ∀ t ∈ A.targets (A.problem.bypassFlow site m callees) fact,
        Covered A s m job.source t ((A.problem.bypassEdge site fact m t callees).apply ∘ ψ))
    Fill.refl Fill.trans
    (fun hI hR hQ => ⟨hQ.1.imp fun n => hR.moves.grows.nodes n.val _,
      fun t ht => (hQ.2 t ht).later (hR.moves.later hI)⟩) hrun h ?_
  intro m hm t t' ht hfill hrun
  have hsucc : A.graph.Succ site m := ⟨rets, hrets, hm⟩
  have hg := hfill.moves.grows
  obtain ⟨n, t₁, hnode, hrun⟩ := run_bind_ok hrun
  obtain ⟨hb₁, hq₁, hn⟩ := nodeId_spec ht.toBase hnode
  obtain ⟨flow, t₂, hflow, hrun⟩ := run_bind_ok hrun
  have hg₁ := hg.trans hq₁.grows
  obtain ⟨hb₂, hq₂, rfl⟩ := askFlow_spec hb₁
    (hb₁.answers.ask_bypassFlow (hg₁.nodes _ _ hjob.hasNode) hn hcallees) hflow
  have hfill₂ : Fill A Z t t₂ := (hq₁.trans hq₂).fill hb₂
  have hg₂ := hg₁.trans hq₂.grows
  obtain ⟨hfill₃, hcov⟩ := spread_spec hA (Moves.inv ht hfill₂.moves) (hjob.mono hg₂)
    (fun hv => (hψ hv).mono hg₂.store) hz (hq₂.nodes _ _ hn)
    (Supergraph.procOf_succ hA.graph hsucc hjob.procOf)
    (fun t ht => .bypass hcallees hne hsucc ht)
    (fun hv t' target i hg hb hi => by
      obtain ⟨_, _, _, _⟩ := hA.orders hv
      exact asks_bypassEdge hb.store hb.answers
        (hg.nodes _ _ (hg₂.nodes _ _ hjob.hasNode)) (hg.nodes _ _ (hq₂.nodes _ _ hn)) hcallees
        (hg.facts _ _ (hg₂.facts _ _ hjob.hasTarget)) hi) hrun
  exact ⟨Moves.inv (Moves.inv ht hfill₂.moves) hfill₃.moves, hfill₂.trans hfill₃,
    ⟨n, hfill₃.moves.grows.nodes _ _ (hq₂.nodes _ _ hn)⟩, hcov⟩

/-- The edges across a callee that the client summarises are covered. -/
theorem acrossCallee_spec (hA : Scope A) (h : Inv A s) {job : PathEdge} {p : ProcId}
    {site caller callee : String} {source fact : D} {ψ : L → L} {flow : FlowFunction D}
    {rets : List String} {u : PUnit} (hjob : PathFacts A s job p site caller source fact)
    (hψ : A.Valued → s.store.Means job.edge ψ) (hz : Z p job.source)
    (hcalls : A.graph.Calls site callee) (hflow : A.problem.summaryFlow site callee = some flow)
    (hrets : A.graph.succs site = .ok rets)
    (hrun : StateT.run (rets.forM fun ret => do
      let retId ← nodeId ret
      let key := pack job.node.val retId.val
      spread A job p fact retId flow fun target facts a s =>
        a.summaryEdge A.problem s site fact ret target (key, facts) : SolverM D L K PUnit) s =
      .ok (u, s')) :
    Inv A s' ∧ Fill A Z s s' ∧ ∀ m ∈ rets, ∀ t ∈ A.targets flow fact,
      Covered A s' m job.source t ((A.problem.summaryEdge site fact m t).apply ∘ ψ) := by
  refine run_forM_rel (I := Inv A) (R := Fill A Z)
    (Q := fun m s => ∀ t ∈ A.targets flow fact,
      Covered A s m job.source t ((A.problem.summaryEdge site fact m t).apply ∘ ψ))
    Fill.refl Fill.trans
    (fun hI hR hQ t ht => (hQ t ht).later (hR.moves.later hI)) hrun h ?_
  intro m hm t t' ht hfill hrun
  have hsucc : A.graph.Succ site m := ⟨rets, hrets, hm⟩
  obtain ⟨n, t₁, hnode, hrun⟩ := run_bind_ok hrun
  obtain ⟨hb₁, hq₁, hn⟩ := nodeId_spec ht.toBase hnode
  have hg₁ := hfill.moves.grows.trans hq₁.grows
  have hfill₁ : Fill A Z t t₁ := hq₁.fill hb₁
  obtain ⟨hfill₂, hcov⟩ := spread_spec hA (Moves.inv ht hfill₁.moves) (hjob.mono hg₁)
    (fun hv => (hψ hv).mono hg₁.store) hz hn
    (Supergraph.procOf_succ hA.graph hsucc hjob.procOf)
    (fun t ht => .summary hcalls hflow hsucc ht)
    (fun hv t' target i hg hb hi => by
      obtain ⟨_, _, _, _⟩ := hA.orders hv
      exact asks_summaryEdge hb.store hb.answers
        (hg.nodes _ _ (hg₁.nodes _ _ hjob.hasNode)) (hg.nodes _ _ hn)
        (hg.facts _ _ (hg₁.facts _ _ hjob.hasTarget)) hi) hrun
  exact ⟨Moves.inv (Moves.inv ht hfill₁.moves) hfill₂.moves, hfill₁.trans hfill₂, hcov⟩

/-- What follows from a path edge at a call site for one callee. -/
structure CalleeDone (A : Analysis D L K) (s : State D L K) (job : PathEdge) (site : String)
    (fact : D) (ψ : L → L) (callee : String) : Prop where
  hasProc : ∃ p, s.HasProc p callee
  summary : ∀ f, A.problem.summaryFlow site callee = some f → ∀ m, A.graph.Succ site m →
    ∀ t ∈ A.targets f fact,
      Covered A s m job.source t ((A.problem.summaryEdge site fact m t).apply ∘ ψ)
  enter : ∀ t e sp, A.Enter site fact callee t e → A.graph.StartOf callee sp →
    Called A s job ψ callee t e sp

theorem propagateCall_spec (hA : Scope A) (h : Inv A s) {job : PathEdge} {p : ProcId}
    {site caller : String} {source fact : D} {ψ : L → L} {u : Unit}
    (hjob : PathFacts A s job p site caller source fact)
    (hhas : ∃ ef, s.paths.get? job.node job.source job.target = some ef)
    (hψ : A.Valued → s.store.Means job.edge ψ) (hz : Z p job.source)
    (hcall : A.graph.isCallSite site = .ok true)
    (hrun : (propagateCall A job site p).run s = .ok (u, s')) :
    Pass A Z s s' ∧ Crossed A s' job := by
  obtain ⟨fact', _, hfact, hrun⟩ := run_bind_ok hrun
  obtain ⟨rfl, hf⟩ := factOf_spec hfact
  obtain rfl := Option.some.inj (hjob.hasTarget.symm.trans hf)
  obtain ⟨callees, _, hlift, hrun⟩ := run_bind_ok hrun
  obtain ⟨hcallees, rfl⟩ := run_lift_ok hlift
  obtain ⟨rets, _, hlift', hrun⟩ := run_bind_ok hrun
  obtain ⟨hrets, rfl⟩ := run_lift_ok hlift'
  have hne : callees ≠ [] := by
    obtain ⟨q, ps, hps, hq⟩ := Supergraph.isCallSite_iff.1 hcall
    obtain rfl := Except.ok.inj (hps.symm.trans hcallees)
    exact List.ne_nil_of_mem hq
  obtain ⟨_, s₁, hbypass, hrun⟩ := run_bind_ok hrun
  obtain ⟨h₁, hfill₁, hcov₁⟩ := bypass_spec hA h hjob hψ hz hcallees hne hrets hbypass
  have hg₁ := hfill₁.moves.grows
  have hloop := run_forM_rel (I := Inv A) (R := Pass A Z)
    (Q := fun callee t => CalleeDone A t job site fact ψ callee) Pass.refl Pass.trans
    (fun hI hR hQ =>
      ⟨hQ.hasProc.imp fun p => hR.moves.grows.procs p.val _,
        fun f hf m hm t ht => (hQ.summary f hf m hm t ht).later (hR.moves.later hI),
        fun t e sp he hsp => (hQ.enter t e sp he hsp).later (hR.moves.later hI)⟩) hrun h₁ ?_
  · obtain ⟨-, hpass₂, hdone⟩ := hloop
    have hg := hg₁.trans hpass₂.moves.grows
    refine ⟨hfill₁.pass.trans hpass₂, site, fact, ψ, hg.nodes _ _ hjob.hasNode,
      hg.facts _ _ hjob.hasTarget, fun m hm => ?_, fun q hq => ?_,
      fun hv => (hψ hv).mono hg.store, fun m t e he => ?_,
      fun q t e sp he hsp => ?_, fun _ _ _ hno => ?_⟩
    · obtain ⟨ms, hms, hm⟩ := hm
      obtain rfl := Except.ok.inj (hms.symm.trans hrets)
      exact (hcov₁ m hm).1.imp fun n => hpass₂.moves.grows.nodes n.val m
    · obtain ⟨ps, hps, hq⟩ := hq
      obtain rfl := Except.ok.inj (hps.symm.trans hcallees)
      exact (hdone q hq).hasProc
    · cases he with
      | normal hno _ _ =>
        rw [hcall] at hno
        cases hno
      | bypass hps _ hsucc ht =>
        obtain rfl := Except.ok.inj (hps.symm.trans hcallees)
        obtain ⟨ms, hms, hm⟩ := hsucc
        obtain rfl := Except.ok.inj (hms.symm.trans hrets)
        exact ((hcov₁ m hm).2 t ht).later (hpass₂.moves.later h₁)
      | summary hq hf hsucc ht =>
        obtain ⟨ps, hps, hq⟩ := hq
        obtain rfl := Except.ok.inj (hps.symm.trans hcallees)
        exact (hdone _ hq).summary _ hf m hsucc t ht
    · have hcalls : A.graph.Calls site q := by
        cases he with
        | intro hq _ _ => exact hq
      obtain ⟨ps, hps, hq⟩ := hcalls
      obtain rfl := Except.ok.inj (hps.symm.trans hcallees)
      exact (hdone q hq).enter t e sp he hsp
    · rw [hcall] at hno
      cases hno
  intro callee hcallee t t' ht hpass hrun
  have hcalls : A.graph.Calls site callee := ⟨callees, hcallees, hcallee⟩
  have hg := hg₁.trans hpass.moves.grows
  obtain ⟨q, t₁, hid, hrun⟩ := run_bind_ok hrun
  obtain ⟨hb₁, hq₁, hq⟩ := procId_spec ht.toBase hid
  have hg₁ := hg.trans hq₁.grows
  obtain ⟨flow, t₂, hflow, hrun⟩ := run_bind_ok hrun
  obtain ⟨hb₂, hq₂, rfl⟩ := askFlow_spec hb₁
    (hb₁.answers.ask_summaryFlow (hg₁.nodes _ _ hjob.hasNode) hq) hflow
  have hg₂ := hg₁.trans hq₂.grows
  have hfill₂ : Fill A Z t t₂ := (hq₁.trans hq₂).fill hb₂
  have ht₂ := Moves.inv ht hfill₂.moves
  cases hsf : A.problem.summaryFlow site callee with
  | none =>
    simp only [hsf] at hrun
    obtain ⟨ef, hef⟩ := hhas
    obtain ⟨hpass₃, henter⟩ := enterCallee_spec hA ht₂ (hjob.mono hg₂) (hg₂.paths _ _ _ ef hef)
      (fun hv => (hψ hv).mono hg₂.store) hz (hq₂.procs _ _ hq) hcalls hsf hrun
    refine ⟨Moves.inv ht₂ hpass₃.moves, hfill₂.pass.trans hpass₃,
      ⟨q, hpass₃.moves.grows.procs _ _ (hq₂.procs _ _ hq)⟩, fun f hf => ?_, henter⟩
    rw [hsf] at hf
    cases hf
  | some f =>
    simp only [hsf] at hrun
    obtain ⟨ht₃, hfill₃, hcov⟩ := acrossCallee_spec hA ht₂ (hjob.mono hg₂)
      (fun hv => (hψ hv).mono hg₂.store) hz hcalls hsf hrets hrun
    refine ⟨ht₃, (hfill₂.trans hfill₃).pass, ⟨q, hfill₃.moves.grows.procs _ _ (hq₂.procs _ _ hq)⟩,
      fun f' hf' m hm t ht => ?_, fun t e sp he _ => ?_⟩
    · obtain rfl := Option.some.inj (hsf.symm.trans hf')
      obtain ⟨ms, hms, hm⟩ := hm
      obtain rfl := Except.ok.inj (hms.symm.trans hrets)
      exact hcov m hm t ht
    · cases he with
      | intro _ hnone _ =>
        rw [hsf] at hnone
        cases hnone

/-! ## One job and one key -/

/-- The pair of a path edge. -/
def pairOf (p : ProcId) (job : PathEdge) (q : ProcId) (a : FactId) : Prop := q = p ∧ a = job.source

/-- A path edge is released and then crossed. -/
theorem propagate_spec (hA : Scope A) (h : Inv A s) {job : PathEdge} {p : ProcId} {u : Unit}
    (hjob : PathOk A s job p) (htab : Tabled A s job)
    (hrun : (propagate A job).run s = .ok (u, s')) :
    ∃ t r, Base A t ∧ Quiet s t ∧
      (if A.config.gcMode.isEnabled then s.retention.release p = .ok r else r = s.retention) ∧
      Pass A (pairOf p job) { t with retention := r } s' ∧ Crossed A s' job ∧
      (LeavesAt A s p job.node → pack job.source.val p.val ∈ s'.callQueue.keys) := by
  obtain ⟨node, proc, source, fact, hjob⟩ := hjob
  obtain ⟨_, _, hname, hrun⟩ := run_bind_ok hrun
  obtain ⟨rfl, hnode⟩ := nodeName_spec hname
  obtain rfl := Option.some.inj (hjob.hasNode.symm.trans hnode)
  obtain ⟨_, _, hlift, hrun⟩ := run_bind_ok hrun
  obtain ⟨hproc, rfl⟩ := run_lift_ok hlift
  obtain rfl := Except.ok.inj (hjob.procOf.symm.trans hproc)
  obtain ⟨q, t, hid, hrun⟩ := run_bind_ok hrun
  obtain ⟨hb, hq, hqp⟩ := procId_spec h.toBase hid
  obtain rfl : p = q := congrArg ProcId.mk
    (Interner.get?_inj hb.procs (hq.procs _ _ hjob.hasProc) hqp)
  have hcross : ∀ {r : Retention} {u : Unit}, StateT.run (do
      if ← A.graph.isCallSite node then propagateCall A job node p
      else propagateNormal A job node p : SolverM D L K Unit) { t with retention := r } =
        .ok (u, s') →
      Pass A (pairOf p job) { t with retention := r } s' ∧ Crossed A s' job ∧
      (LeavesAt A s p job.node → pack job.source.val p.val ∈ s'.callQueue.keys) := by
    intro r u hrun
    have ht := h.of_quiet hb hq
    have ht' : Inv A { t with retention := r } :=
      ht.withTables (fun _ hx => hx) ht.summaries ht.records ht.ledger ht.into ht.forward
    have hg : s.Grows { t with retention := r } := { hq.grows with }
    have htab' : Tabled A { t with retention := r } job :=
      (hg.tabled (hq.paths_le (A := A)) hjob.labelled).1 htab
    obtain ⟨ψ, hψ⟩ := hjob.labelled.exists_means
    obtain ⟨isCall, _, hlift, hrun⟩ := run_bind_ok hrun
    obtain ⟨hcall, rfl⟩ := run_lift_ok hlift
    cases isCall with
    | true =>
      obtain ⟨ef, hef, -⟩ := htab'
      obtain ⟨hpass, hcrossed⟩ := propagateCall_spec (Z := pairOf p job) hA ht' (hjob.mono hg)
        ⟨ef, hef⟩ (fun hv => (hψ hv).mono hg.store) ⟨rfl, rfl⟩ hcall hrun
      refine ⟨hpass, hcrossed, fun hl => ?_⟩
      obtain ⟨_, exit, -, hx, -, hno⟩ := hl
      obtain rfl := Option.some.inj (hjob.hasNode.symm.trans hx)
      rw [hcall] at hno
      cases hno
    | false =>
      obtain ⟨hpass, hcrossed, hkey⟩ := propagateNormal_spec (Z := pairOf p job) hA ht'
        (hjob.mono hg) (fun hv => (hψ hv).mono hg.store) htab' ⟨rfl, rfl⟩ hcall hrun
      refine ⟨hpass, hcrossed, fun hl => hkey ?_⟩
      obtain ⟨q, exit, hq, hx, hexit, -⟩ := hl
      obtain rfl := Option.some.inj (hjob.hasNode.symm.trans hx)
      obtain rfl := Option.some.inj (hjob.hasProc.symm.trans hq)
      exact hexit
  split at hrun
  · next hgc =>
    obtain ⟨_, _, hget, hrun⟩ := run_bind_ok hrun
    obtain ⟨rfl, rfl⟩ := run_get_ok hget
    obtain ⟨r, _, hlift, hrun⟩ := run_bind_ok hrun
    obtain ⟨hr, rfl⟩ := run_lift_ok hlift
    obtain ⟨_, _, hmod, hrun⟩ := run_bind_ok hrun
    obtain rfl := run_modify_ok hmod
    refine ⟨t, r, hb, hq, ?_, hcross hrun⟩
    rw [if_pos hgc, ← hq.retention]
    exact hr
  · next hgc =>
    refine ⟨t, t.retention, hb, hq, ?_, hcross hrun⟩
    rw [if_neg hgc, hq.retention]

/-- The pairs of the callers of the calls that wait under a key. -/
def waitingOn (A : Analysis D L K) (s : State D L K) (e : FactId) (q p : ProcId) (a : FactId) :
    Prop :=
  ∃ c ∈ s.ledger.callsInto e q, InProc A s c.site p ∧ a = c.source

/-- All summaries under a key are applied to the calls that wait for them. -/
theorem replay_spec (hA : Scope A) (h : Inv A s) {key : UInt64} {u : Unit}
    (hrun : (replay A key).run s = .ok (u, s')) :
    Fill A (waitingOn A s ⟨(unpack key).1⟩ ⟨(unpack key).2⟩) s s' ∧
      ∀ c ∈ s.ledger.callsInto ⟨(unpack key).1⟩ ⟨(unpack key).2⟩, Returned A s' c := by
  unfold replay at hrun
  generalize unpack key = k at hrun ⊢
  obtain ⟨i, j⟩ := k
  simp only at hrun ⊢
  generalize (⟨i⟩ : FactId) = e at hrun ⊢
  generalize (⟨j⟩ : ProcId) = q at hrun ⊢
  obtain ⟨callee, _, hname, hrun⟩ := run_bind_ok hrun
  obtain ⟨rfl, hp⟩ := procName_spec hname
  obtain ⟨exits, _, hlift, hrun⟩ := run_bind_ok hrun
  obtain ⟨hexits, rfl⟩ := run_lift_ok hlift
  have hcs : ∀ c ∈ s.ledger.callsInto e q, c.callee = q ∧ c.entry = e ∧ RecordOk A s c := by
    intro c hc
    obtain ⟨hmem, he, hq⟩ := h.into e q c hc
    exact ⟨hq, he, h.records c hmem⟩
  have hentry : ∃ entry, s.ledger.callsInto e q ≠ [] → s.HasFact e entry := by
    cases hl : s.ledger.callsInto e q with
    | nil => exact ⟨A.problem.zero, fun hne => absurd rfl hne⟩
    | cons c cs =>
      obtain ⟨-, rfl, _, _, _, _, entry, hc⟩ := hcs c (by rw [hl]; exact List.mem_cons_self)
      exact ⟨entry, fun _ => hc.hasEntry⟩
  obtain ⟨entry, hentry⟩ := hentry
  refine forExits_spec hA h hp hentry hexits hcs ?_ hrun
  intro exit x l t t' u ht hfill hx hexit hl hrun
  obtain ⟨_, _, hget, hrun⟩ := run_bind_ok hrun
  obtain ⟨rfl, rfl⟩ := run_get_ok hget
  rw [hfill.ledger] at hrun
  have hloop := run_forM_rel (I := Inv A) (R := Fill A (waitingOn A s e q))
    (Q := fun (c : CallRecord) t' => ∀ site, t.HasNode c.site site → ∀ ret,
      A.graph.Succ site ret → ∀ y ∈ l,
      TakenBack A t t' c site callee exit ret y.1 y.2) Fill.refl Fill.trans
    (fun hI hR hQ site hs ret hret y hy =>
      (hQ site hs ret hret y hy).later (hR.moves.later hI)) hrun ht ?_
  · exact hloop.2
  intro c hc t₁ t₂ ht₁ hfill₁ happly
  have hg := hfill.moves.grows
  have hg₁ := hg.trans hfill₁.moves.grows
  obtain ⟨rfl, rfl, site, caller, callee', source, entry', hrec⟩ := hcs c hc
  have hne := List.ne_nil_of_mem hc
  obtain rfl := Option.some.inj (hp.symm.trans hrec.hasCallee)
  obtain rfl := Option.some.inj ((hentry hne).symm.trans hrec.hasEntry)
  obtain ⟨p, hcaller⟩ := h.exists_caller hrec
  obtain ⟨hfill₂, hback⟩ := applySummaries_spec (Z := waitingOn A s c.entry c.callee) hA ht₁
    (hrec.mono hg₁)
    (hfill₁.moves.grows.nodes _ _ hx) hexit
    (fun d ef hd => (hl hne d ef hd).imp fun _ hf => hf.mono hfill₁.moves.grows)
    (fun t' p' hg' hb' hp' => by
      obtain rfl : p = p' := congrArg ProcId.mk
        (Interner.get?_inj hb'.procs (hg'.procs _ _ (hg₁.procs _ _ hcaller)) hp')
      exact ⟨c, hc, ⟨site, caller, hrec.hasSite, hrec.procOf, hcaller⟩, rfl⟩) happly
  refine ⟨Moves.inv ht₁ hfill₂.moves, hfill₂, fun site' hsite' ret hret y hy => ?_⟩
  obtain rfl := Option.some.inj ((hg.nodes _ _ hrec.hasSite).symm.trans hsite')
  exact (hback ret hret y hy).of_grows hfill₁.moves.grows

end Solver

end Tabulation
