import Tabulation.Proofs.EdgeStore.Sweep
import Tabulation.Proofs.Solver.Settled
import Tabulation.Solver.Solve

/-!
# Collection between rounds

A collected procedure goes to sleep: all facts with which it was entered become dormant. That is
right since nothing is pending for it, nor for any procedure that it calls. Runs that compute values
keep all path edges when they collect, and sweeping keeps every edge function that a table mentions.
-/

namespace Tabulation

variable {D L K : Type} [Ord L] [Ord K] {A : Analysis D L K}

namespace Solver

/-- Runs that compute values keep all path edges. -/
theorem keepAt_eq_true [JoinLattice L] [Payload K L] (hA : Scope A)
    (hv : A.config.computeValues = true) {node : String}
    {b : Bool} (h : keepAt A node false = .ok b) : b = true := by
  rw [keepAt, bind_eq_ok] at h
  obtain ⟨exit, -, h⟩ := h
  rw [bind_eq_ok] at h
  obtain ⟨start, -, h⟩ := h
  split at h
  · exact (pure_eq_ok.1 h).symm
  rw [bind_eq_ok] at h
  obtain ⟨preds, -, h⟩ := h
  rw [bind_eq_ok] at h
  obtain ⟨called, -, h⟩ := h
  split at h
  · exact (pure_eq_ok.1 h).symm
  split at h
  · exact (pure_eq_ok.1 h).symm
  · rw [← pure_eq_ok.1 h, hv, hA.not_aggressive]
    rfl

variable [Ord D] {s s' : State D L K} {W : ProcId → FactId → Prop} {ps : List ProcId}

/-! ## Handles in the tables -/

section Roots

variable {n : NodeId} {a b : FactId} {ef : EdgeRef}

theorem path_mem_edgeRoots (h : s.paths.get? n a b = some ef) : ef ∈ edgeRoots s := by
  simp only [edgeRoots, List.mem_append]
  exact .inl (.inl (.inl (PathTable.mem_edgeRefs h)))

theorem summary_mem_edgeRoots {p : ProcId} (h : s.summaries.get? p a n b = some ef) :
    ef ∈ edgeRoots s := by
  simp only [edgeRoots, List.mem_append]
  exact .inl (.inl (.inr (SummaryTable.mem_edgeRefs h)))

theorem record_mem_edgeRoots (h : s.ledger.Wf) {c : CallRecord} (hc : c ∈ s.ledger) :
    c.edge ∈ edgeRoots s := by
  simp only [edgeRoots, List.mem_append]
  exact .inl (.inr (CallLedger.mem_edgeRefs h hc))

theorem queue_mem_edgeRoots {x : PathEdge} (hx : x ∈ s.queue.toList) : x.edge ∈ edgeRoots s := by
  simp only [edgeRoots, List.mem_append]
  exact .inr (List.mem_map.2 ⟨x, hx, rfl⟩)

theorem Summary.mem_edgeRoots {p : ProcId} (h : Summary A s p a n b ef) : ef ∈ edgeRoots s := by
  cases h with
  | table _ hef => exact summary_mem_edgeRoots hef
  | path _ _ hef _ => exact path_mem_edgeRoots hef

end Roots

theorem sweepIfAsked_frame [Payload K L] {u : Unit} (h : (sweepIfAsked A).run s = .ok (u, s')) :
    ∃ store answers, s' = { s with store, answers } := by
  unfold sweepIfAsked at h
  split at h
  · obtain ⟨_, _, hget, hrun⟩ := run_bind_ok h
    obtain ⟨rfl, rfl⟩ := run_get_ok hget
    obtain ⟨⟨n, store⟩, _, hlift, hrun⟩ := run_bind_ok hrun
    obtain ⟨-, rfl⟩ := run_lift_ok hlift
    obtain ⟨-, rfl⟩ := run_pure_ok hrun
    exact ⟨_, _, rfl⟩
  · obtain ⟨-, rfl⟩ := run_pure_ok h
    exact ⟨s.store, s.answers, rfl⟩

/-- What is dropped after the first phase is neither a name nor a path edge nor a call. -/
theorem dropPending_frame [Payload K L] {u : Unit} (h : (dropPending A).run s = .ok (u, s')) :
    ∃ store answers stats, s' = { s with
      ledger := s.ledger.clearByCallee
      queue := s.queue.clear
      callQueue := s.callQueue.clear
      store, answers, stats } := by
  obtain ⟨_, s₁, hclear, h⟩ := run_bind_ok h
  obtain rfl := run_modify_ok hclear
  obtain ⟨_, s₂, hsweep, hstats⟩ := run_bind_ok h
  obtain ⟨store, answers, rfl⟩ := sweepIfAsked_frame hsweep
  obtain rfl := run_modify_ok hstats
  exact ⟨store, answers, _, rfl⟩

theorem Memo.holds_clear {κ α : Type} [Ord κ] [Std.TransOrd κ] (m : Memo κ α) (P : κ → α → Prop) :
    m.clear.Holds P := by
  intro k a ha
  simp [Memo.clear] at ha

variable [JoinLattice L] [Payload K L]

theorem AnswersOk.clearEdges (h : AnswersOk A s) (store : EdgeStore L K) :
    AnswersOk A { s with store, answers := s.answers.clearEdges } where
  zero := h.zero
  autoAddZero := h.autoAddZero
  normalFlow := h.normalFlow
  callFlow := h.callFlow
  returnFlow := h.returnFlow
  bypassFlow := h.bypassFlow
  summaryFlow := h.summaryFlow
  normalEdge := Memo.holds_clear _ _
  callEdge := Memo.holds_clear _ _
  returnEdge := Memo.holds_clear _ _
  bypassEdge := Memo.holds_clear _ _
  summaryEdge := Memo.holds_clear _ _

/-! ## Collecting procedures -/

theorem collectProc_spec (hA : Scope A) (hv : A.config.computeValues = true) {p : ProcId}
    {u : Unit} (h : (collectProc A p).run s = .ok (u, s')) :
    s' = { s with
      ledger := (s.ledger.purgeCallee p).2
      retention := s.retention.collected p } := by
  obtain ⟨_, _, hname, hrun⟩ := run_bind_ok h
  obtain ⟨rfl, -⟩ := procName_spec hname
  obtain ⟨nodes, _, hlift, hrun⟩ := run_bind_ok hrun
  obtain ⟨-, rfl⟩ := run_lift_ok hlift
  obtain ⟨_, t, hloop, hmod⟩ := run_bind_ok hrun
  have ht : t = s := run_forM_ok (fun _ t => t = s) hloop rfl fun _ node t t' _ ht hrun => by
    obtain ⟨keep, _, hlift, hrun⟩ := run_bind_ok hrun
    obtain ⟨hkeep, rfl⟩ := run_lift_ok hlift
    rw [if_pos (keepAt_eq_true hA hv hkeep)] at hrun
    obtain ⟨-, rfl⟩ := run_pure_ok hrun
    exact ht
  subst ht
  exact (run_modify_ok hmod).symm

/-- The calls of some procedures no longer wait, and the procedures are no candidates. -/
structure Collected (ps : List ProcId) (s s' : State D L K) : Prop where
  same : s' = { s with ledger := s'.ledger, retention := s'.retention }
  ledger : s.ledger.Forgets s'.ledger
  into : ∀ e q, s'.ledger.callsInto e q = if q ∈ ps then [] else s.ledger.callsInto e q
  counts : s'.retention.counts = s.retention.counts
  candidates : ∀ i, i ∈ s'.retention.candidates ↔
    i ∈ s.retention.candidates ∧ ∀ p ∈ ps, i ≠ p.index

theorem collectAll_spec (hA : Scope A) (hv : A.config.computeValues = true) {ps : List ProcId}
    {u : PUnit} (h : (ps.forM (collectProc A)).run s = .ok (u, s')) : Collected ps s s' := by
  refine run_forM_ok (fun done t => Collected done s t) h
    ⟨rfl, .refl _, by simp, rfl, by simp⟩ ?_
  intro done p t t' _ ht hrun
  obtain rfl := collectProc_spec hA hv hrun
  refine ⟨?_, ht.ledger.trans (CallLedger.forgets_purgeCallee ..), fun e q => ?_, ht.counts,
    fun i => ?_⟩
  · rw [ht.same]
  · show (t.ledger.purgeCallee p).2.callsInto e q = _
    rw [CallLedger.callsInto_purgeCallee, ht.into]
    by_cases hq : q = p <;> simp [hq]
  · show i ∈ (t.retention.candidates.erase p.index).2 ↔ _
    rw [BitSet.mem_erase, ht.candidates]
    simp only [List.mem_append, List.mem_singleton]
    grind

/-- The pairs that are dormant after procedures were collected. -/
def Asleep (A : Analysis D L K) (W : ProcId → FactId → Prop) (s : State D L K) (ps : List ProcId)
    (p : ProcId) (a : FactId) : Prop := W p a ∨ p ∈ ps ∧ Rooted A s p a

/-- The pairs of idle procedures can rest if what they call rests or is idle. -/
theorem resting_asleep (hg : A.graph.Consistent) (h : Resting A W s)
    (hstarted : ∀ c ∈ s.ledger, Started A s c.callee c.entry)
    (hnone : ∀ e q, ¬ PendingKey s e q)
    (hidle : ∀ p ∈ ps, ∀ x ∈ s.queue.toList, ¬ InProc A s x.node p)
    (hcalls : ∀ c ∈ s.ledger, ∀ p ∈ ps, InProc A s c.site p → W c.callee c.entry ∨ c.callee ∈ ps) :
    Resting A (Asleep A W s ps) s where
  rooted := h.rooted
  asleep p a hw := hw.elim (h.asleep p a) And.right
  closed c hc p hp hw := by
    rcases hw with hw | ⟨hcoll, -⟩
    · exact .inl (h.closed c hc p hp hw)
    · exact (hcalls c hc p hcoll hp).imp_right fun hmem =>
        ⟨hmem, h.rooted_of_started hg (hstarted c hc)⟩
  queue x hx p hp hw := by
    rcases hw with hw | ⟨hcoll, -⟩
    · exact h.queue x hx p hp hw
    · exact hidle p hcoll x hx hp
  keys e q hk := absurd hk (hnone e q)

variable [DecidableEq L]

theorem mem_callersOf (hA : Scope A) (hb : Base A s) {p q : ProcId} {site caller callee : String}
    (hq : s.HasProc q callee) (hcalls : A.graph.Calls site callee)
    (hproc : A.graph.procOf site = .ok caller) (hp : s.HasProc p caller) :
    p ∈ callersOf A s.procs q := by
  obtain ⟨sites, hsites, hsite⟩ := Supergraph.callers_of_calls hA.graph hcalls
  have hget : (s.procs.get q.val >>= A.graph.callers) = .ok sites :=
    bind_eq_ok.2 ⟨callee, Interner.get_eq_ok.2 hq, hsites⟩
  unfold callersOf
  rw [hget]
  refine List.mem_filterMap.2 ⟨site, hsite, ?_⟩
  rw [hproc]
  show (s.procs.find? caller).map ProcId.mk = some p
  rw [(Interner.find?_eq_some hb.procs).2 hp]
  rfl

/-! ## Sweeping -/

/-- Edge functions were freed, but none that a table mentions. -/
structure Swept (A : Analysis D L K) (s s' : State D L K) : Prop where
  computeValues : A.config.computeValues = true
  same : s' = { s with store := s'.store, answers := s.answers.clearEdges }
  regular : s'.store.Regular
  means : ∀ ef ∈ edgeRoots s, ∀ φ, s.store.Means ef φ → s'.store.Means ef φ
  absorbs : ∀ ef ∈ edgeRoots s, s.store.Absorbs ef → s'.store.Absorbs ef
  leaves : ∀ ef ∈ edgeRoots s, ∀ f, s.store.LeafAt f ef → s'.store.LeafAt f ef
  joinLimit : s'.store.joinLimit = s.store.joinLimit
  interned : s'.store.interned = s.store.interned

theorem sweepEdges_spec (hA : Scope A) (hv : A.config.computeValues = true)
    (hreg : s.store.Regular) {u : Unit} (h : sweepEdges.run s = .ok (u, s')) : Swept A s s' := by
  obtain ⟨_, _, _, _⟩ := hA.orders hv
  obtain ⟨_, _, hget, hrun⟩ := run_bind_ok h
  obtain ⟨rfl, rfl⟩ := run_get_ok hget
  obtain ⟨⟨n, store⟩, _, hlift, hrun⟩ := run_bind_ok hrun
  obtain ⟨hsweep, rfl⟩ := run_lift_ok hlift
  obtain ⟨-, rfl⟩ := run_pure_ok hrun
  obtain ⟨hreg', freed, hkeeps, hroots⟩ := hreg.of_sweep hsweep
  exact ⟨hv, rfl, hreg', fun ef hef φ hφ => hkeeps.means hφ (hroots ef hef),
    fun ef hef ha => hkeeps.absorbs ha (hroots ef hef),
    fun ef hef f hf => hkeeps.leafAt hf (hroots ef hef), hkeeps.joinLimit, hkeeps.interned⟩

theorem Swept.later (hled : s.ledger.Wf) (h : Swept A s s') : Later A s s' := by
  obtain ⟨store, rfl⟩ : ∃ store, s' = { s with store, answers := s.answers.clearEdges } :=
    ⟨_, h.same⟩
  have hkeep : ∀ ef ∈ edgeRoots s,
      LabelLe A s { s with store, answers := s.answers.clearEdges } ef ef := fun ef hef =>
    .of_keeps fun _ => h.means ef hef
  exact ⟨Interner.le_refl _, Interner.le_refl _, Interner.le_refl _,
    fun n a b ef hef => ⟨ef, hef, hkeep ef (path_mem_edgeRoots hef)⟩,
    fun p e x d ef hef => ⟨ef, hef, hkeep ef (summary_mem_edgeRoots hef)⟩,
    fun c hc => ⟨hc, fun _ ψ hψ => h.means _ (record_mem_edgeRoots hled hc) ψ hψ⟩⟩

namespace Swept

variable {ef : EdgeRef}

/-- Sweeping forgets which functions were joined, so it is not for runs that have to be precise. -/
theorem not_precise (h : Swept A s s') (hgc : A.config.gcMode ≠ .disabled) : ¬ Precise A s' :=
  fun hp => hgc (hp.values h.computeValues).2.1

theorem labelled (h : Swept A s s') (hef : ef ∈ edgeRoots s) (hl : A.Labelled s.store ef) :
    A.Labelled s'.store ef :=
  fun hv => (hl hv).imp fun ψ hψ => h.means ef hef ψ hψ

theorem exact (h : Swept A s s') (hef : ef ∈ edgeRoots s) {F : (L → L) → Prop}
    (he : A.Exact s.store ef F) : A.Exact s'.store ef F :=
  ⟨he.1, fun hv => (he.2 hv).imp fun ψ => And.imp_right (h.means ef hef ψ)⟩

theorem hasPath (h : Swept A s s') {node : String} {a b : D} (hp : s.HasPath node a b) :
    s'.HasPath node a b := by
  obtain ⟨store, rfl⟩ : ∃ store, s' = { s with store, answers := s.answers.clearEdges } :=
    ⟨_, h.same⟩
  exact hp

theorem backed (hled : s.ledger.Wf) (h : Swept A s s') {x : PathEdge} (hx : x.edge ∈ edgeRoots s)
    (hl : A.Labelled s.store x.edge) (hback : Backed A s x) : Backed A s' x :=
  hback.later hl (fun _ => h.means _ hx) (Nat.le_of_eq h.interned.symm) (h.later hled).paths

end Swept

theorem Swept.dormant (h : Swept A s s') (hd : Dormant A W s) : Dormant A W s' := by
  obtain ⟨store, rfl⟩ : ∃ store, s' = { s with store, answers := s.answers.clearEdges } :=
    ⟨_, h.same⟩
  have hroot : ∀ {p a}, Rooted A s p a →
      Rooted A { s with store, answers := s.answers.clearEdges } p a := by
    rintro p a ⟨q, sp, n, ef, hq, hsp, hn, hef, habs⟩
    exact ⟨q, sp, n, ef, hq, hsp, hn, hef, fun hv =>
      h.absorbs ef (path_mem_edgeRoots hef) (habs hv)⟩
  exact ⟨hd.enabled, fun hv n a b ef p hef hp => hroot (hd.rooted hv n a b ef p hef hp), hd.started,
    fun p a hw => hroot (hd.asleep p a hw), hd.closed, hd.queue, hd.keys, hd.candidates, hd.counts,
    hd.slots⟩

variable [DecidableEq D]

/-! ## Dormant pairs -/

/-- The procedure of a recorded call is one of the callers of its callee. -/
theorem caller_mem_callersOf (hA : Scope A) (hinv : Inv A s) {c : CallRecord} (hc : c ∈ s.ledger)
    {p : ProcId} (hp : InProc A s c.site p) : p ∈ callersOf A s.procs c.callee := by
  obtain ⟨site, caller, callee, source, entry, hrec⟩ := hinv.records c hc
  obtain ⟨b, e, -, henter, -⟩ := hrec.enter
  obtain ⟨q, hq⟩ := hinv.exists_caller hrec
  obtain rfl := InProc.unique hinv.procs ⟨site, caller, hrec.hasSite, hrec.procOf, hq⟩ hp
  cases henter with
  | intro hcalls _ _ => exact mem_callersOf hA hinv.toBase hrec.hasCallee hcalls hrec.procOf hq

/-- Procedures that are called by a collected one are collected or asleep. -/
theorem Collected.dormant (hA : Scope A) (hinv : Inv A s) (h : Dormant A W s)
    (hnone : ∀ e q, ¬ PendingKey s e q) (hgc : A.config.gcMode.isEnabled = true)
    (hps : ∀ p ∈ ps, s.retention.count p = 0 ∧ ∀ q, q.index ∈ s.retention.candidates →
      p ∈ callersOf A s.procs q → q ∈ ps)
    (hc : Collected ps s s') : Dormant A (Asleep A W s ps) s' := by
  obtain ⟨ledger, retention, rfl⟩ : ∃ ledger retention, s' = { s with ledger, retention } :=
    ⟨_, _, hc.same⟩
  have hg : s.Grows { s with ledger, retention } := { State.Grows.refl s with }
  have hmem : ∀ c, c ∈ ledger ↔ c ∈ s.ledger := hc.ledger.mem_iff
  have hasleep : Resting A (Asleep A W s ps) s := by
    refine resting_asleep hA.graph (h.resting hgc) h.started hnone
      (fun p hcoll x hx hp => ?_) fun c hc p hcoll hp => ?_
    · have hle := h.counts hgc p
      rw [(hps p hcoll).1, Nat.le_zero, queuedIn, List.countP_eq_zero] at hle
      exact absurd hp (by simpa using hle x hx)
    · -- The callee is a candidate, and then it is collected too, or it is asleep already.
      obtain ⟨q, sp, n, ef, hq, hsp, hn, hef⟩ := h.started c hc
      refine (h.candidates hgc n _ _ ef _ hef ⟨sp, q, hn,
        ((Supergraph.startOf_iff hA.graph).1 hsp).1, hq⟩).symm.imp_right fun hcand => ?_
      exact (hps p hcoll).2 _ hcand (caller_mem_callersOf hA hinv hc hp)
  refine .of_resting hA (fun _ _ _ => hgc)
    (fun _ => hasleep.of_grows hinv hinv.procs hg rfl rfl (fun c hc => .inl ((hmem c).1 hc))
      fun e q hk => .inl hk)
    (fun c hc => (h.started c ((hmem c).1 hc)).mono hg) (fun _ n a b ef p hef hp => ?_)
    (fun _ p => ?_) fun i hi => h.slots i ((hc.candidates i).1 hi).1
  · by_cases hcoll : p ∈ ps
    · exact .inr (.inr ⟨hcoll, h.rooted hgc n a b ef p hef hp⟩)
    · rcases h.candidates hgc n a b ef p hef hp with hcand | hw
      · refine .inl ((hc.candidates _).2 ⟨hcand, fun q hq heq => hcoll ?_⟩)
        rw [ProcId.index_inj.1 heq]
        exact hq
      · exact .inr (.inl hw)
  · have hle := h.counts hgc p
    show queuedIn A s p ≤ Retention.count retention p
    rw [Retention.count, Retention.countAt, hc.counts]
    exact hle

/-- Collecting procedures loses nothing. -/
theorem Collected.settled (hA : Scope A) (h : Settled A W (fun _ => False) (fun _ _ => False) s)
    (hnone : ∀ e q, ¬ PendingKey s e q)
    (hgc : A.config.gcMode.isEnabled = true)
    (hps : ∀ p ∈ ps, s.retention.count p = 0 ∧ ∀ q, q.index ∈ s.retention.candidates →
      p ∈ callersOf A s.procs q → q ∈ ps)
    (hc : Collected ps s s') :
    Settled A (Asleep A W s ps) (fun _ => False) (fun _ _ => False) s' := by
  have hdormant := hc.dormant hA h.inv h.dormant hnone hgc hps
  obtain ⟨ledger, retention, rfl⟩ : ∃ ledger retention, s' = { s with ledger, retention } :=
    ⟨_, _, hc.same⟩
  have hg : s.Grows { s with ledger, retention } := { State.Grows.refl s with }
  have hmem : ∀ c, c ∈ ledger ↔ c ∈ s.ledger := hc.ledger.mem_iff
  have hsub : ∀ e q, ∀ c ∈ ledger.callsInto e q, c ∈ s.ledger.callsInto e q := hc.ledger.callsInto
  have hfrom : ∀ a n, ledger.callsFrom a n = s.ledger.callsFrom a n := hc.ledger.callsFrom
  have hlater : Later A s { s with ledger, retention } :=
    .of_grows hg rfl rfl fun c hc => (hmem c).2 hc
  have hreturned : ∀ c, Returned A s c → Returned A { s with ledger, retention } c := fun c hret =>
    hret.later hlater (fun _ _ _ hef => hef.congr rfl rfl rfl rfl id) (fun _ _ hψ => hψ)
      fun _ _ _ _ _ _ hψ => hψ
  have hall : ∀ e q, ∀ c ∈ s.ledger.callsInto e q, Returned A s c := fun e q c hc =>
    ((h.calls e q c hc).resolve_left id).resolve_left (hnone e q)
  refine ⟨h.inv.withTables (fun _ hx => hx) h.inv.summaries
      (fun c hc => h.inv.records c ((hmem c).1 hc)) (hc.ledger.wf h.inv.ledger)
      (fun e q c hc' => (h.inv.into e q c (hsub e q c hc')).imp_left (hmem c).2)
      (fun a n c hc' => (h.inv.forward a n c (hfrom a n ▸ hc')).imp_left (hmem c).2),
    hdormant, fun n a b ef hef => ?_, fun e q c hc' => ?_, fun c hc' => ?_⟩
  · exact (h.paths n a b ef hef).imp_right (Or.imp_right fun hx =>
      hx.later hlater fun _ _ hψ => hψ)
  · exact .inr (.inr (hreturned c (hall e q c (hsub e q c hc'))))
  · obtain ⟨hforward, hinto⟩ := h.attached c ((hmem c).1 hc')
    refine ⟨fun hv => by rw [hfrom]; exact hforward hv, ?_⟩
    rcases hinto with hinto | ⟨hw, hret⟩
    · by_cases hcoll : c.callee ∈ ps
      · have hroot := (h.dormant.resting hgc).rooted_of_started hA.graph
          (h.dormant.started c ((hmem c).1 hc'))
        exact .inr ⟨.inr ⟨hcoll, hroot⟩, hreturned c (hall _ _ c hinto)⟩
      · refine .inl ?_
        rw [hc.into, if_neg hcoll]
        exact hinto
    · exact .inr ⟨.inl hw, hreturned c hret⟩

/-! ## The invariant after sweeping -/

namespace Swept

variable {ef : EdgeRef}

theorem pathKnown (h : Swept A s s') {x : PathEdge} {p : ProcId} {node proc : String}
    {source target : D} (hx : x.edge ∈ edgeRoots s)
    (hp : PathKnown A s x p node proc source target) :
    PathKnown A s' x p node proc source target := by
  refine ⟨?_, ?_, ?_, ?_, hp.procOf, hp.entered.imp fun _ _ _ => h.hasPath, hp.origin, hp.derives,
    h.labelled hx hp.labelled, hp.spelled.imp (h.leaves _ hx)⟩ <;> rw [h.same]
  exacts [hp.hasNode, hp.hasSource, hp.hasTarget, hp.hasProc]

theorem summaryKnown (h : Swept A s s') {p : ProcId} {e d : FactId} {x : NodeId}
    {proc exit : String} {entry fact : D} (hef : ef ∈ edgeRoots s)
    (hs : SummaryKnown A s p e x d ef proc exit entry fact) :
    SummaryKnown A s' p e x d ef proc exit entry fact := by
  refine ⟨?_, ?_, ?_, ?_, hs.exitOf, hs.noCall, hs.derives, h.labelled hef hs.labelled,
    hs.spelled.imp (h.leaves _ hef)⟩ <;> rw [h.same]
  exacts [hs.hasProc, hs.hasEntry, hs.hasExit, hs.hasFact]

theorem recordKnown (h : Swept A s s') {c : CallRecord} {site caller callee : String}
    {source entry : D} (hef : c.edge ∈ edgeRoots s)
    (hr : RecordKnown A s c site caller callee source entry) :
    RecordKnown A s' c site caller callee source entry := by
  obtain ⟨b, e, hpath, he⟩ := hr.enter
  refine ⟨?_, ?_, ?_, ?_, hr.procOf, hr.entered.imp fun _ _ _ => h.hasPath,
    ⟨b, e, h.hasPath hpath, he⟩, hr.start, h.labelled hef hr.labelled,
    hr.spelled.imp (h.leaves _ hef)⟩ <;> rw [h.same]
  exacts [hr.hasSite, hr.hasSource, hr.hasCallee, hr.hasEntry]

theorem crossed (hled : s.ledger.Wf) (h : Swept A s s') {n : NodeId} {a b : FactId}
    (hef : s.paths.get? n a b = some ef) (hx : Crossed A s ⟨n, a, b, ef⟩) :
    Crossed A s' ⟨n, a, b, ef⟩ :=
  hx.later (h.later hled) fun _ ψ hψ => h.means _ (path_mem_edgeRoots hef) ψ hψ

theorem returned (hled : s.ledger.Wf) (h : Swept A s s') {c : CallRecord}
    (hc : c ∈ s.ledger) (hret : Returned A s c) : Returned A s' c :=
  hret.later (h.later hled)
    (fun x d ef hef => by
      rw [h.same] at hef
      exact hef.congr rfl rfl rfl rfl id)
    (fun _ ψ hψ => h.means _ (record_mem_edgeRoots hled hc) ψ hψ)
    fun _ _ _ _ hef ψ hψ => h.means _ (Summary.mem_edgeRoots hef) ψ hψ

end Swept

/-- Sweeping keeps the invariant, unless labels have to be exact. -/
theorem Swept.inv (hgc : A.config.gcMode ≠ .disabled) (hinv : Inv A s) (h : Swept A s s') :
    Inv A s' := by
  have hpath : ∀ {x p}, x.edge ∈ edgeRoots s → PathOk A s x p → PathOk A s' x p := by
    rintro x p hx ⟨node, proc, source, target, hp⟩
    exact ⟨node, proc, source, target, h.pathKnown hx hp.toPathKnown,
      fun hprec => absurd hprec (h.not_precise hgc)⟩
  have hpaths : ∀ n a b ef, s.paths.get? n a b = some ef → ∃ p, PathOk A s' ⟨n, a, b, ef⟩ p :=
    fun n a b ef hef => (hinv.paths n a b ef hef).imp fun _ => hpath (path_mem_edgeRoots hef)
  have hlater := (h.later hinv.ledger).paths
  have hqueue : ∀ x ∈ s.queue.toList, (∃ p, PathOk A s' x p) ∧ Tabled A s' x := fun x hx => by
    have hroot := queue_mem_edgeRoots hx
    obtain ⟨⟨p, hp⟩, htab⟩ := hinv.queue x hx
    exact ⟨⟨p, hpath hroot hp⟩, htab.later hp.labelled (fun _ => h.means _ hroot) hlater⟩
  have hsummaries : ∀ p e x d ef, s.summaries.get? p e x d = some ef →
      SummaryOk A s' p e x d ef ∧ Backed A s' ⟨x, e, d, ef⟩ := fun p e x d ef hef => by
    have hroot := summary_mem_edgeRoots hef
    obtain ⟨⟨proc, exit, entry, fact, hs⟩, hback⟩ := hinv.summaries p e x d ef hef
    exact ⟨⟨proc, exit, entry, fact, h.summaryKnown hroot hs.toSummaryKnown,
      fun hprec => absurd hprec (h.not_precise hgc)⟩,
      h.backed hinv.ledger hroot hs.labelled hback⟩
  have hrecords : ∀ c ∈ s.ledger, RecordOk A s' c := fun c hc => by
    obtain ⟨site, caller, callee, source, entry, hr⟩ := hinv.records c hc
    exact ⟨site, caller, callee, source, entry,
      h.recordKnown (record_mem_edgeRoots hinv.ledger hc) hr.toRecordKnown,
      fun hprec => absurd hprec (h.not_precise hgc)⟩
  have hstore := h.regular
  have hlimit := h.joinLimit.trans hinv.joinLimit
  obtain ⟨store, rfl⟩ : ∃ store, s' = { s with store, answers := s.answers.clearEdges } :=
    ⟨_, h.same⟩
  exact {
    nodes := hinv.nodes
    facts := hinv.facts
    procs := hinv.procs
    answers := AnswersOk.clearEdges hinv.answers store
    store := hstore
    joinLimit := hlimit
    paths := hpaths
    queue := hqueue
    summaries := hsummaries
    records := hrecords
    ledger := hinv.ledger
    into := hinv.into
    forward := hinv.forward
    reached := hinv.reached
    seeds := hinv.seeds }

theorem Swept.settled (hgc : A.config.gcMode ≠ .disabled) {E : PathEdge → Prop}
    {F : FactId → ProcId → Prop}
    (h : Settled A W E F s) (hs : Swept A s s') : Settled A W E F s' := by
  have hcrossed : ∀ n a b ef, s.paths.get? n a b = some ef → Crossed A s ⟨n, a, b, ef⟩ →
      Crossed A s' ⟨n, a, b, ef⟩ := fun _ _ _ _ => hs.crossed h.inv.ledger
  have hreturned : ∀ c ∈ s.ledger, Returned A s c → Returned A s' c := fun _ =>
    hs.returned h.inv.ledger
  have hinv := hs.inv hgc h.inv
  have hdormant := hs.dormant h.dormant
  obtain ⟨store, rfl⟩ : ∃ store, s' = { s with store, answers := s.answers.clearEdges } :=
    ⟨_, hs.same⟩
  refine ⟨hinv, hdormant, fun n a b ef hef => ?_, fun e q c hc => ?_, fun c hc => ?_⟩
  · exact (h.paths n a b ef hef).imp_right (Or.imp_right (hcrossed n a b ef hef))
  · exact (h.calls e q c hc).imp_right (Or.imp_right (hreturned c (h.inv.into e q c hc).1))
  · exact (h.attached c hc).imp_right (Or.imp_right (And.imp_right (hreturned c hc)))

/-! ## The end of a round -/

/-- Only the lists of waiting calls, the counts and the stored functions changed, and labels only
grew. -/
structure Tidied (A : Analysis D L K) (s s' : State D L K) : Prop where
  later : Later A s s'
  seeds : s'.seeds = s.seeds
  stage : s'.stage = s.stage
  queue : s'.queue = s.queue
  callQueue : s'.callQueue = s.callQueue

theorem collectProcs_spec (hA : Scope A) (hv : A.config.computeValues = true)
    (hgc : A.config.gcMode.isEnabled = true)
    (h : Settled A W (fun _ => False) (fun _ _ => False) s) (hnone : ∀ e q, ¬ PendingKey s e q)
    {u : Unit} (hrun : (collectProcs A).run s = .ok (u, s')) :
    ∃ W', Settled A W' (fun _ => False) (fun _ _ => False) s' ∧ Tidied A s s' := by
  obtain ⟨_, _, hget, hrun⟩ := run_bind_ok hrun
  obtain ⟨rfl, rfl⟩ := run_get_ok hget
  generalize hcoll : s.retention.collectable (callersOf A s.procs) = coll at hrun
  obtain ⟨ps, r⟩ := coll
  obtain ⟨_, _, hset, hrun⟩ := run_bind_ok hrun
  obtain ⟨-, rfl⟩ := run_pure_ok hset
  obtain ⟨hcounts, hcand, hps⟩ := Retention.collectable_spec h.dormant.slots hcoll
  have hc := collectAll_spec hA hv hrun
  have hc' : Collected ps s s' := ⟨hc.same, hc.ledger, hc.into,
    hc.counts.trans hcounts, fun i => by rw [← hcand]; exact hc.candidates i⟩
  refine ⟨_, hc'.settled hA h hnone hgc fun p hp => (hps p hp).2, ?_⟩
  obtain ⟨ledger, retention, rfl⟩ : ∃ ledger retention, s' = { s with ledger, retention } :=
    ⟨_, _, hc'.same⟩
  exact ⟨.of_grows { State.Grows.refl s with } rfl rfl fun c => (hc'.ledger.mem_iff c).2, rfl, rfl,
    rfl, rfl⟩

theorem sweepIfAsked_spec (hA : Scope A) (hgc : A.config.gcMode ≠ .disabled)
    (h : Settled A W (fun _ => False) (fun _ _ => False) s)
    {u : Unit} (hrun : (sweepIfAsked A).run s = .ok (u, s')) :
    Settled A W (fun _ => False) (fun _ _ => False) s' ∧ Tidied A s s' := by
  unfold sweepIfAsked at hrun
  split at hrun
  · next hasked =>
    have hv : A.config.computeValues = true := (Bool.and_eq_true_iff.1 hasked).2
    have hs := sweepEdges_spec hA hv h.inv.store hrun
    have hlater := hs.later h.inv.ledger
    refine ⟨hs.settled hgc h, ?_⟩
    obtain ⟨store, rfl⟩ : ∃ store, s' = { s with store, answers := s.answers.clearEdges } :=
      ⟨_, hs.same⟩
    exact ⟨hlater, rfl, rfl, rfl, rfl⟩
  · obtain ⟨-, rfl⟩ := run_pure_ok hrun
    exact ⟨h, .refl s, rfl, rfl, rfl, rfl⟩

theorem collect_spec (hA : Scope A)
    (h : Settled A W (fun _ => False) (fun _ _ => False) s) (hnone : ∀ e q, ¬ PendingKey s e q)
    {u : Unit} (hrun : (collect A).run s = .ok (u, s')) :
    ∃ W', Settled A W' (fun _ => False) (fun _ _ => False) s' ∧ Tidied A s s' := by
  unfold collect at hrun
  split at hrun
  · next hgc =>
    obtain ⟨hmode, hv⟩ : A.config.gcMode = .enabled ∧ A.Valued := by
      refine hA.mode.resolve_left fun hmode => ?_
      rw [hmode] at hgc
      cases hgc
    obtain ⟨_, t, hcollect, hsweep⟩ := run_bind_ok hrun
    obtain ⟨W', hW', htidy⟩ := collectProcs_spec hA hv.1 hgc h hnone hcollect
    obtain ⟨hs, htidy'⟩ := sweepIfAsked_spec hA (by rw [hmode]; exact nofun) hW' hsweep
    exact ⟨W', hs, htidy.later.trans htidy'.later, htidy'.seeds.trans htidy.seeds,
      htidy'.stage.trans htidy.stage, htidy'.queue.trans htidy.queue,
      htidy'.callQueue.trans htidy.callQueue⟩
  · obtain ⟨-, rfl⟩ := run_pure_ok hrun
    exact ⟨W, h, .refl s, rfl, rfl, rfl, rfl⟩

end Solver

end Tabulation
