import Tabulation.Proofs.Solver.Collect

/-!
# Rounds of fact propagation

`Ready A W s` holds of every state of a run: everything is done or pending, all seeds are taken down
once the run began, and what the stage says about the queues is true. It holds before a run,
`create_spec`. One move of the machine keeps it, `step_spec`, so a run that ends keeps it,
`run_spec`.
-/

namespace Tabulation

variable {D L K : Type} [Ord D] [Ord L] [Ord K] [DecidableEq D] [JoinLattice L] [Payload K L]
  [DecidableEq L]

/-- What the stage says about the queues. -/
def StageOk (s : State D L K) : Prop :=
  match s.stage with
  | .fresh => True
  | .drain => True
  | .replay _ => s.callQueue.keys = #[]
  | .done => s.callQueue.keys = #[] ∧ s.queue.toList = []

/-- A state between two moves of a run. -/
structure Ready (A : Analysis D L K) (W : ProcId → FactId → Prop) (s : State D L K) : Prop extends
    Settled A W (fun _ => False) (fun _ _ => False) s where
  fresh : s.stage = .fresh → ∀ p a, ¬ W p a
  submitted : s.stage ≠ .fresh → ∀ sp a v, (sp, a, v) ∈ A.problem.seeds.toList →
    Submitted A s sp a v
  stage : StageOk s

section Update

variable {A : Analysis D L K} {W : ProcId → FactId → Prop} {E E' : PathEdge → Prop}
  {F F' : FactId → ProcId → Prop} {s : State D L K} {queue : Worklist PathEdge}
  {callQueue : CallQueue} {retention : Retention} {stage : Stage} {stats : Stats}

open Classical in
/-- Work may be taken off the queues as long as it is kept in mind. -/
theorem Settled.update (h : Settled A W E F s)
    (hqueue : ∀ x ∈ queue.toList, x ∈ s.queue.toList)
    (hpaths : ∀ x, E x ∨ x ∈ s.queue.toList → E' x ∨ x ∈ queue.toList)
    (hkeys : ∀ e q, PendingKey { s with queue, callQueue, retention, stage, stats } e q →
      PendingKey s e q)
    (hcalls : ∀ e q, F e q ∨ PendingKey s e q →
      F' e q ∨ PendingKey { s with queue, callQueue, retention, stage, stats } e q)
    (hsummaries : ∀ p e x d ef,
      Summary A { s with queue, callQueue, retention, stage, stats } p e x d ef →
      Summary A s p e x d ef ∨ F' e p ∧ ¬ W p e)
    (hcandidates : retention.candidates = s.retention.candidates)
    (hcounts : A.config.gcMode.isEnabled = true → ∀ p,
      (queue.toList.countP fun x => InProc A s x.node p) ≤ retention.count p) :
    Settled A W E' F' { s with queue, callQueue, retention, stage, stats } := by
  have hg : s.Grows { s with queue, callQueue, retention, stage, stats } :=
    { State.Grows.refl s with }
  have hlater : Later A s { s with queue, callQueue, retention, stage, stats } :=
    .of_grows hg rfl rfl fun c hc => hc
  have hreturned : ∀ c, ¬ (F' c.entry c.callee ∧ ¬ W c.callee c.entry) → Returned A s c →
      Returned A { s with queue, callQueue, retention, stage, stats } c := fun c hnot hret =>
    hret.later hlater (fun _ _ _ hef => (hsummaries _ _ _ _ _ hef).resolve_right hnot)
      (fun _ _ hψ => hψ) fun _ _ _ _ _ _ hψ => hψ
  have hinv := h.inv
  refine ⟨hinv.withTables hqueue hinv.summaries hinv.records hinv.ledger hinv.into hinv.forward,
    ?_, fun n a b ef hef => ?_, fun e q c hc => ?_, fun c hc => ?_⟩
  · have hd := h.dormant
    exact ⟨hd.enabled, fun hv n a b ef p hef hp => (hd.rooted hv n a b ef p hef hp).of_quiet hg rfl,
      hd.started,
      fun p a hw => (hd.asleep p a hw).of_quiet hg rfl, hd.closed,
      fun x hx p hp => hd.queue x (hqueue x hx) p hp, fun e q hk => hd.keys e q (hkeys e q hk),
      fun hgc n a b ef p hef hp => by
        show _ ∈ retention.candidates ∨ _
        rw [hcandidates]
        exact hd.candidates hgc n a b ef p hef hp, hcounts,
      fun i hi => hd.slots i (by rw [← hcandidates]; exact hi)⟩
  · rcases h.paths n a b ef hef with hE | hx | hx
    · exact (hpaths _ (.inl hE)).imp_right .inl
    · exact (hpaths _ (.inr hx)).imp_right .inl
    · exact .inr (.inr (hx.later hlater fun _ _ hψ => hψ))
  · rcases h.calls e q c hc with hF | hk | hret
    · exact (hcalls e q (.inl hF)).imp_right .inl
    · exact (hcalls e q (.inr hk)).imp_right .inl
    · by_cases hF : F' e q
      · exact .inl hF
      · obtain ⟨-, rfl, rfl⟩ := hinv.into e q c hc
        exact .inr (.inr (hreturned c (fun hnot => hF hnot.1) hret))
  · refine (h.attached c hc).imp_right (Or.imp_right fun hw => ⟨hw.1, hreturned c ?_ hw.2⟩)
    exact fun hnot => hnot.2 hw.1

/-- When no key is left to be replayed, the stage may change. -/
theorem Settled.setStage (h : Settled A W E F s)
    (hold : ∀ ks, s.stage = .replay ks → ks = []) (hnew : ∀ ks, stage ≠ .replay ks) :
    Settled A W E F { s with stage, stats } := by
  refine h.update (fun _ hx => hx) (fun _ hx => hx) (fun e q hk => ?_) (fun e q hk => ?_)
    (fun _ _ _ _ _ hs => .inl (hs.congr rfl rfl rfl rfl id)) rfl h.dormant.counts
  · rcases hk with hk | ⟨ks, hks, -⟩
    · exact .inl hk
    · exact absurd hks (hnew ks)
  · refine hk.imp_right fun hk => ?_
    rcases hk with hk | ⟨ks, hks, hk⟩
    · exact .inl hk
    · rw [hold ks hks] at hk
      cases hk

end Update

namespace Solver

variable {A : Analysis D L K} {W : ProcId → FactId → Prop} {s s' : State D L K}

/-! ## The kinds of moves -/

section Step

variable {job : PathEdge} {queue : Worklist PathEdge} {key : UInt64} {keys : List UInt64}

theorem run_step_fresh (h : s.stage = .fresh) : (step A).run s = (begin A).run s := by
  unfold step
  rw [StateT.run_bind]
  simp only [StateT.run_get, pure_bind, h]

theorem run_step_take (h : s.stage = .drain) (hpop : s.queue.pop? = some (job, queue)) :
    (step A).run s = (propagate A job).run { s with queue } := by
  unfold step
  rw [StateT.run_bind]
  simp only [StateT.run_get, pure_bind, h, hpop]
  rw [← h]
  rfl

theorem run_step_keys (h : s.stage = .drain) (hpop : s.queue.pop? = none) :
    (step A).run s = takeKeys.run s := by
  unfold step
  rw [StateT.run_bind]
  simp only [StateT.run_get, pure_bind, h, hpop]

theorem run_step_replay (h : s.stage = .replay (key :: keys)) :
    (step A).run s = (replay A key).run { s with stage := .replay keys } := by
  unfold step
  rw [StateT.run_bind]
  simp only [StateT.run_get, pure_bind, h]
  rfl

theorem run_step_end (h : s.stage = .replay []) : (step A).run s = (endRound A).run s := by
  unfold step
  rw [StateT.run_bind]
  simp only [StateT.run_get, pure_bind, h]

end Step

/-! ## More steps -/

/-- A run that ends in time ends in the same way with more time. -/
theorem run_add {n : Nat} {s' : State D L K} (h : run A n s = .ok s') (k : Nat) :
    run A (n + k) s = .ok s' := by
  induction n generalizing s with
  | zero =>
    unfold run at h
    split at h
    · next hdone =>
      rw [← h]
      cases k <;> simp [run, hdone]
    · cases h
  | succ n ih =>
    rw [Nat.add_right_comm]
    unfold run at h ⊢
    split at h
    · next hdone => rwa [if_pos hdone]
    · next hndone =>
      rw [if_neg hndone]
      obtain ⟨r, hstep, h⟩ := bind_eq_ok.1 h
      exact bind_eq_ok.2 ⟨r, hstep, ih h⟩

/-- More time does not help if numbers run out. -/
theorem run_add_exhausted {n : Nat} (h : run A n s = .error .idsExhausted) (k : Nat) :
    run A (n + k) s = .error .idsExhausted := by
  induction n generalizing s with
  | zero =>
    unfold run at h
    split at h <;> cases h
  | succ n ih =>
    rw [Nat.add_right_comm]
    unfold run at h ⊢
    split at h
    · cases h
    · next hndone =>
      rw [if_neg hndone]
      cases hstep : (step A).run s with
      | error f =>
        rw [hstep] at h
        exact h
      | ok r =>
        rw [hstep] at h
        exact ih h

/-! ## Moves that ask nothing -/

open Classical in
/-- A path edge is taken from the queue. -/
theorem take_settled (hA : Scope A) (h : Settled A W (fun _ => False) (fun _ _ => False) s)
    {job : PathEdge} {queue : Worklist PathEdge} {p : ProcId} {r : Retention}
    (hpop : s.queue.pop? = some (job, queue)) (hp : PathOk A s job p)
    (hr : if A.config.gcMode.isEnabled then s.retention.release p = .ok r else r = s.retention) :
    Settled A W (· = job) (fun e q => q = p ∧ e = job.source ∧ LeavesAt A s p job.node)
      { s with queue, retention := r } := by
  have hperm := Worklist.pop?_perm hpop
  refine h.update (fun x hx => hperm.mem_iff.2 (List.mem_cons_of_mem _ hx)) (fun x hx => ?_)
    (fun e q hk => hk) (fun e q hk => .inr (hk.resolve_left id)) (fun q e x d ef hs => ?_) ?_
    fun hgc q => ?_
  · exact List.mem_cons.1 (hperm.mem_iff.1 (hx.resolve_left id))
  · by_cases hjob : ⟨x, e, d, ef⟩ = job
    · cases hs with
      | table hu hef => exact .inl (.table hu hef)
      | path hu hl hef _ =>
        obtain ⟨callee, exit, hq, hx, hexit, hno⟩ := hl
        obtain rfl : q = p := by
          refine InProc.unique h.inv.procs ⟨exit, callee, ?_, ?_, hq⟩ hp.inProc
          · exact hjob ▸ hx
          · exact ((Supergraph.exitOf_iff hA.graph).1 hexit).1
        refine .inr ⟨⟨rfl, congrArg PathEdge.source hjob, callee, exit, hq, ?_, hexit, hno⟩, ?_⟩
        · exact hjob ▸ hx
        · have hmem : job ∈ s.queue.toList := hperm.mem_iff.2 List.mem_cons_self
          have hsource : e = job.source := congrArg PathEdge.source hjob
          exact hsource ▸ h.dormant.queue job hmem q hp.inProc
    · exact .inl (hs.congr rfl rfl rfl rfl fun hmem =>
        (List.mem_cons.1 (hperm.mem_iff.1 hmem)).resolve_left hjob)
  · split at hr
    · exact (Retention.release_spec hr).1
    · rw [hr]
  · rw [if_pos hgc] at hr
    obtain ⟨-, hpos, hcount⟩ := Retention.release_spec hr
    have hle := h.dormant.counts hgc q
    rw [queuedIn_pop h.inv.procs hpop hp.inProc] at hle
    change queuedIn A { s with queue } q ≤ r.count q
    rw [hcount q]
    split
    · next heq =>
      rw [if_pos heq] at hle
      omega
    · omega

theorem takeKeys_spec (h : Ready A W s) (hstage : s.stage = .drain) {u : Unit}
    (hrun : takeKeys.run s = .ok (u, s')) : Ready A W s' := by
  obtain rfl := run_modify_ok hrun
  have hkey : ∀ e q, PendingKey s e q ↔ pack e.val q.val ∈ s.callQueue.keys := fun e q => by
    simp [PendingKey, hstage]
  refine ⟨h.update (fun _ hx => hx) (fun _ hx => hx) (fun e q hk => ?_) (fun e q hk => ?_)
    (fun _ _ _ _ _ hs => .inl (hs.congr rfl rfl rfl rfl id)) rfl h.dormant.counts,
    fun hfresh => (by cases hfresh),
    fun _ sp a v hseed =>
      (h.submitted (by simp [hstage]) sp a v hseed).later ?_ fun _ hjob => hjob, rfl⟩
  · rw [hkey]
    rcases hk with hk | ⟨ks, hks, hk⟩
    · simp at hk
    · obtain rfl := Stage.replay.inj hks
      simpa [CallQueue.take] using hk
  · refine .inr (.inr ⟨_, rfl, ?_⟩)
    simpa [CallQueue.take] using (hkey e q).1 (hk.resolve_left id)
  · exact .of_grows { State.Grows.refl s with } rfl rfl fun c hc => hc

theorem endRound_spec (hA : Scope A) (h : Ready A W s) (hstage : s.stage = .replay []) {u : Unit}
    (hrun : (endRound A).run s = .ok (u, s')) : ∃ W', Ready A W' s' := by
  have hempty := h.stage
  simp only [StageOk, hstage] at hempty
  have hnone : ∀ e q, ¬ PendingKey s e q := by
    intro e q hk
    simp [PendingKey, hempty, hstage] at hk
  obtain ⟨_, t, hcollect, hrun⟩ := run_bind_ok hrun
  obtain ⟨W', ht, htidy⟩ := collect_spec hA h.toSettled hnone hcollect
  obtain ⟨_, _, hget, hrun⟩ := run_bind_ok hrun
  obtain ⟨rfl, rfl⟩ := run_get_ok hget
  have hsubmitted : ∀ {stage stats}, ∀ sp a v, (sp, a, v) ∈ A.problem.seeds.toList →
      Submitted A { t with stage, stats } sp a v := fun {stage stats} sp a v hseed => by
    have hlater : Later A t { t with stage, stats } :=
      .of_grows { State.Grows.refl t with } rfl rfl fun c hc => hc
    refine (h.submitted (by simp [hstage]) sp a v hseed).later
      (htidy.later.trans hlater) fun job hjob => ?_
    show job ∈ t.seeds
    rw [htidy.seeds]
    exact hjob
  have hold : ∀ ks, t.stage = .replay ks → ks = [] := fun ks hks =>
    (Stage.replay.inj (hstage.symm.trans (htidy.stage.symm.trans hks))).symm
  split at hrun
  · next hqueue =>
    obtain rfl := run_modify_ok hrun
    refine ⟨W', ht.setStage hold fun _ hks => (by cases hks), fun hfresh => (by cases hfresh),
      fun _ => hsubmitted, ?_, ?_⟩
    · exact htidy.callQueue ▸ hempty
    · exact (Worklist.isEmpty_iff _).1 hqueue
  · obtain rfl := run_modify_ok hrun
    exact ⟨W', ht.setStage hold fun _ hks => (by cases hks), fun hfresh => (by cases hfresh),
      fun _ => hsubmitted, trivial⟩

/-! ## The state before a run -/

variable [Std.TransOrd D] [Std.LawfulEqOrd D]

theorem create_spec (h : create A = .ok s) : Ready A (fun _ _ => False) s := by
  simp only [create, bind_eq_ok, pure_eq_ok] at h
  obtain ⟨facts, hfacts, procs, hprocs, store, hstore, rfl⟩ := h
  obtain ⟨-, rfl⟩ := EdgeStore.create_eq_ok.1 hstore
  have hnone : ∀ {n a b ef}, PathTable.empty.get? n a b ≠ some ef := fun {n a b ef} hef => by
    rw [PathTable.get?_empty] at hef
    cases hef
  refine ⟨⟨⟨⟨Interner.wf_empty, (internAll_spec hfacts).1, (internAll_spec hprocs).1,
    answersOk_empty rfl,
      EdgeStore.regular_withLimit _, rfl⟩,
      fun _ _ _ _ hef => absurd hef hnone, nofun, fun _ _ _ _ _ hef => ?_, nofun,
      CallLedger.wf_empty, fun _ _ => nofun, fun _ _ => nofun, fun n b => ?_, nofun⟩,
    ⟨fun _ _ hw => hw.elim, fun _ _ _ _ _ _ hef => absurd hef hnone, nofun, nofun, nofun, nofun,
      fun _ _ _ hw => hw,
      fun _ _ _ _ _ _ hef => absurd hef hnone, fun _ _ => Nat.zero_le _,
      fun i hi => absurd hi (BitSet.not_mem_ofCapacity _ i)⟩,
    fun _ _ _ _ hef => absurd hef hnone, fun _ _ => nofun, nofun⟩,
    fun _ _ _ hw => hw, fun hfresh => absurd rfl hfresh, trivial⟩
  · rw [SummaryTable.get?_empty] at hef
    cases hef
  · constructor
    · nofun
    · rintro ⟨a, ef, hef⟩
      exact absurd hef hnone

/-! ## The first move -/

/-- Without collection, seeds may be anywhere. -/
def Anywhere (A : Analysis D L K) (_ : ProcId) (_ : FactId) : Prop :=
  A.config.gcMode.isEnabled ≠ true

theorem submitSeed_spec (hA : Scope A) {Z : ProcId → FactId → Prop}
    (hZ : A.SeedsAtStarts ∨ ∀ p a, Z p a) (h : Inv A s) {sp : String} {a : D} {v : L} {u : Unit}
    (hseed : (sp, a, v) ∈ A.problem.seeds.toList)
    (hrun : (submitSeed A sp a v).run s = .ok (u, s')) :
    Fill A Z s s' ∧ Submitted A s' sp a v := by
  obtain ⟨n, s₁, hnode, hrun⟩ := run_bind_ok hrun
  obtain ⟨hb₁, hq₁, hn⟩ := nodeId_spec h.toBase hnode
  obtain ⟨i, s₂, hfact, hrun⟩ := run_bind_ok hrun
  obtain ⟨hb₂, hq₂, hi⟩ := factId_spec hb₁ hfact
  obtain ⟨proc, _, hlift, hrun⟩ := run_bind_ok hrun
  obtain ⟨hproc, rfl⟩ := run_lift_ok hlift
  obtain ⟨p, s₃, hid, hrun⟩ := run_bind_ok hrun
  obtain ⟨hb₃, hq₃, hp⟩ := procId_spec hb₂ hid
  obtain ⟨_, s₄, hmod, hrec⟩ := run_bind_ok hrun
  have hs₄ := run_modify_ok hmod
  have hq : Quiet s s₃ := (hq₁.trans hq₂).trans hq₃
  have hn₃ : s₃.HasNode n sp := (hq₂.trans hq₃).nodes _ _ hn
  have hi₃ : s₃.HasFact i a := hq₃.facts _ _ hi
  have hfill : Fill A Z s s₃ := hq.fill hb₃
  have hmove : Move A Z s₃ s₄ := hs₄ ▸ .seed hn₃ hi₃ hseed
  have hfill₄ : Fill A Z s₃ s₄ := by
    refine ⟨.single hmove, ?_, ?_, ?_⟩ <;> rw [← hs₄]
  have h₄ := hmove.inv (Moves.inv h hfill.moves)
  have hstart : A.SeedsAtStarts → A.graph.StartOf proc sp := fun hs =>
    (Supergraph.startOf_iff hA.graph).2 ⟨hproc, hs _ hseed⟩
  have hg := hmove.grows
  have hpath : PathFacts A s₄ ⟨n, i, i, .identity⟩ p sp proc a a :=
    .first h₄.toBase (hg.nodes _ _ hn₃) (hg.facts _ _ hi₃) (hg.procs _ _ hp) hproc
      (.seed hseed hproc) (fun _ => .seed hseed hproc) (fun hp => hstart hp.seeds)
      fun _ hR => hR.seed hseed hproc
  have hz : Z p i ∨ AtStart A s₄ ⟨n, i, i, .identity⟩ .identity :=
    hZ.symm.imp (fun hall => hall p i) fun hs => ⟨rfl, rfl, sp, proc, hpath.hasNode, hstart hs⟩
  obtain ⟨hfill₅, ef, hef, hle⟩ := record_spec hA h₄ ⟨_, _, _, _, hpath⟩ hz hrec
  have hg₅ := hfill₅.moves.grows
  refine ⟨(hfill.trans hfill₄).trans hfill₅, ⟨n, i, v⟩, ?_, hg₅.nodes _ _ hpath.hasNode,
    hg₅.facts _ _ hpath.hasTarget, rfl, n, i, ef, hg₅.nodes _ _ hpath.hasNode,
    hg₅.facts _ _ hpath.hasTarget, hef, hle.covers fun hv => h₄.store.means_identity⟩
  refine Moves.seeds hfill₅.moves _ ?_
  rw [← hs₄]
  exact List.mem_append_right _ (List.mem_singleton.2 rfl)

theorem begin_spec (hA : Scope A) (h : Ready A W s) (hfresh : s.stage = .fresh) {u : Unit}
    (hrun : (begin A).run s = .ok (u, s')) : Ready A W s' := by
  obtain ⟨_, t, hloop, hround⟩ := run_bind_ok hrun
  have hZ : A.SeedsAtStarts ∨ ∀ p a, Anywhere A p a := by
    by_cases hgc : A.config.gcMode.isEnabled = true
    · exact .inl (hA.seeds hgc)
    · exact .inr fun _ _ => hgc
  obtain ⟨ht, hpass, hall⟩ := run_forM_rel
    (I := Settled A W (fun _ => False) (fun _ _ => False)) (R := Pass A (Anywhere A))
    (Q := fun (x : String × D × L) t => Submitted A t x.1 x.2.1 x.2.2) Pass.refl Pass.trans
    (fun hI hR hQ => hQ.later (hR.moves.later hI.inv) (Moves.seeds hR.moves)) hloop
    h.toSettled (by
      rintro ⟨sp, a, v⟩ hseed t t' ht - hrun
      obtain ⟨hfill, hsub⟩ := submitSeed_spec hA hZ ht.inv hseed hrun
      exact ⟨hfill.pass.settled hA ht fun p a hz => ⟨fun hv => absurd hv hz, h.fresh hfresh p a⟩,
        hfill.pass, hsub⟩)
  obtain rfl := run_modify_ok hround
  have hstage : t.stage = .fresh := (Moves.stage hpass.moves).trans hfresh
  refine ⟨ht.setStage (fun ks hks => ?_) (fun _ => nofun), nofun,
    fun _ sp a v hseed => (hall _ hseed).later ?_ fun _ hjob => hjob, trivial⟩
  · rw [hstage] at hks
    cases hks
  · exact .of_grows { State.Grows.refl t with } rfl rfl fun c hc => hc

/-! ## Moves of a round -/

/-- Propagating a path edge works on its procedure and source only. -/
theorem drain_pass (hA : Scope A) (h : Inv A s) {job : PathEdge} {queue : Worklist PathEdge}
    {u : Unit} (hpop : s.queue.pop? = some (job, queue))
    (hrun : (propagate A job).run { s with queue } = .ok (u, s')) :
    ∃ p r, PathOk A s job p ∧ Tabled A s job ∧
      (if A.config.gcMode.isEnabled then s.retention.release p = .ok r else r = s.retention) ∧
      Pass A (pairOf p job) { s with queue, retention := r } s' ∧ Crossed A s' job ∧
      (LeavesAt A s p job.node → pack job.source.val p.val ∈ s'.callQueue.keys) := by
  have hmem : job ∈ s.queue.toList :=
    (Worklist.pop?_perm hpop).mem_iff.2 List.mem_cons_self
  obtain ⟨⟨p, hp⟩, hhas⟩ := h.queue job hmem
  have hinv : Inv A { s with queue } := h.withTables
    (fun x hx => (Worklist.pop?_perm hpop).mem_iff.2 (List.mem_cons_of_mem _ hx))
    h.summaries h.records h.ledger h.into h.forward
  have hp' : PathOk A { s with queue } job p := hp.mono { State.Grows.refl s with }
  obtain ⟨t, r, hb, hq, hr, hpass, hcrossed, hkey⟩ := propagate_spec hA hinv hp' hhas hrun
  have hquiet : Move A (pairOf p job) { s with queue, retention := r } { t with retention := r } :=
    .quiet (hb.congr rfl rfl rfl rfl rfl) { hq with retention := rfl }
  exact ⟨p, r, hp, hhas, hr, (hquiet.pass hq.ledger).trans hpass, hcrossed, hkey⟩

theorem drain_spec (hA : Scope A) (h : Ready A W s) (hstage : s.stage = .drain) {job : PathEdge}
    {queue : Worklist PathEdge} {u : Unit} (hpop : s.queue.pop? = some (job, queue))
    (hrun : (propagate A job).run { s with queue } = .ok (u, s')) : Ready A W s' := by
  obtain ⟨p, r, hp, hhas, hr, hpass, hcrossed, hkey⟩ := drain_pass hA h.inv hpop hrun
  have hmem : job ∈ s.queue.toList :=
    (Worklist.pop?_perm hpop).mem_iff.2 List.mem_cons_self
  have htake := take_settled hA h.toSettled hpop hp hr
  have hZ : Awake A (pairOf p job) W { s with queue, retention := r } := by
    rintro q a ⟨rfl, rfl⟩
    obtain ⟨ef, hef, -⟩ := hhas
    exact ⟨fun hv => htake.dormant.rooted hv _ _ _ ef q hef hp.inProc,
      h.dormant.queue job hmem q hp.inProc⟩
  have hs := hpass.settled hA htake hZ
  have hlater₀ : Later A s { s with queue, retention := r } :=
    .of_grows { State.Grows.refl s with } rfl rfl fun c hc => hc
  have hlater : Later A s s' := hlater₀.trans (hpass.moves.later htake.inv)
  have hdrain : s'.stage = .drain := (Moves.stage hpass.moves).trans hstage
  refine ⟨⟨hs.inv, hs.dormant, fun n a b ef hef => ?_, fun e q c hc => ?_, hs.attached⟩,
    fun hfresh => ?_,
    fun _ sp a v hseed => (h.submitted (by simp [hstage]) sp a v hseed).later hlater
      fun job hjob => Moves.seeds hpass.moves job hjob, ?_⟩
  · rcases hs.paths n a b ef hef with heq | hx
    · exact .inr (.inr (heq ▸ hcrossed))
    · exact .inr hx
  · rcases hs.calls e q c hc with ⟨rfl, rfl, hl⟩ | hx
    · exact .inr (.inl (.inl (hkey hl)))
    · exact .inr hx
  · rw [hdrain] at hfresh
    cases hfresh
  · simp only [StageOk, hdrain]

theorem replayKey_spec (hA : Scope A) (h : Ready A W s) {key : UInt64} {keys : List UInt64}
    (hstage : s.stage = .replay (key :: keys)) {u : Unit}
    (hrun : (replay A key).run { s with stage := .replay keys } = .ok (u, s')) : Ready A W s' := by
  have hkey : ∀ e q, PendingKey s e q ↔
      pack e.val q.val ∈ s.callQueue.keys ∨ pack e.val q.val ∈ key :: keys := fun e q => by
    simp [PendingKey, hstage]
  have h₀ : Settled A W (fun _ => False) (fun e q => pack e.val q.val = key)
      { s with stage := .replay keys } := by
    refine h.update (fun _ hx => hx) (fun _ hx => hx) (fun e q hk => (hkey e q).2 ?_)
      (fun e q hk => ?_) (fun _ _ _ _ _ hs => .inl (hs.congr rfl rfl rfl rfl id)) rfl
      h.dormant.counts
    · rcases hk with hk | ⟨ks, hks, hk⟩
      · exact .inl hk
      · obtain rfl := Stage.replay.inj hks
        exact .inr (List.mem_cons_of_mem _ hk)
    · rcases (hkey e q).1 (hk.resolve_left id) with hk | hk
      · exact .inr (.inl hk)
      · rcases List.mem_cons.1 hk with hk | hk
        · exact .inl hk
        · exact .inr (.inr ⟨keys, rfl, hk⟩)
  obtain ⟨hfill, hreturned⟩ := replay_spec hA h₀.inv hrun
  have hpending : PendingKey s ⟨(unpack key).1⟩ ⟨(unpack key).2⟩ :=
    (hkey _ _).2 (.inr (by rw [pack_unpack]; exact List.mem_cons_self))
  generalize hi : (⟨(unpack key).1⟩ : FactId) = i at hfill hreturned hpending
  generalize hj : (⟨(unpack key).2⟩ : ProcId) = j at hfill hreturned hpending
  have hZ : Awake A (waitingOn A { s with stage := .replay keys } i j) W
      { s with stage := .replay keys } := by
    rintro p a ⟨c, hc, hp, rfl⟩
    obtain ⟨hmem, rfl, rfl⟩ := h.inv.into i j c hc
    obtain ⟨b, ef, hef⟩ := h₀.inv.exists_path hmem
    refine ⟨fun hv => h₀.dormant.rooted hv _ _ b ef p hef hp, fun hw => ?_⟩
    exact h.dormant.keys _ _ hpending (h.dormant.closed c hmem p hp hw)
  have hs := hfill.pass.settled hA h₀ hZ
  have hlater₀ : Later A s { s with stage := .replay keys } :=
    .of_grows { State.Grows.refl s with } rfl rfl fun c hc => hc
  have hlater : Later A s s' := hlater₀.trans (hfill.moves.later h₀.inv)
  have hstage' : s'.stage = .replay keys := Moves.stage hfill.moves
  refine ⟨⟨hs.inv, hs.dormant, hs.paths, fun e q c hc => ?_, hs.attached⟩, fun hfresh => ?_,
    fun _ sp a v hseed => (h.submitted (by simp [hstage]) sp a v hseed).later hlater
      fun job hjob => Moves.seeds hfill.moves job hjob, ?_⟩
  · rcases hs.calls e q c hc with heq | hx
    · refine .inr (.inr (hreturned c ?_))
      rw [hfill.ledger] at hc
      rw [← hi, ← hj, ← heq, unpack_pack]
      exact hc
    · exact .inr hx
  · rw [hstage'] at hfresh
    cases hfresh
  · have hempty := h.stage
    simp only [StageOk, hstage] at hempty
    simp only [StageOk, hstage', hfill.callQueue, hempty]

/-! ## One move -/

theorem step_spec (hA : Scope A) (h : Ready A W s) {u : Unit}
    (hrun : (step A).run s = .ok (u, s')) : ∃ W', Ready A W' s' := by
  cases hstage : s.stage with
  | fresh =>
    rw [run_step_fresh hstage] at hrun
    exact ⟨W, begin_spec hA h hstage hrun⟩
  | drain =>
    cases hpop : s.queue.pop? with
    | none =>
      rw [run_step_keys hstage hpop] at hrun
      exact ⟨W, takeKeys_spec h hstage hrun⟩
    | some next =>
      rw [run_step_take hstage hpop] at hrun
      exact ⟨W, drain_spec hA h hstage hpop hrun⟩
  | replay keys =>
    cases keys with
    | nil =>
      rw [run_step_end hstage] at hrun
      exact endRound_spec hA h hstage hrun
    | cons key keys =>
      rw [run_step_replay hstage] at hrun
      exact ⟨W, replayKey_spec hA h hstage hrun⟩
  | done =>
    obtain ⟨_, _, hget, hrun⟩ := run_bind_ok hrun
    obtain ⟨rfl, rfl⟩ := run_get_ok hget
    simp only [hstage] at hrun
    obtain ⟨-, rfl⟩ := run_pure_ok hrun
    exact ⟨W, h⟩

theorem run_spec (hA : Scope A) (h : Ready A W s) {n : Nat} (hrun : run A n s = .ok s') :
    (∃ W', Ready A W' s') ∧ s'.stage = .done := by
  induction n generalizing s W with
  | zero =>
    unfold run at hrun
    split at hrun
    · next hdone =>
      obtain rfl := Except.ok.inj hrun
      exact ⟨⟨W, h⟩, hdone⟩
    · cases hrun
  | succ n ih =>
    unfold run at hrun
    split at hrun
    · next hdone =>
      obtain rfl := Except.ok.inj hrun
      exact ⟨⟨W, h⟩, hdone⟩
    · rw [bind_eq_ok] at hrun
      obtain ⟨⟨u, t⟩, hstep, hrun⟩ := hrun
      obtain ⟨W', ht⟩ := step_spec hA h hstep
      exact ih ht hrun

end Solver

end Tabulation
