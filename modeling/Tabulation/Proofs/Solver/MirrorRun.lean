import Tabulation.Proofs.Solver.MirrorCollect
import Tabulation.Proofs.Solver.Redo

/-!
# Whole runs side by side

The first phase of a run that collects reaches a state that mirrors the end of the run that does
not, `run_paired`.

**One move.** `Paired` is what holds between two moves. Whatever the run without collection does
next, the other run does too, `Paired.step`. Before that it may have to catch up: without values it
can have queued path edges that it dropped and recorded again, and taking those from the queue
changes nothing that the other run does not have, `Paired.redo`. Their number is bounded by the rank
of the slack.

**Numbers.** Names are numbered in the same order, so if there are not enough numbers, the runs fail
at the same name, `Paired.run_exhausted`.
-/

namespace Tabulation

open Solver

variable {D L K : Type} [Ord D] [Ord L] [Ord K] [Payload K L] {A : Analysis D L K} {m : GcMode}
  {w : Slack} {s s' t t' : State D L K} {x : PathEdge}

/-- Whether dropped path edges may be recorded again depends on the stage. -/
def Slack.Fits (w : Slack) : Stage → Prop
  | .fresh => False
  | .drain => w.redo
  | .replay _ => ¬ w.redo
  | .done => ¬ w.redo

namespace Solver

theorem run_collect (hmode : A.config.gcMode = .disabled) (s : State D L K) :
    (collect A).run s = .ok ((), s) := by
  unfold collect
  rw [if_neg (by rw [hmode]; decide)]
  rfl

theorem run_endRound (h : (collect A).run s = .ok ((), s')) : (endRound A).run s =
    (if s'.queue.isEmpty then modify fun s => { s with stage := .done }
      else beginRound).run s' := by
  unfold endRound
  rw [run_seq h, run_get_seq]

end Solver

variable [JoinLattice L]

theorem Resting.withStage {W : ProcId → FactId → Prop} {stage : Stage} {stats : Stats}
    (h : Resting A W t) (hstage : ∀ ks, stage ≠ .replay ks) :
    Resting A W { t with stage, stats } := by
  refine { h with keys := fun e q hk => h.keys e q (.inl ?_) }
  rcases hk with hk | ⟨ks, hks, -⟩
  · exact hk
  · exact absurd hks (hstage ks)

/-- Work was taken from the queues. -/
theorem Mirrors.withQueues [DecidableEq L] (h : Mirrors A m w s t)
    {queue' queue : Worklist PathEdge} {j rank : Nat} (horder : queue'.order = queue.order)
    (hj : j + w.missing s ≤ rank)
    (hpad : Padded (PathAlike A s.store t.store) (fun x => w.redo ∧ x ∈ w.dropped) j queue'.toList
      queue.toList) :
    Mirrors A m { w with rank } { s with queue := queue' } { t with queue } :=
  { h with
    base' := h.base'.congr rfl rfl rfl rfl rfl
    base := h.base.congr rfl rfl rfl rfl rfl
    order := horder
    queue := ⟨j, hj, hpad⟩ }

/-- The stage of both runs changes in the same way. -/
theorem Mirrors.withStage [DecidableEq L] (h : Mirrors A m w s t) {stage : Stage}
    {stats' stats : Stats} :
    Mirrors A m w { s with stage, stats := stats' } { t with stage, stats } :=
  { h with
    base' := h.base'.congr rfl rfl rfl rfl rfl
    base := h.base.congr rfl rfl rfl rfl rfl
    stage := rfl }

variable [DecidableEq D]

theorem Redoable.later (h : Redoable A m t x) (hl : Later A t t') : Redoable A m t' x where
  plain := h.plain
  label := h.label
  crossed := h.crossed.later hl fun hv => absurd hv.1 h.plain
  inProc := by
    obtain ⟨p, node, proc, hnode, hproc, hp⟩ := h.inProc
    exact ⟨p, node, proc, hl.nodes _ _ hnode, hproc, hl.procs _ _ hp⟩
  dropped := h.dropped.imp fun _ => And.imp_left (hl.nodes _ _)

/-- Only the stage and the counters changed. -/
theorem Redoable.withStage {callQueue : CallQueue} {stage : Stage} {stats : Stats}
    (h : Redoable A m t x) : Redoable A m { t with callQueue, stage, stats } x :=
  h.later (.of_grows { State.Grows.refl t with } rfl rfl fun _ hc => hc)

/-- Nothing is dropped at exit points. -/
theorem Redoable.not_exit (hg : A.graph.Consistent) (h : Redoable A m t x)
    {node : String} (hnode : t.HasNode x.node node) : A.graph.isExit node = .ok false := by
  obtain ⟨_, hnode', hkeep⟩ := h.dropped
  obtain rfl := Option.some.inj (hnode.symm.trans hnode')
  obtain ⟨p, _, proc, hnode', hproc, -⟩ := h.inProc
  obtain rfl := Option.some.inj (hnode.symm.trans hnode')
  have hknown := Supergraph.known_of_procOf hproc
  obtain ⟨b, hb⟩ := hknown.isExit
  cases b with
  | false => exact hb
  | true =>
    rw [keepAt_of_boundary (A := A.withGc m) hg hknown (.inl hb)] at hkeep
    cases hkeep

variable [DecidableEq L] {E : Fault → Prop}

/-- Two runs between moves, after both have begun. -/
structure Paired (A : Analysis D L K) (m : GcMode) (w : Slack) (s t : State D L K) : Prop where
  mirrors : Mirrors A m w s t
  grounded : Grounded (A.withGc m) (fun _ => True) s
  booked : Booked (A.withGc m) s
  ready : Ready A (fun _ _ => False) t
  resting : Resting A w.asleep t
  dropped : ∀ x ∈ w.dropped, Redoable A m t x
  fits : w.Fits t.stage

/-- Without collection, no pair has to be left alone. -/
theorem Ready.unrested {W : ProcId → FactId → Prop} (h : Ready A W t)
    (hmode : A.config.gcMode = .disabled) : Ready A (fun _ _ => False) t := by
  have hW : W = fun _ _ => False := by
    funext p a
    refine eq_false fun hw => ?_
    have := h.dormant.enabled p a hw
    rw [hmode] at this
    cases this
  exact hW ▸ h

namespace Solver

/-- A number of moves leads from one state to another. -/
def Leads (A : Analysis D L K) (s s' : State D L K) : Prop := ∃ k, ∀ n, run A (n + k) s = run A n s'

theorem Leads.refl (s : State D L K) : Leads A s s := ⟨0, fun _ => rfl⟩

theorem Leads.trans {s'' : State D L K} (h : Leads A s s') (h' : Leads A s' s'') :
    Leads A s s'' := by
  obtain ⟨k, hk⟩ := h
  obtain ⟨k', hk'⟩ := h'
  exact ⟨k' + k, fun n => by rw [← Nat.add_assoc, hk, hk']⟩

theorem Leads.step (hstage : s.stage ≠ .done) {u : Unit} (h : (step A).run s = .ok (u, s')) :
    Leads A s s' := by
  refine ⟨1, fun n => ?_⟩
  rw [run, if_neg hstage, h]
  rfl

end Solver

theorem Paired.awake (h : Paired A m w s t) {key : UInt64} {keys : List UInt64}
    (hstage : t.stage = .replay (key :: keys)) :
    ¬ w.asleep ⟨(unpack key).2⟩ ⟨(unpack key).1⟩ := by
  refine h.resting.keys _ _ (.inr ⟨_, hstage, ?_⟩)
  rw [pack_unpack]
  exact List.mem_cons_self

/-- The moves of the run without collection leave resting pairs and dropped path edges alone. -/
theorem Paired.rest (hA : Comparable A) (h : Paired A m w s t) {Z : ProcId → FactId → Prop}
    {t₀ : State D L K} (hinv : Inv A t₀) (hlater : Later A t t₀) (hrest : Resting A w.asleep t₀)
    (hZ : Restless A Z w.asleep t₀) (hmoves : Moves A Z t₀ t') :
    Resting A w.asleep t' ∧ ∀ x ∈ w.dropped, Redoable A m t' x :=
  ⟨(hmoves.resting hrest hA.scope hA.valued hinv hZ).1,
    fun x hx => (h.dropped x hx).later (hlater.trans (hmoves.later hinv))⟩

variable [Std.TransOrd D] [Std.LawfulEqOrd D]

/-- Path edges that belong to each other are propagated alike. -/
theorem Paired.taken_follows (hA : Comparable A) (hm : m.isEnabled = true) (h : Paired A m w s t)
    (hstage : t.stage = .drain) {job' job : PathEdge} {queue' queue : Worklist PathEdge}
    (hpop' : s.queue.pop? = some (job', queue')) (hpop : t.queue.pop? = some (job, queue))
    (hjob : PathAlike A s.store t.store job' job)
    (hpopped : Mirrors A m w { s with queue := queue' } { t with queue }) :
    Follows (propagate (A.withGc m) job') { s with queue := queue' } (propagate A job)
      { t with queue } fun _ _ s' t' => Advances A m w { s with queue := queue' } { t with queue }
        s' t' := by
  have hmem : job ∈ t.queue.toList := (Worklist.pop?_perm hpop).mem_iff.2 List.mem_cons_self
  obtain ⟨⟨p, hp⟩, -⟩ := h.ready.inv.queue job hmem
  have hopen : Open A w p job.source := by
    refine ⟨fun _ => h.resting.queue job hmem p hp.inProc, fun _ => ?_⟩
    have := h.fits
    rwa [hstage] at this
  have hmem' : job' ∈ s.queue.toList := (Worklist.pop?_perm hpop').mem_iff.2 List.mem_cons_self
  have hin' : InProc (A.withGc m) s job'.node p := by
    obtain ⟨e', rfl, -⟩ := hjob
    exact h.mirrors.inProc.2 hp.inProc
  obtain ⟨r, hr⟩ := Retention.release_total (Booked.count_pos h.booked hm hmem' hin')
  exact propagate_follows hA hm hpopped hjob hp.inProc hopen hr

/-- Summaries are replayed alike. -/
theorem Paired.replayed_follows (hA : Comparable A) (hm : m.isEnabled = true)
    (h : Paired A m w s t) {key : UInt64} {keys : List UInt64}
    (hstage : t.stage = .replay (key :: keys)) :
    Follows (Solver.replay (A.withGc m) key) { s with stage := .replay keys }
      (Solver.replay A key) { t with stage := .replay keys } fun _ _ s' t' =>
        Advances A m w { s with stage := .replay keys } { t with stage := .replay keys } s' t' :=
  replay_follows hA hm h.mirrors.withStage (h.awake hstage)

variable [Std.TransOrd L] [Std.LawfulEqOrd L] [Std.TransOrd K] [Std.LawfulEqOrd K]

/-- What the run with collection keeps up by itself. -/
theorem Paired.kept (hP : Groundwork (A.withGc m) (fun _ => True) E) (h : Paired A m w s t)
    (hstage : s.stage ≠ .done) {u : Unit} (hrun : (step (A.withGc m)).run s = .ok (u, s')) :
    Grounded (A.withGc m) (fun _ => True) s' ∧ Booked (A.withGc m) s' := by
  have htrans := (Booked.step hP h.grounded h.booked hstage).elim hrun
  exact ⟨htrans.grounded h.grounded, htrans.booked hP.graph h.grounded h.booked⟩

/-- A path edge that was dropped and recorded again is taken from the queue. Nothing new comes of
it, so the run without collection need not move. -/
theorem Paired.redo (hA : Comparable A) (hm : m.isEnabled = true)
    (hP : Groundwork (A.withGc m) (fun _ => True) E) (h : Paired A m w s t)
    (hstage : t.stage = .drain) {x : PathEdge} {queue : Worklist PathEdge} {j : Nat}
    (hpop : s.queue.pop? = some (x, queue)) (hx : x ∈ w.dropped)
    (hj : j + 1 + w.missing s ≤ w.rank)
    (hpad : Padded (PathAlike A s.store t.store) (fun x => w.redo ∧ x ∈ w.dropped) j queue.toList
      t.queue.toList) :
    ∃ s', (step (A.withGc m)).run s = .ok ((), s') ∧
      Paired A m { w with rank := w.rank - 1 } s' t := by
  have hredo : w.redo := by
    have := h.fits
    rwa [hstage] at this
  have hxt := h.dropped x hx
  obtain ⟨p, hp⟩ := hxt.inProc
  have hmem : x ∈ s.queue.toList := (Worklist.pop?_perm hpop).mem_iff.2 List.mem_cons_self
  obtain ⟨r, hr⟩ := Retention.release_total
    (Booked.count_pos h.booked hm hmem (h.mirrors.inProc.2 hp))
  have hpopped : Mirrors A m { w with rank := w.rank - 1 } { s with queue } t :=
    h.mirrors.withQueues ((Worklist.order_pop? hpop).trans h.mirrors.order) (by omega) hpad
  have hplain : ∀ c ∈ t.ledger, c.edge = .identity := fun c hc =>
    (h.mirrors.calls c ((h.mirrors.ledger.known c).1 hc)).2 hxt.plain
  obtain ⟨⟨⟩, t', hrun, -, answers, stats, rfl⟩ := (propagate_redone hA hxt.plain h.mirrors.base
    hxt.crossed hp hplain fun node => hxt.not_exit hA.graph).exists_ok
  have hlabel : PathAlike A s.store t.store x x := by
    refine ⟨x.edge, rfl, ?_⟩
    rw [hxt.label]
    exact .identity h.mirrors.neat
  have hopen : Open A { w with rank := w.rank - 1 } p x.source :=
    ⟨fun hv => absurd hv hxt.plain, fun _ => hredo⟩
  obtain ⟨⟨⟩, s', hrun', hadv⟩ := (propagate_follows hA hm hpopped hlabel hp hopen hr).returns _ _
    hrun
  have hstage' : s.stage = .drain := h.mirrors.stage.trans hstage
  have hstep : (step (A.withGc m)).run s = .ok ((), s') := (run_step_take hstage' hpop).trans hrun'
  obtain ⟨hgrounded, hbooked⟩ := h.kept hP (by rw [hstage']; nofun) hstep
  exact ⟨s', hstep, { hadv.mirrors with base := h.mirrors.base }, hgrounded, hbooked, h.ready,
    h.resting, h.dropped, h.fits⟩

/-- Both runs take path edges from their queues that belong to each other, or have none. -/
def Abreast (A : Analysis D L K) (m : GcMode) (w : Slack) (s t : State D L K) : Prop :=
  s.queue.pop? = none ∧ t.queue.pop? = none ∨
  ∃ job' queue' job queue, s.queue.pop? = some (job', queue') ∧ t.queue.pop? = some (job, queue) ∧
    PathAlike A s.store t.store job' job ∧
    Mirrors A m w { s with queue := queue' } { t with queue }

/-- The run with collection first takes all path edges that the other run does not have. -/
theorem Paired.catch_up (hA : Comparable A) (hm : m.isEnabled = true)
    (hP : Groundwork (A.withGc m) (fun _ => True) E) (h : Paired A m w s t)
    (hstage : t.stage = .drain) :
    ∃ w' s', Leads (A.withGc m) s s' ∧ Paired A m w' s' t ∧ Abreast A m w' s' t := by
  -- The rank bounds how many such path edges can still be taken.
  induction hrank : w.rank using Nat.strongRecOn generalizing w s with
  | ind n ih =>
    obtain ⟨j, hj, hpad⟩ := h.mirrors.queue
    cases hpop : s.queue.pop? with
    | none =>
      rw [(Worklist.pop?_eq_none_iff _).1 hpop] at hpad
      exact ⟨w, s, .refl s, h, .inl ⟨hpop, (Worklist.pop?_eq_none_iff _).2 hpad.eq_nil⟩⟩
    | some next =>
      obtain ⟨x, queue'⟩ := next
      rcases Worklist.pop?_padded hpad h.mirrors.order hpop with
        ⟨job, queue, hpop', hx, hrest⟩ | ⟨⟨-, hx⟩, j, rfl, hrest⟩
      · refine ⟨w, s, .refl s, h, .inr ⟨x, queue', job, queue, hpop, hpop', hx, ?_⟩⟩
        refine h.mirrors.withQueues ?_ hj hrest
        rw [Worklist.order_pop? hpop, Worklist.order_pop? hpop', h.mirrors.order]
      · obtain ⟨s₁, hstep, h₁⟩ := h.redo hA hm hP hstage hpop hx hj hrest
        obtain ⟨w', s', hleads, h', habreast⟩ := ih (w.rank - 1) (by omega) h₁ rfl
        have hndone : s.stage ≠ .done := by
          rw [h.mirrors.stage, hstage]
          nofun
        exact ⟨w', s', (Leads.step hndone hstep).trans hleads, h', habreast⟩

theorem Paired.take (hA : Comparable A) (hm : m.isEnabled = true)
    (hP : Groundwork (A.withGc m) (fun _ => True) E) (h : Paired A m w s t)
    (hstage : t.stage = .drain) {job' job : PathEdge} {queue' queue : Worklist PathEdge}
    (hpop' : s.queue.pop? = some (job', queue')) (hpop : t.queue.pop? = some (job, queue))
    (hjob : PathAlike A s.store t.store job' job)
    (hpopped : Mirrors A m w { s with queue := queue' } { t with queue }) {u : Unit}
    (hrun : (propagate A job).run { t with queue } = .ok (u, t')) :
    ∃ s', (step (A.withGc m)).run s = .ok ((), s') ∧ Paired A m w s' t' := by
  obtain ⟨p, r, hp, ⟨ef, hef, -⟩, hr, hpass, -⟩ := drain_pass hA.scope h.ready.inv hpop hrun
  have hperm := Worklist.pop?_perm hpop
  have hmem : job ∈ t.queue.toList := hperm.mem_iff.2 List.mem_cons_self
  have hawake : ¬ w.asleep p job.source := h.resting.queue job hmem p hp.inProc
  have hstage' : s.stage = .drain := h.mirrors.stage.trans hstage
  obtain ⟨⟨⟩, s', hrun', hadv⟩ :=
    (h.taken_follows hA hm hstage hpop' hpop hjob hpopped).returns u t' hrun
  have hstep : (step (A.withGc m)).run s = .ok ((), s') := (run_step_take hstage' hpop').trans hrun'
  obtain ⟨hgrounded, hbooked⟩ := h.kept hP (by rw [hstage']; nofun) hstep
  have hrest₀ : Resting A w.asleep { t with queue, retention := r } :=
    { h.resting with
      queue := fun x hx => h.resting.queue x (hperm.mem_iff.2 (List.mem_cons_of_mem _ hx)) }
  have hZ : Restless A (pairOf p job) w.asleep { t with queue, retention := r } := by
    rintro q a ⟨rfl, rfl⟩
    exact ⟨fun hv => hrest₀.rooted hv _ _ _ ef q hef hp.inProc, hawake⟩
  obtain ⟨hrest, hdropped⟩ := h.rest hA (take_settled hA.scope h.ready.toSettled hpop hp hr).inv
    (.of_grows { State.Grows.refl t with } rfl rfl fun c hc => hc) hrest₀ hZ hpass.moves
  have hstage₁ := Moves.stage hpass.moves
  exact ⟨s', hstep, hadv.mirrors, hgrounded, hbooked,
    drain_spec hA.scope h.ready hstage hpop hrun, hrest, hdropped, hstage₁ ▸ h.fits⟩

theorem Paired.keys (hP : Groundwork (A.withGc m) (fun _ => True) E) (h : Paired A m w s t)
    (hstage : t.stage = .drain) (hpop' : s.queue.pop? = none) (hpop : t.queue.pop? = none)
    {u : Unit} (hrun : takeKeys.run t = .ok (u, t')) :
    ∃ s', (step (A.withGc m)).run s = .ok ((), s') ∧ Paired A m { w with redo := False } s' t' := by
  have hready := takeKeys_spec h.ready hstage hrun
  obtain rfl := run_modify_ok hrun
  have hstage' : s.stage = .drain := h.mirrors.stage.trans hstage
  have hstep := run_step_keys (A := A.withGc m) hstage' hpop'
  obtain ⟨hgrounded, hbooked⟩ := h.kept hP (by rw [hstage']; nofun) hstep
  refine ⟨_, hstep, ?_, hgrounded, hbooked, hready, ?_, fun x hx => (h.dropped x hx).withStage, id⟩
  · exact { h.mirrors with
      base' := h.mirrors.base'.congr rfl rfl rfl rfl rfl
      base := h.mirrors.base.congr rfl rfl rfl rfl rfl
      queue := by
        obtain ⟨j, hj, -⟩ := h.mirrors.queue
        refine ⟨0, Nat.le_trans (Nat.add_le_add_right (Nat.zero_le j) _) hj, ?_⟩
        show Padded _ _ 0 s.queue.toList t.queue.toList
        rw [(Worklist.pop?_eq_none_iff _).1 hpop', (Worklist.pop?_eq_none_iff _).1 hpop]
        exact .nil
      keys := rfl
      stage := by
        show Stage.replay s.callQueue.take.1 = .replay t.callQueue.take.1
        rw [CallQueue.take, CallQueue.take, h.mirrors.keys] }
  · refine { h.resting with keys := fun e q hk => h.resting.keys e q (.inl ?_) }
    rcases hk with hk | ⟨ks, hks, hk⟩
    · simp [CallQueue.take] at hk
    · obtain rfl := Stage.replay.inj hks
      simpa [CallQueue.take] using hk

theorem Paired.replay (hA : Comparable A) (hm : m.isEnabled = true)
    (hP : Groundwork (A.withGc m) (fun _ => True) E) (h : Paired A m w s t) {key : UInt64}
    {keys : List UInt64} (hstage : t.stage = .replay (key :: keys)) {u : Unit}
    (hrun : (replay A key).run { t with stage := .replay keys } = .ok (u, t')) :
    ∃ s', (step (A.withGc m)).run s = .ok ((), s') ∧ Paired A m w s' t' := by
  have hstage' : s.stage = .replay (key :: keys) := h.mirrors.stage.trans hstage
  have hawake := h.awake hstage
  obtain ⟨⟨⟩, s', hrun', hadv⟩ := (h.replayed_follows hA hm hstage).returns u t' hrun
  have hstep : (step (A.withGc m)).run s = .ok ((), s') := (run_step_replay hstage').trans hrun'
  obtain ⟨hgrounded, hbooked⟩ := h.kept hP (by rw [hstage']; nofun) hstep
  have hinv := h.ready.inv
  have hinv₀ : Inv A { t with stage := .replay keys } := hinv.withTables (fun _ hx => hx)
    hinv.summaries hinv.records hinv.ledger hinv.into hinv.forward
  have hrest₀ : Resting A w.asleep { t with stage := .replay keys } := by
    refine { h.resting with keys := fun e q hk => h.resting.keys e q ?_ }
    rcases hk with hk | ⟨ks, hks, hk⟩
    · exact .inl hk
    · obtain rfl := Stage.replay.inj hks
      exact .inr ⟨_, hstage, List.mem_cons_of_mem _ hk⟩
  obtain ⟨hfill, -⟩ := replay_spec hA.scope hinv₀ hrun
  generalize (⟨(unpack key).1⟩ : FactId) = e at hfill hawake
  generalize (⟨(unpack key).2⟩ : ProcId) = q at hfill hawake
  have hZ : Restless A (waitingOn A { t with stage := .replay keys } e q) w.asleep
      { t with stage := .replay keys } := by
    rintro p a ⟨c, hc, hp, rfl⟩
    obtain ⟨hmem, rfl, rfl⟩ := hinv.into e q c hc
    obtain ⟨b, ef, hef⟩ := hinv₀.exists_path hmem
    exact ⟨fun hv => hrest₀.rooted hv _ _ b ef p hef hp,
      fun hw => hawake (h.resting.closed c hmem p hp hw)⟩
  obtain ⟨hrest, hdropped⟩ := h.rest hA hinv₀
    (.of_grows { State.Grows.refl t with } rfl rfl fun c hc => hc) hrest₀ hZ hfill.moves
  refine ⟨s', hstep, hadv.mirrors, hgrounded, hbooked,
    replayKey_spec hA.scope h.ready hstage hrun, hrest, hdropped, ?_⟩
  have hfits := h.fits
  rw [hstage] at hfits
  rw [Moves.stage hfill.moves]
  exact hfits

theorem Paired.endRound (hA : Comparable A) (hm : m.isEnabled = true)
    (hP : Groundwork (A.withGc m) (fun _ => True) E) (h : Paired A m w s t)
    (hstage : t.stage = .replay []) {u : Unit} (hrun : (endRound A).run t = .ok (u, t')) :
    ∃ w' s', (step (A.withGc m)).run s = .ok ((), s') ∧ Paired A m w' s' t' := by
  have hstage' : s.stage = .replay [] := h.mirrors.stage.trans hstage
  have hnone : ∀ e q, ¬ PendingKey t e q := by
    have hempty := h.ready.stage
    simp only [StageOk, hstage] at hempty
    intro e q hk
    simp [PendingKey, hempty, hstage] at hk
  have hredo : ¬ w.redo := by
    have := h.fits
    rwa [hstage] at this
  obtain ⟨W, hready⟩ := endRound_spec hA.scope h.ready hstage hrun
  have hready := hready.unrested hA.mode
  obtain ⟨s₁, w', hcollect', h₁, hrest, hredo', hdropped⟩ := collect_mirrors hA hm h.mirrors
    h.grounded h.booked h.ready hnone h.resting hredo h.dropped
  obtain ⟨j, hj, hpad⟩ := h₁.queue
  obtain rfl := hpad.eq_zero fun _ hx => hredo' hx.1
  have hend' := (run_step_end hstage').trans (run_endRound hcollect')
  rw [run_endRound (run_collect hA.mode t)] at hrun
  by_cases hempty : t.queue.toList = []
  · rw [if_pos ((Worklist.isEmpty_iff _).2 hempty)] at hrun
    rw [if_pos ((Worklist.isEmpty_iff _).2 (hpad.eq_nil_iff.2 hempty))] at hend'
    obtain rfl := run_modify_ok hrun
    obtain ⟨hgrounded, hbooked⟩ := h.kept hP (by simp [hstage']) hend'
    exact ⟨w', _, hend', h₁.withStage, hgrounded, hbooked, hready, hrest.withStage (by simp),
      fun x hx => (hdropped x hx).withStage, hredo'⟩
  · rw [if_neg fun hnil => hempty ((Worklist.isEmpty_iff _).1 hnil)] at hrun
    rw [if_neg fun hnil => hempty (hpad.eq_nil_iff.1 ((Worklist.isEmpty_iff _).1 hnil))] at hend'
    obtain rfl := run_modify_ok hrun
    obtain ⟨hgrounded, hbooked⟩ := h.kept hP (by simp [hstage']) hend'
    refine ⟨{ w' with redo := True }, _, hend', ?_, hgrounded, hbooked, hready,
      hrest.withStage (by simp), fun x hx => (hdropped x hx).withStage, trivial⟩
    have h₂ : Mirrors A m { w' with redo := True } s₁ t :=
      { h₁ with
        queue := ⟨0, hj, hpad.imp (fun _ _ _ _ hx => hx) fun _ hx => absurd hx.1 hredo'⟩ }
    exact h₂.withStage

/-- Whatever the run without collection does next, the other run follows. -/
theorem Paired.step (hA : Comparable A) (hm : m.isEnabled = true)
    (hP : Groundwork (A.withGc m) (fun _ => True) E) (h : Paired A m w s t)
    (hndone : t.stage ≠ .done) {u : Unit} (hrun : (step A).run t = .ok (u, t')) :
    ∃ w' s', Leads (A.withGc m) s s' ∧ Paired A m w' s' t' := by
  have hndone' : ∀ {w s}, Paired A m w s t → s.stage ≠ .done := fun h => by rwa [h.mirrors.stage]
  cases hstage : t.stage with
  | fresh =>
    have := h.fits
    rw [hstage] at this
    exact this.elim
  | drain =>
    obtain ⟨w₁, s₁, hleads, h₁, habreast⟩ := h.catch_up hA hm hP hstage
    rcases habreast with ⟨hpop', hpop⟩ | ⟨job', queue', job, queue, hpop', hpop, hjob, hpopped⟩
    · rw [run_step_keys hstage hpop] at hrun
      obtain ⟨s₂, hstep, h₂⟩ := h₁.keys hP hstage hpop' hpop hrun
      exact ⟨_, s₂, hleads.trans (.step (hndone' h₁) hstep), h₂⟩
    · rw [run_step_take hstage hpop] at hrun
      obtain ⟨s₂, hstep, h₂⟩ := h₁.take hA hm hP hstage hpop' hpop hjob hpopped hrun
      exact ⟨_, s₂, hleads.trans (.step (hndone' h₁) hstep), h₂⟩
  | replay keys =>
    cases keys with
    | nil =>
      rw [run_step_end hstage] at hrun
      obtain ⟨w', s', hstep, h'⟩ := h.endRound hA hm hP hstage hrun
      exact ⟨w', s', .step (hndone' h) hstep, h'⟩
    | cons key keys =>
      rw [run_step_replay hstage] at hrun
      obtain ⟨s', hstep, h'⟩ := h.replay hA hm hP hstage hrun
      exact ⟨w, s', .step (hndone' h) hstep, h'⟩
  | done => exact absurd hstage hndone

theorem Paired.run (hA : Comparable A) (hm : m.isEnabled = true)
    (hP : Groundwork (A.withGc m) (fun _ => True) E) {n : Nat} (h : Paired A m w s t)
    (hrun : run A n t = .ok t') :
    ∃ w' s', Leads (A.withGc m) s s' ∧ Paired A m w' s' t' ∧ t'.stage = .done := by
  induction n generalizing w s t with
  | zero =>
    unfold Solver.run at hrun
    split at hrun
    · next hdone =>
      obtain rfl := Except.ok.inj hrun
      exact ⟨w, s, .refl s, h, hdone⟩
    · cases hrun
  | succ n ih =>
    unfold Solver.run at hrun
    split at hrun
    · next hdone =>
      obtain rfl := Except.ok.inj hrun
      exact ⟨w, s, .refl s, h, hdone⟩
    · next hndone =>
      rw [bind_eq_ok] at hrun
      obtain ⟨⟨u, t₁⟩, hstep, hrun⟩ := hrun
      obtain ⟨w₁, s₁, hleads, h₁⟩ := h.step hA hm hP hndone hstep
      obtain ⟨w', s', hleads', h', hdone⟩ := ih h₁ hrun
      exact ⟨w', s', hleads.trans hleads', h', hdone⟩

/-! ## Runs out of numbers -/

/-- If the next move runs out of numbers without collection, so does the other run after it has
caught up. -/
theorem Paired.step_exhausted (hA : Comparable A) (hm : m.isEnabled = true)
    (hP : Groundwork (A.withGc m) (fun _ => True) E) (h : Paired A m w s t)
    (hrun : (Solver.step A).run t = .error .idsExhausted) :
    ∃ s', Leads (A.withGc m) s s' ∧ s'.stage ≠ .done ∧
      (Solver.step (A.withGc m)).run s' = .error .idsExhausted := by
  cases hstage : t.stage with
  | fresh =>
    have := h.fits
    rw [hstage] at this
    exact this.elim
  | drain =>
    obtain ⟨w₁, s₁, hleads, h₁, habreast⟩ := h.catch_up hA hm hP hstage
    have hstage₁ : s₁.stage = .drain := h₁.mirrors.stage.trans hstage
    rcases habreast with ⟨-, hpop⟩ | ⟨job', queue', job, queue, hpop', hpop, hjob, hpopped⟩
    · rw [run_step_keys hstage hpop] at hrun
      cases hrun
    · rw [run_step_take hstage hpop] at hrun
      refine ⟨s₁, hleads, by rw [hstage₁]; nofun, (run_step_take hstage₁ hpop').trans ?_⟩
      exact (h₁.taken_follows hA hm hstage hpop' hpop hjob hpopped).exhausted hrun
  | replay keys =>
    have hstage' : s.stage = .replay keys := h.mirrors.stage.trans hstage
    cases keys with
    | nil =>
      rw [run_step_end hstage, run_endRound (run_collect hA.mode t)] at hrun
      split at hrun <;> cases hrun
    | cons key keys =>
      rw [run_step_replay hstage] at hrun
      refine ⟨s, .refl s, by rw [hstage']; nofun, (run_step_replay hstage').trans ?_⟩
      exact (h.replayed_follows hA hm hstage).exhausted hrun
  | done =>
    unfold Solver.step at hrun
    rw [run_get_seq, hstage] at hrun
    cases hrun

theorem Paired.run_exhausted (hA : Comparable A) (hm : m.isEnabled = true)
    (hP : Groundwork (A.withGc m) (fun _ => True) E) {n : Nat} (h : Paired A m w s t)
    (hrun : Solver.run A n t = .error .idsExhausted) :
    ∃ k, Solver.run (A.withGc m) k s = .error .idsExhausted := by
  induction n generalizing w s t with
  | zero =>
    unfold Solver.run at hrun
    split at hrun <;> cases hrun
  | succ n ih =>
    unfold Solver.run at hrun
    split at hrun
    · cases hrun
    · next hndone =>
      cases hstep : (Solver.step A).run t with
      | error f =>
        rw [hstep] at hrun
        obtain rfl := Except.error.inj hrun
        obtain ⟨s', ⟨k, hk⟩, hndone', hstep'⟩ := h.step_exhausted hA hm hP hstep
        refine ⟨1 + k, ?_⟩
        rw [hk, Solver.run, if_neg hndone', hstep']
        rfl
      | ok r =>
        rw [hstep] at hrun
        obtain ⟨w₁, s₁, ⟨k, hk⟩, h₁⟩ := h.step hA hm hP hndone hstep
        obtain ⟨j, hj⟩ := ih h₁ hrun
        exact ⟨j + k, (hk j).trans hj⟩

end Tabulation
