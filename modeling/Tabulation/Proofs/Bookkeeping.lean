import Tabulation.Proofs.LiveHandles

/-!
# Exact books

A run keeps numbers about its own tables: how many path edges are stored, and with collection how
many path edges of each procedure are queued. Nothing recounts them, so a path edge that is counted
for one procedure and taken off for another would show up much later, as a fault or as a procedure
that is never collected. `books_exact` says that the numbers are those of the tables in every state
of a run.

**`Booked`.** Effects keep it, since a path edge is queued for the procedure of its node. A move
that takes a path edge off the queue releases the procedure of its node once. Collection drops path
edges of procedures without pending work only, and counts all that it drops.
-/

namespace Tabulation

variable {D L K : Type} [Ord D] [Ord L] [Ord K] {A : Analysis D L K} {s s' t : State D L K}

/-- The numbers that a run keeps are those of its tables. -/
structure Booked (A : Analysis D L K) (s : State D L K) : Prop where
  alive : s.alive = s.paths.size
  counts : ∀ p, s.retention.count p = if A.config.gcMode.isEnabled then queuedIn A s p else 0
  candidates : ∀ i, 0 < s.retention.countAt i → i ∈ s.retention.candidates
  done : s.stage = .done → s.queue.toList = []

/-- The books do not depend on what the tables say, only on how much of it there is. -/
theorem Booked.of_eq (h : Booked A s) (hpaths : s'.paths = s.paths) (halive : s'.alive = s.alive)
    (hretention : s'.retention = s.retention) (hqueue : ∀ p, queuedIn A s' p = queuedIn A s p)
    (hdone : s'.stage = .done → s'.queue.toList = []) : Booked A s' where
  alive := by rw [halive, hpaths, h.alive]
  counts p := by rw [hretention, hqueue, h.counts]
  candidates := hretention ▸ h.candidates
  done := hdone

namespace Solver

/-- What is dropped is taken off the books. -/
theorem Booked.of_books (h : Booked A s) (hbooks : KeepsBooks s t)
    (hqueue : ∀ p, queuedIn A t p = queuedIn A s p)
    (hdone : t.stage = .done → t.queue.toList = []) : Booked A t where
  alive := by
    obtain ⟨k, hsize, halive, -⟩ := hbooks.dropped
    have := h.alive
    omega
  counts p := by
    rw [hqueue, ← h.counts]
    exact hbooks.counts _
  candidates i hi := by
    rw [hbooks.counts] at hi
    exact hbooks.busy i (h.candidates i hi) hi
  done := hdone

/-- A procedure with a queued path edge has pending work. -/
theorem Booked.count_pos (h : Booked A s) (hgc : A.config.gcMode.isEnabled = true) {x : PathEdge}
    {p : ProcId} (hx : x ∈ s.queue.toList) (hp : InProc A s x.node p) :
    0 < s.retention.count p := by
  rw [h.counts, if_pos hgc, queuedIn, List.countP_pos_iff]
  exact ⟨x, hx, by simpa using hp⟩

theorem create_booked (h : create A = .ok s) : Booked A s := by
  simp only [create, bind_eq_ok, pure_eq_ok] at h
  obtain ⟨facts, -, procs, -, store, -, rfl⟩ := h
  have hzero : ∀ i, (Retention.ofSize procs.size).countAt i = 0 := fun i => by
    simp only [Retention.countAt, Retention.ofSize, Array.getD_eq_getD_getElem?,
      Array.getElem?_replicate]
    split <;> rfl
  refine ⟨rfl, fun p => ?_, fun i hi => ?_, fun hdone => by cases hdone⟩
  · show (Retention.ofSize procs.size).countAt p.index = _
    rw [hzero]
    split <;> rfl
  · exact absurd hi (by simpa using hzero i)

end Solver

variable [DecidableEq D] [JoinLattice L] [DecidableEq L] [Payload K L] {F : D → Prop}

theorem Grounded.queue_inProc (hg : A.graph.Consistent) (hs : Grounded A F s) :
    ∀ x ∈ s.queue.toList, ∃ p, InProc A s x.node p := by
  intro x hx
  obtain ⟨node, hnode⟩ := (hs.queue x hx).node
  obtain ⟨proc, hmem, hproc⟩ := (hs.known _ _ hnode).procOf hg
  obtain ⟨p, hp⟩ := (hs.declared proc).1 hmem
  exact ⟨p, node, proc, hnode, hproc, hp⟩

theorem Booked.withPath (hg : A.graph.Consistent) (hs : Grounded A F s) (h : Booked A s)
    {x : PathEdge} {p : ProcId} (hp : InProc A s x.node p) (reached : Std.TreeSet UInt64)
    (hstage : s.stage ≠ .done) : Booked A (s.withPath A x p reached) where
  alive := by
    show (if _ then _ else _) = (s.paths.insert x.node x.source x.target x.edge).2.size
    rw [PathTable.size_insert, h.alive]
  counts q := by
    have hgrows : s.Grows (s.withPath A x p reached) := State.grows_withPath
    have hprocs : (s.withPath A x p reached).procs.Wf := hs.procs
    rw [queuedIn_push (hs.queue_inProc hg) hprocs hgrows rfl (hp.mono hgrows)]
    show (if _ then s.retention.retain p else s.retention).count q = _
    split
    · next hgc =>
      rw [Retention.count_retain, h.counts, if_pos hgc]
      split <;> rfl
    · next hgc => rw [h.counts, if_neg hgc]
  candidates i hi := by
    change 0 < (if _ then s.retention.retain p else s.retention).countAt i at hi
    show i ∈ (if _ then s.retention.retain p else s.retention).candidates
    split
    · next hgc =>
      rw [if_pos hgc, Retention.countAt_retain] at hi
      refine Retention.mem_candidates_retain.2 ?_
      split at hi
      · next heq => exact .inl heq.symm
      · exact .inr (h.candidates i hi)
    · next hgc =>
      rw [if_neg hgc] at hi
      exact h.candidates i hi
  done hdone := absurd hdone hstage

theorem Effect.booked (hg : A.graph.Consistent) (hs : Grounded A F s) (hstage : s.stage ≠ .done)
    (h : Booked A s) (he : Effect A F s s') : Booked A s' := by
  cases he with
  | quiet hb hq halive _ _ =>
    refine h.of_eq hq.paths halive hq.retention (fun p => ?_) fun hdone => ?_
    · exact queuedIn_of_grows (hs.queue_inProc hg) hb.procs hq.grows hq.queue p
    · exact absurd (hq.stage ▸ hdone) hstage
  | path _ hp _ _ => exact h.withPath hg hs hp _ hstage
  | key _ => exact h.of_eq rfl rfl rfl (fun _ => rfl) h.done
  | summary _ _ _ => exact h.of_eq rfl rfl rfl (fun _ => rfl) h.done
  | call _ => exact h.of_eq rfl rfl rfl (fun _ => rfl) h.done
  | link _ _ _ => exact h.of_eq rfl rfl rfl (fun _ => rfl) h.done
  | seed _ _ => exact h.of_eq rfl rfl rfl (fun _ => rfl) h.done

theorem Effects.booked (hg : A.graph.Consistent) (hs : Grounded A F s) (hstage : s.stage ≠ .done)
    (h : Booked A s) (he : Effects A F s s') : Booked A s' := by
  induction he with
  | refl => exact h
  | tail ht he ih =>
    exact he.booked hg (Effects.grounded hs ht) (Effects.stage ht ▸ hstage) ih

namespace Solver

/-- The procedure of a path edge that is taken from the queue is released once. -/
theorem Booked.take (hs : Grounded A F s) (h : Booked A s) {job : PathEdge}
    {queue : Worklist PathEdge} {p : ProcId} {r : Retention} (hstage : s.stage = .drain)
    (hpop : s.queue.pop? = some (job, queue)) (hp : InProc A s job.node p)
    (hr : if A.config.gcMode.isEnabled then s.retention.release p = .ok r else r = s.retention) :
    Booked A { s with queue, retention := r } where
  alive := h.alive
  counts q := by
    have hcount := h.counts q
    rw [queuedIn_pop hs.procs hpop hp] at hcount
    show r.count q = if _ then queuedIn A { s with queue } q else 0
    split at hr
    · next hgc =>
      rw [if_pos hgc] at hcount ⊢
      rw [(Retention.release_spec hr).2.2, hcount]
      split <;> omega
    · next hgc =>
      rw [if_neg hgc] at hcount ⊢
      rw [hr, hcount]
  candidates i hi := by
    split at hr
    · obtain ⟨hcand, -, hcount⟩ := Retention.release_countAt hr
      have hle : r.countAt i ≤ s.retention.countAt i := by
        rw [hcount]
        split <;> omega
      exact hcand ▸ h.candidates i (Nat.lt_of_lt_of_le hi hle)
    · exact hr ▸ h.candidates i (hr ▸ hi)
  done hdone := by
    rw [show ({ s with queue, retention := r } : State D L K).stage = .drain from hstage] at hdone
    cases hdone

theorem Booked.allReleased (hs : Grounded A F s) (h : Booked A s) (hqueue : s.queue.toList = []) :
    s.retention.allReleased = true := by
  refine Retention.allReleased_iff.2 fun i => ?_
  by_contra hne
  obtain ⟨p, rfl, -⟩ := hs.candidates i (h.candidates i (Nat.pos_of_ne_zero hne))
  refine hne ((h.counts p).trans ?_)
  simp [queuedIn, hqueue]

theorem Trims.queuedIn_eq (h : Trims A F s t) (p : ProcId) : queuedIn A t p = queuedIn A s p := by
  unfold queuedIn InProc State.HasNode State.HasProc
  rw [h.queue, h.nodes, h.procs]

theorem Transition.booked (hg : A.graph.Consistent) (hs : Grounded A F s) (h : Booked A s)
    (ht : Transition A F s t) : Booked A t := by
  cases ht with
  | begin hstage ht _ =>
    have hbooked := ht.booked hg hs (by simp [hstage]) h
    exact hbooked.of_eq rfl rfl rfl (fun _ => rfl) nofun
  | take hstage hpop hp hr ht =>
    refine ht.booked hg (Grounded.withJob hs hpop hr) ?_ (Booked.take hs h hstage hpop hp hr)
    simp [hstage]
  | keys _ _ _ => exact h.of_eq rfl rfl rfl (fun _ => rfl) nofun
  | replay hstage ht =>
    refine ht.booked hg (hs.withStage (hs.rest hstage)) (by simp) ?_
    exact h.of_eq rfl rfl rfl (fun _ => rfl) nofun
  | stop _ ht _ hempty =>
    have hbooked := Booked.of_books h ht.books ht.queuedIn_eq fun _ => hempty
    exact hbooked.of_eq rfl rfl rfl (fun _ => rfl) fun _ => hempty
  | again hstage ht _ _ _ =>
    have hbooked := Booked.of_books h ht.books ht.queuedIn_eq fun hdone => by
      rw [ht.stage, hstage] at hdone
      cases hdone
    exact hbooked.of_eq rfl rfl rfl (fun _ => rfl) nofun

/-- Collection returns, and takes nothing off the number of path edges that it does not count. -/
theorem Booked.collectProcs (hg : A.graph.Consistent) (hs : Grounded A F s) (h : Booked A s) :
    ∃ t, (collectProcs A).run s = .ok ((), t) ∧ t.alive = t.paths.size ∧
      t.alive + t.stats.collectedPathEdges = s.alive + s.stats.collectedPathEdges := by
  obtain ⟨⟨⟩, t, hrun, ps, -, hdrops⟩ := (collectProcs_ensures hg hs).exists_ok
  obtain ⟨k, hsize, halive, hstats⟩ := hdrops.books.dropped
  have := h.alive
  exact ⟨t, hrun, by omega, by omega⟩

variable [Std.TransOrd D] [Std.LawfulEqOrd D] [Std.TransOrd L] [Std.LawfulEqOrd L] [Std.TransOrd K]
  [Std.LawfulEqOrd K] {E : Fault → Prop}

/-- No move releases a procedure without pending work. -/
theorem Booked.step (hP : Groundwork A F E) (hs : Grounded A F s) (h : Booked A s)
    (hstage : s.stage ≠ .done) : Ensures E (step A) s fun _ t => Transition A F s t :=
  step_ensures_of_idle hP hs hstage fun hgc _ hx _ hp hzero =>
    absurd hzero (Nat.ne_of_gt (Booked.count_pos h hgc hx hp))

theorem Next.booked (hP : Groundwork A F E) (hs : Grounded A F s) (h : Booked A s)
    (hn : Next A s t) : Booked A t := by
  cases hn with
  | move hstage hrun =>
    exact ((Booked.step hP hs h hstage).elim hrun).booked hP.graph hs h
  | drop hdone hrun =>
    obtain ⟨-, -, hbooks, hqueue, -⟩ := (dropPending_ensures (E := E) hs).elim hrun
    refine Booked.of_books h hbooks (fun p => ?_) fun _ => hqueue
    simp [queuedIn, hqueue, h.done hdone]

theorem Reachable.booked (hP : Premises A F E) (h : Reachable A s) : Booked A s := by
  induction h with
  | create hs => exact create_booked hs
  | next hs hn ih => exact hn.booked hP.toGroundwork (hs.grounded hP) ih

/-- A run never releases a procedure without pending work. -/
theorem Booked.run_returns (hP : Groundwork A F E) (hsteps : E .outOfSteps) (n : Nat)
    (hs : Grounded A F s) (h : Booked A s) :
    Returns E (run A n s) fun t => Grounded A F t ∧ Booked A t := by
  refine run_keeps hsteps (fun s hs hstage => ?_) n ⟨hs, h⟩
  exact (Booked.step hP hs.1 hs.2 hstage).imp fun _ t ht =>
    ⟨ht.grounded hs.1, ht.booked hP.graph hs.1 hs.2⟩

end Solver

open Solver in
/-- In every state of a run, the number of path edges is that of the table, and with collection the
count of a procedure is the number of its queued path edges, and procedures that have some are
candidates. No procedure is released without pending work, collection never takes off more path
edges than there are, and with nothing queued all procedures are released. -/
theorem books_exact [Std.TransOrd D] [Std.LawfulEqOrd D] [Std.TransOrd L] [Std.LawfulEqOrd L]
    [Std.TransOrd K] [Std.LawfulEqOrd K] (A : Analysis D L K) (hgraph : A.graph.Built)
    (hseeds : ∀ x ∈ A.problem.seeds.toList, A.graph.Known x.1) {s : State D L K}
    (hs : Reachable A s) :
    s.alive = s.paths.size ∧
    (A.config.gcMode.isEnabled = true → (∀ p, s.retention.count p = queuedIn A s p) ∧
      ∀ i, 0 < s.retention.countAt i → i ∈ s.retention.candidates) ∧
    (∀ n i, run A n s ≠ .error (.noPendingJobs i)) ∧
    (∃ t, (collectProcs A).run s = .ok ((), t) ∧ t.alive = t.paths.size ∧
      t.alive + t.stats.collectedPathEdges = s.alive + s.stats.collectedPathEdges) ∧
    (s.queue.toList = [] → s.retention.allReleased = true) := by
  have hP := Premises.of_built hgraph hseeds
  have hg := hs.grounded hP
  have hb := hs.booked hP
  refine ⟨hb.alive, fun hgc => ⟨fun p => ?_, hb.candidates⟩, fun n i hrun => ?_,
    Booked.collectProcs hP.graph hg hb, Booked.allReleased hg hb⟩
  · rw [hb.counts, if_pos hgc]
  · have hP' : Groundwork A (fun _ => True) fun f => ∀ i, f ≠ .noPendingJobs i :=
      .of_built hgraph hseeds nofun
    exact (Booked.run_returns hP' nofun n hg hb).allowed hrun i rfl

namespace Passing

/-- A procedure that calls another one on its way. -/
def graph : Except Fault Supergraph := Supergraph.ofSteps
  [.proc "main" ["a", "b", "c"], .proc "f" ["x", "y", "z"], .chain ["a", "b", "c"],
   .chain ["x", "y", "z"], .call "b" "f"]

def problem : Problem Nat Mask MaskMap where
  zero := 0
  seeds := Seeds.empty.add "a" 0 ⟨0⟩
  normalFlow _ _ := .identity
  callFlow _ _ := .identity
  returnFlow _ _ _ _ := .identity
  bypassFlow _ _ _ := .identity

def analysis (g : Supergraph) : Analysis Nat Mask MaskMap :=
  ⟨problem, g, { gcMode := .aggressive }⟩

end Passing

open Solver in
/-- When the call was processed, each of the procedures has a queued path edge. At the end the path
edges at the call and inside the callee are gone. -/
theorem books_exact_passing :
    ∃ g s t, Passing.graph = .ok g ∧ Reachable (Passing.analysis g) s ∧
      Reachable (Passing.analysis g) t ∧ s.alive = 4 ∧ s.paths.size = 4 ∧
      queuedIn (Passing.analysis g) s ⟨0⟩ = 1 ∧ queuedIn (Passing.analysis g) s ⟨1⟩ = 1 ∧
      t.stats.collectedPathEdges = 2 ∧ t.alive = 4 ∧ t.paths.size = 4 ∧
      t.retention.allReleased = true := by
  have hrun : (do
      let g ← Passing.graph
      let s₀ ← create (Passing.analysis g)
      let r₁ ← (step (Passing.analysis g)).run s₀
      let r₂ ← (step (Passing.analysis g)).run r₁.2
      let r₃ ← (step (Passing.analysis g)).run r₂.2
      let t ← run (Passing.analysis g) 20 r₃.2
      return (g.procOf "a", s₀.stage, r₁.2.stage, r₂.2.stage, r₃.2.alive, r₃.2.retention.counts,
        t.queue.toList, t.alive, t.stats.collectedPathEdges)) =
      .ok (.ok "main", .fresh, .drain, .drain, 4, #[1, 1], [], 4, 2) := by
    set_option synthInstance.maxSize 4096 in
    decide +kernel
  simp only [bind_eq_ok, pure_eq_ok, Prod.mk.injEq] at hrun
  obtain ⟨g, hg, s₀, hcreate, ⟨_, s₁⟩, hstep₀, ⟨_, s₂⟩, hstep₁, ⟨_, s⟩, hstep₂, t, ht, hproc,
    hfresh, hdrain₁, hdrain₂, halive, hcounts, hqueue, halive', hstats⟩ := hrun
  dsimp only at *
  have hs : Reachable (Passing.analysis g) s := by
    refine .next (.next (.next (.create hcreate) (.move ?_ hstep₀)) (.move ?_ hstep₁))
      (.move ?_ hstep₂)
    · simp [hfresh]
    · simp [hdrain₁]
    · simp [hdrain₂]
  have hseeds : ∀ x ∈ (Passing.analysis g).problem.seeds.toList, g.Known x.1 := by
    intro x hx
    obtain rfl := List.mem_singleton.1 hx
    exact Supergraph.known_of_procOf hproc
  have hbooks := books_exact (Passing.analysis g) (.ofSteps hg) hseeds hs
  obtain ⟨hsize, hgc, -⟩ := hbooks
  have hcount := (hgc rfl).1
  have hbooks' := books_exact (Passing.analysis g) (.ofSteps hg) hseeds (hs.run ht).1
  obtain ⟨hsize', -, -, -, hreleased⟩ := hbooks'
  refine ⟨g, s, t, hg, hs, (hs.run ht).1, halive, hsize ▸ halive, ?_, ?_, hstats, halive',
    hsize' ▸ halive', hreleased hqueue⟩
  · rw [← hcount, Retention.count, Retention.countAt, hcounts]
    rfl
  · rw [← hcount, Retention.count, Retention.countAt, hcounts]
    rfl

end Tabulation
