import Tabulation.Proofs.Solver.Collect
import Tabulation.Proofs.Solver.Effects
import Tabulation.Solver.Solve

/-!
# The steps of a run

`Transition` says what one step of the first phase can do: it begins the run, takes a path edge from
the queue, takes the keys of changed summaries, replays one of them, or collects and ends a round.
`step_ensures` says that a step from a grounded state does one of these and leads to a grounded
state again, or ends with a fault that is allowed.

**Handles.** `Holds` are the handles that the tables, the queue and the remembered answers mention.
Collecting and sweeping keep the tree behind every handle that is still held afterwards.
-/

namespace Tabulation

variable {D L K : Type} [Ord D] [Ord L] [Ord K] {A : Analysis D L K} {s s' s'' : State D L K}
  {ps : List ProcId} {ef : EdgeRef}

/-- The handles that a run holds. -/
inductive State.Holds (s : State D L K) : EdgeRef → Prop
  | path {n : NodeId} {a b : FactId} {ef : EdgeRef} : s.paths.get? n a b = some ef → s.Holds ef
  | summary {p : ProcId} {e : FactId} {x : NodeId} {d : FactId} {ef : EdgeRef} :
      s.summaries.get? p e x d = some ef → s.Holds ef
  | record {c : CallRecord} : c ∈ s.ledger.records.toList → s.Holds c.edge
  | known {c : CallRecord} : c ∈ s.ledger → s.Holds c.edge
  | waiting {e : FactId} {p : ProcId} {c : CallRecord} : c ∈ s.ledger.callsInto e p →
      s.Holds c.edge
  | forwarding {a : FactId} {n : NodeId} {c : CallRecord} : c ∈ s.ledger.callsFrom a n →
      s.Holds c.edge
  | queued {x : PathEdge} : x ∈ s.queue.toList → s.Holds x.edge
  | normalEdge {k : UInt64 × UInt64} {ef : EdgeRef} :
      s.answers.normalEdges.table[k]? = some ef → s.Holds ef
  | callEdge {k : UInt64 × UInt64} {ef : EdgeRef} :
      s.answers.callEdges.table[k]? = some ef → s.Holds ef
  | returnEdge {k : UInt64 × NodeId × UInt64} {ef : EdgeRef} :
      s.answers.returnEdges.table[k]? = some ef → s.Holds ef
  | bypassEdge {k : UInt64 × UInt64} {ef : EdgeRef} :
      s.answers.bypassEdges.table[k]? = some ef → s.Holds ef
  | summaryEdge {k : UInt64 × UInt64} {ef : EdgeRef} :
      s.answers.summaryEdges.table[k]? = some ef → s.Holds ef

/-- The stage and the counters hold no handles. -/
theorem State.Holds.of_withStage {stage : Stage} {stats : Stats}
    (h : State.Holds { s with stage, stats } ef) : s.Holds ef := by
  cases h with
  | path h => exact .path h
  | summary h => exact .summary h
  | record h => exact .record h
  | known h => exact .known h
  | waiting h => exact .waiting h
  | forwarding h => exact .forwarding h
  | queued h => exact .queued h
  | normalEdge h => exact .normalEdge h
  | callEdge h => exact .callEdge h
  | returnEdge h => exact .returnEdge h
  | bypassEdge h => exact .bypassEdge h
  | summaryEdge h => exact .summaryEdge h

/-! ## Dropping path edges and calls -/

/-- Pending work was not touched, procedures that have some remain candidates, and the counters know
of all path edges that were dropped. -/
structure KeepsBooks (s s' : State D L K) : Prop where
  counts : ∀ i, s'.retention.countAt i = s.retention.countAt i
  busy : ∀ i ∈ s.retention.candidates, 0 < s.retention.countAt i → i ∈ s'.retention.candidates
  dropped : ∃ k, s'.paths.size + k = s.paths.size ∧ s'.alive = s.alive - k ∧
    s'.stats.collectedPathEdges = s.stats.collectedPathEdges + k

namespace KeepsBooks

theorem of_eq (hretention : s'.retention = s.retention) (hpaths : s'.paths = s.paths)
    (halive : s'.alive = s.alive)
    (hstats : s'.stats.collectedPathEdges = s.stats.collectedPathEdges) : KeepsBooks s s' :=
  ⟨fun i => by rw [hretention], fun i hi _ => hretention ▸ hi, 0, by rw [hpaths, Nat.add_zero],
    halive, hstats⟩

theorem refl (s : State D L K) : KeepsBooks s s := of_eq rfl rfl rfl rfl

theorem trans (h : KeepsBooks s s') (h' : KeepsBooks s' s'') : KeepsBooks s s'' where
  counts i := (h'.counts i).trans (h.counts i)
  busy i hi hpos := h'.busy i (h.busy i hi hpos) (by rwa [h.counts])
  dropped := by
    obtain ⟨k, hsize, halive, hstats⟩ := h.dropped
    obtain ⟨k', hsize', halive', hstats'⟩ := h'.dropped
    exact ⟨k + k', by omega, by omega, by omega⟩

end KeepsBooks

/-- Path edges and lists of waiting calls were dropped, and nothing else changed that matters. -/
structure Sheds (s s' : State D L K) : Prop where
  nodes : s'.nodes = s.nodes
  facts : s'.facts = s.facts
  procs : s'.procs = s.procs
  store : s'.store = s.store
  answers : s'.answers = s.answers
  paths : ∀ n a b ef, s'.paths.get? n a b = some ef → s.paths.get? n a b = some ef
  rows : s.paths.Wf → s'.paths.Wf
  summaries : s'.summaries = s.summaries
  queue : s'.queue = s.queue
  callQueue : s'.callQueue = s.callQueue
  ledger : s.ledger.Forgets s'.ledger
  candidates : ∀ i ∈ s'.retention.candidates, i ∈ s.retention.candidates
  stage : s'.stage = s.stage
  books : KeepsBooks s s'

namespace Sheds

theorem refl (s : State D L K) : Sheds s s :=
  ⟨rfl, rfl, rfl, rfl, rfl, fun _ _ _ _ h => h, id, rfl, rfl, rfl, .refl _,
    fun _ h => h, rfl, .refl s⟩

theorem trans (h : Sheds s s') (k : Sheds s' s'') : Sheds s s'' where
  nodes := k.nodes.trans h.nodes
  facts := k.facts.trans h.facts
  procs := k.procs.trans h.procs
  store := k.store.trans h.store
  answers := k.answers.trans h.answers
  paths n a b ef hef := h.paths n a b ef (k.paths n a b ef hef)
  rows hwf := k.rows (h.rows hwf)
  summaries := k.summaries.trans h.summaries
  queue := k.queue.trans h.queue
  callQueue := k.callQueue.trans h.callQueue
  ledger := h.ledger.trans k.ledger
  candidates i hi := h.candidates i (k.candidates i hi)
  stage := k.stage.trans h.stage
  books := h.books.trans k.books

end Sheds

/-- The node lies in one of the procedures and does not keep its path edges. -/
def Droppable (A : Analysis D L K) (ps : List ProcId) (s : State D L K) (n : NodeId) : Prop :=
  ∃ node, ∃ p ∈ ps, s.HasNode n node ∧ InProc A s n p ∧ Solver.keepAt A node false = .ok false

/-- What was dropped belongs to the procedures `ps`. -/
structure Drops (A : Analysis D L K) (ps : List ProcId) (s s' : State D L K) : Prop extends
    Sheds s s' where
  seeds : s'.seeds = s.seeds
  reached : s'.reached = s.reached
  lost : ∀ n a b, s'.paths.get? n a b = s.paths.get? n a b ∨
    s'.paths.get? n a b = none ∧ Droppable A ps s n
  waiting : ∀ e, ∀ p ∉ ps, s'.ledger.callsInto e p = s.ledger.callsInto e p
  remain : ∀ i ∈ s.retention.candidates, (∀ p ∈ ps, p.index ≠ i) → i ∈ s'.retention.candidates

namespace Drops

theorem refl (s : State D L K) : Drops A ps s s :=
  ⟨.refl s, rfl, rfl, fun _ _ _ => .inl rfl, fun _ _ _ => rfl, fun _ hi _ => hi⟩

theorem trans (h : Drops A ps s s') (k : Drops A ps s' s'') : Drops A ps s s'' where
  toSheds := h.toSheds.trans k.toSheds
  seeds := k.seeds.trans h.seeds
  reached := k.reached.trans h.reached
  lost n a b := by
    rcases k.lost n a b with heq | ⟨hnone, node, p, hp, hnode, hin, hkeep⟩
    · rw [heq]
      exact h.lost n a b
    · refine .inr ⟨hnone, node, p, hp, ?_, ?_, hkeep⟩
      · rw [State.HasNode, ← h.nodes]
        exact hnode
      · obtain ⟨x, proc, hx, hproc, hname⟩ := hin
        rw [State.HasNode, h.nodes] at hx
        rw [State.HasProc, h.procs] at hname
        exact ⟨x, proc, hx, hproc, hname⟩
  waiting e p hp := (k.waiting e p hp).trans (h.waiting e p hp)
  remain i hi hps := k.remain i (h.remain i hi hps) hps

end Drops

variable {E : Fault → Prop}

namespace Solver

theorem dropPaths_ensures (hs : s.nodes.Wf) {node proc : String} {p : ProcId} (hmem : p ∈ ps)
    (hp : s.HasProc p proc) (hproc : A.graph.procOf node = .ok proc)
    (hkeep : keepAt A node false = .ok false) :
    Ensures E (dropPaths node) s fun _ t => Drops A ps s t := by
  refine .get_seq ?_
  split
  · exact .pure (.refl s)
  next id hid =>
  have hnode : s.HasNode ⟨id⟩ node := (Interner.find?_eq_some hs).1 hid
  refine .modify_end { (Drops.refl s : Drops A ps s s) with
    paths := fun n a b ef hef => ?_
    rows := fun h => h.clearNode
    books := ⟨fun _ => rfl, fun _ hi _ => hi, _, PathTable.size_clearNode, rfl, rfl⟩
    lost := fun n a b => ?_ }
  · rw [PathTable.get?_clearNode] at hef
    split at hef
    · cases hef
    · exact hef
  · rw [PathTable.get?_clearNode]
    split
    · next heq =>
      subst heq
      exact .inr ⟨rfl, node, p, hmem, hnode, ⟨node, proc, hnode, hproc, hp⟩, hkeep⟩
    · exact .inl rfl

theorem collectProc_ensures (hg : A.graph.Consistent) (hs : s.nodes.Wf) {p : ProcId} {proc : String}
    (hmem : p ∈ ps) (hp : s.HasProc p proc) (hproc : proc ∈ A.graph.procNames)
    (hidle : s.retention.count p = 0) :
    Ensures E (collectProc A p) s fun _ t => Drops A ps s t := by
  obtain ⟨ns, hns, hknown⟩ := Supergraph.nodesOf_total hg hproc
  refine (procName_ensures hp).seq ?_
  rintro _ _ ⟨rfl, rfl⟩
  refine .lift_seq (fun ns' hns' => ?_) fun f hf => by rw [hns] at hf; cases hf
  obtain rfl := Except.ok.inj (hns.symm.trans hns')
  refine Ensures.seq (.forM (fun t => Drops A ps s t) (.refl s) fun n hn t ht => ?_)
    fun _ t ht => ?_
  · obtain ⟨keep, hkeep⟩ := keepAt_total hg (hknown n hn) false
    refine .lift_seq (fun b hb => ?_) fun f hf => by rw [hkeep] at hf; cases hf
    cases b with
    | true => exact .pure ht
    | false =>
      have hname : t.HasProc p proc := by
        rw [State.HasProc, ht.procs]
        exact hp
      exact (dropPaths_ensures (ht.nodes ▸ hs) hmem hname
        ((Supergraph.mem_nodesOf_iff hg).1 ⟨ns, hns, hn⟩) hb).imp fun _ u hu => ht.trans hu
  · refine .modify_end (ht.trans { (Drops.refl t : Drops A ps t t) with
      ledger := CallLedger.forgets_purgeCallee t.ledger p
      candidates := fun i hi => (BitSet.mem_erase.1 hi).2
      books := ⟨fun _ => rfl, fun i hi hpos => BitSet.mem_erase.2 ⟨?_, hi⟩, 0, rfl, rfl, rfl⟩
      waiting := fun e q hq => ?_
      remain := fun i hi hne => BitSet.mem_erase.2 ⟨fun heq => hne p hmem heq.symm, hi⟩ })
    · rintro rfl
      rw [ht.books.counts] at hpos
      exact Nat.ne_of_gt hpos hidle
    · rw [CallLedger.callsInto_purgeCallee, if_neg]
      rintro rfl
      exact hq hmem

end Solver

/-! ## Grounded states -/

variable [DecidableEq D] {F : D → Prop}

namespace Solver

theorem AnswersGrounded.clearEdges (h : AnswersGrounded A F s) (store : EdgeStore L K) :
    AnswersGrounded A F { s with store, answers := s.answers.clearEdges } where
  zero := h.zero
  autoAddZero := h.autoAddZero
  normalFlow := h.normalFlow
  callFlow := h.callFlow
  returnFlow := h.returnFlow
  bypassFlow := h.bypassFlow
  summaryFlow := h.summaryFlow
  normalEdge := Memo.holds_clear _ _
  callEdge := Memo.holds_clear _ _
  returnEdge := Memo.holds_clear _ _
  bypassEdge := Memo.holds_clear _ _
  summaryEdge := Memo.holds_clear _ _

end Solver

variable [JoinLattice L] [DecidableEq L] [Payload K L]

theorem Grounded.alive (h : Grounded A F s) (hef : s.Holds ef) : s.store.Alive ef := by
  cases hef with
  | path hef => exact (h.paths _ _ _ _ hef).edge
  | summary hef => exact (h.summaries _ _ _ _ _ hef).2
  | record hc => exact (h.records _ ((h.ledger.known _).2 hc)).edge
  | known hc => exact (h.records _ hc).edge
  | waiting hc => exact (h.records _ (h.callsInto _ _ _ hc).1).edge
  | forwarding hc => exact (h.records _ (h.callsFrom _ _ _ hc)).edge
  | queued hx => exact (h.queue _ hx).edge
  | normalEdge hk => exact h.answers.normalEdge _ _ hk
  | callEdge hk => exact h.answers.callEdge _ _ hk
  | returnEdge hk => exact h.answers.returnEdge _ _ hk
  | bypassEdge hk => exact h.answers.bypassEdge _ _ hk
  | summaryEdge hk => exact h.answers.summaryEdge _ _ hk

/-- Only the stage and the counters changed. -/
theorem Grounded.withStage (h : Grounded A F s) {stage : Stage} {stats : Stats}
    (hkeys : ∀ keys, stage = .replay keys → ∀ key ∈ keys, KeyGrounded s key) :
    Grounded A F { s with stage, stats } :=
  h.grow (h.toBasis.congr rfl rfl rfl rfl rfl) { State.Grows.refl s with }
    (fun _ _ _ _ hef => .inl hef) h.rows (fun _ hx => .inl hx) (fun _ _ _ _ _ hef => .inl hef)
    h.ledger (fun _ hc => .inl hc) h.callsInto h.callsFrom (fun _ hk => .inl hk) hkeys
    (fun _ hi => .inl hi)

/-- The keys that are left after the first one was taken. -/
theorem Grounded.rest (h : Grounded A F s) {key : UInt64} {keys : List UInt64}
    (hstage : s.stage = .replay (key :: keys)) :
    ∀ ks, Stage.replay keys = .replay ks → ∀ k ∈ ks, KeyGrounded s k := by
  intro ks hks k hk
  obtain rfl := Stage.replay.inj hks
  exact h.replayed _ hstage k (List.mem_cons_of_mem _ hk)

theorem Sheds.grounded (h : Sheds s s') (hs : Grounded A F s) : Grounded A F s' := by
  have hfact : ∀ d y, s.HasFact d y → s'.HasFact d y := fun d y hy => by
    rw [State.HasFact, h.facts]
    exact hy
  have hnode : ∀ n y, s.HasNode n y → s'.HasNode n y := fun n y hy => by
    rw [State.HasNode, h.nodes]
    exact hy
  have hproc : ∀ p y, s.HasProc p y → s'.HasProc p y := fun p y hy => by
    rw [State.HasProc, h.procs]
    exact hy
  have hpath : ∀ x : PathEdge, x.Grounded s → x.Grounded s' := fun x hx =>
    ⟨hx.node.imp (hnode _), hx.source.imp (hfact _), hx.target.imp (hfact _), h.store ▸ hx.edge⟩
  exact {
    toBasis := hs.toBasis.congr h.nodes h.facts h.procs h.store h.answers
    paths := fun n a b ef hef => hpath _ (hs.paths n a b ef (h.paths n a b ef hef))
    rows := h.rows hs.rows
    queue := fun x hx => hpath x (hs.queue x (h.queue ▸ hx))
    summaries := fun p e x d ef hef => by
      rw [h.summaries] at hef
      obtain ⟨hd, halive⟩ := hs.summaries p e x d ef hef
      exact ⟨hd.imp (hfact d), h.store ▸ halive⟩
    ledger := h.ledger.wf hs.ledger
    records := fun c hc => by
      have hc := hs.records c ((h.ledger.mem_iff c).1 hc)
      exact ⟨hc.site.imp (hnode _), hc.callee.imp (hproc _), hc.source.imp (hfact _),
        hc.entry.imp (hfact _), h.store ▸ hc.edge⟩
    callsInto := fun e p c hc =>
      (hs.callsInto e p c (h.ledger.callsInto e p c hc)).imp_left (h.ledger.mem_iff c).2
    callsFrom := fun a n c hc => by
      rw [h.ledger.callsFrom] at hc
      exact (h.ledger.mem_iff c).2 (hs.callsFrom a n c hc)
    keys := fun key hk => (hs.keys key (h.callQueue ▸ hk)).imp (hproc _)
    replayed := fun keys hks key hk =>
      (hs.replayed keys (h.stage ▸ hks) key hk).imp (hproc _)
    candidates := fun i hi => by
      obtain ⟨p, hp, y, hy⟩ := hs.candidates i (h.candidates i hi)
      exact ⟨p, hp, y, hproc p y hy⟩ }

namespace Solver

/-- The procedures `ps` are idle candidates, and so are the candidates that they call. -/
def Collectable (A : Analysis D L K) (ps : List ProcId) (s : State D L K) : Prop :=
  ∀ p ∈ ps, s.retention.count p = 0 ∧
    ∀ q, q.index ∈ s.retention.candidates → p ∈ callersOf A s.procs q → q ∈ ps

theorem collectProcs_ensures (hg : A.graph.Consistent) (hs : Grounded A F s) :
    Ensures E (collectProcs A) s fun _ t => ∃ ps, Collectable A ps s ∧ Drops A ps s t := by
  refine .get_seq ?_
  cases hcoll : s.retention.collectable (callersOf A s.procs) with
  | mk ps r =>
  have hslots : ∀ i ∈ s.retention.candidates, ∃ p : ProcId, p.index = i := fun i hi =>
    (hs.candidates i hi).imp fun _ h => h.1
  obtain ⟨hcounts, hcand, hps⟩ := Retention.collectable_spec hslots hcoll
  refine .set_seq ?_
  have hr : Drops A ps s { s with retention := r } := { (Drops.refl s : Drops A ps s s) with
    candidates := fun i hi => hcand ▸ hi
    books := ⟨fun i => by simp only [Retention.countAt, hcounts], fun i hi _ => hcand ▸ hi, 0, rfl,
      rfl, rfl⟩
    remain := fun i hi _ => hcand ▸ hi }
  refine (Ensures.forM (fun t => Drops A ps s t) hr fun p hp t ht => ?_).imp
    fun _ t ht => ⟨ps, fun p hp => (hps p hp).2, ht⟩
  obtain ⟨q, hq, y, hy⟩ := hs.candidates _ (hps p hp).1
  obtain rfl := ProcId.index_inj.1 hq
  have hproc : t.HasProc q y := by
    rw [State.HasProc, ht.procs]
    exact hy
  have hidle : t.retention.count q = 0 := (ht.books.counts _).trans (hps q hp).2.1
  exact (collectProc_ensures hg (ht.nodes ▸ hs.nodes) hp hproc ((hs.declared y).2 ⟨q, hy⟩)
    hidle).imp fun _ u hu => ht.trans hu

/-! ## Sweeping -/

/-- Handles were freed, and what is still held has kept its tree. Remembered edge functions are
forgotten if handles may be freed, and kept with the store otherwise. -/
structure Trims (A : Analysis D L K) (F : D → Prop) (s s' : State D L K) : Prop where
  grounded : Grounded A F s'
  kept : ∀ ef, s'.Holds ef → s.store.SameTree s'.store ef
  answers : (s'.answers = s.answers ∧ s'.store = s.store) ∨
    (A.config.sweepEdges && A.config.computeValues) = true ∧ s'.answers = s.answers.clearEdges
  nodes : s'.nodes = s.nodes
  facts : s'.facts = s.facts
  procs : s'.procs = s.procs
  queue : s'.queue = s.queue
  seeds : s'.seeds = s.seeds
  reached : s'.reached = s.reached
  stage : s'.stage = s.stage
  books : KeepsBooks s s'

theorem edgeRoots_alive (hs : Grounded A F s) : ∀ ef ∈ edgeRoots s, s.store.Alive ef := by
  intro ef hef
  simp only [edgeRoots, List.mem_append] at hef
  rcases hef with ((hef | hef) | hef) | hef
  · obtain ⟨n, a, b, h⟩ := PathTable.exists_of_mem_edgeRefs hs.rows hef
    exact (hs.paths n a b ef h).edge
  · obtain ⟨p, e, x, d, h⟩ := SummaryTable.exists_of_mem_edgeRefs hef
    exact (hs.summaries p e x d ef h).2
  · obtain ⟨c, hc, rfl⟩ := CallLedger.exists_of_mem_edgeRefs hs.ledger hef
    exact (hs.records c hc).edge
  · obtain ⟨x, hx, rfl⟩ := List.mem_map.1 hef
    exact (hs.queue x hx).edge

/-- What a state holds beside remembered answers is among the roots. -/
theorem mem_edgeRoots_of_holds (hs : Grounded A F s) {store : EdgeStore L K} {ef : EdgeRef}
    (h : State.Holds { s with store, answers := s.answers.clearEdges } ef) : ef ∈ edgeRoots s := by
  cases h with
  | path hef => exact path_mem_edgeRoots hef
  | summary hef => exact summary_mem_edgeRoots hef
  | record hc => exact record_mem_edgeRoots hs.ledger ((hs.ledger.known _).2 hc)
  | known hc => exact record_mem_edgeRoots hs.ledger hc
  | waiting hc => exact record_mem_edgeRoots hs.ledger (hs.callsInto _ _ _ hc).1
  | forwarding hc => exact record_mem_edgeRoots hs.ledger (hs.callsFrom _ _ _ hc)
  | queued hx => exact queue_mem_edgeRoots hx
  | normalEdge hk => exact absurd hk (by simp [Answers.clearEdges, Memo.clear])
  | callEdge hk => exact absurd hk (by simp [Answers.clearEdges, Memo.clear])
  | returnEdge hk => exact absurd hk (by simp [Answers.clearEdges, Memo.clear])
  | bypassEdge hk => exact absurd hk (by simp [Answers.clearEdges, Memo.clear])
  | summaryEdge hk => exact absurd hk (by simp [Answers.clearEdges, Memo.clear])

theorem Trims.refl (hs : Grounded A F s) : Trims A F s s :=
  ⟨hs, fun _ hef => hs.store.sameTree_of_le (EdgeStore.le_refl _) (hs.alive hef), .inl ⟨rfl, rfl⟩,
    rfl, rfl, rfl, rfl, rfl, rfl, rfl, .refl s⟩

/-! ## Moves of the machine -/

/-- Work was taken off the queue of path edges. -/
theorem Grounded.withQueue (h : Grounded A F s) {queue : Worklist PathEdge}
    (hqueue : ∀ x ∈ queue.toList, x ∈ s.queue.toList) : Grounded A F { s with queue } :=
  h.grow (h.toBasis.congr rfl rfl rfl rfl rfl) { State.Grows.refl s with }
    (fun _ _ _ _ hef => .inl hef) h.rows (fun x hx => .inl (hqueue x hx))
    (fun _ _ _ _ _ hef => .inl hef) h.ledger (fun _ hc => .inl hc) h.callsInto h.callsFrom
    (fun _ hk => .inl hk) h.replayed (fun _ hi => .inl hi)

/-- A path edge was taken off the queue, and its procedure released. -/
theorem Grounded.withJob (h : Grounded A F s) {job : PathEdge} {queue : Worklist PathEdge}
    {p : ProcId} {r : Retention} (hpop : s.queue.pop? = some (job, queue))
    (hr : if A.config.gcMode.isEnabled then s.retention.release p = .ok r else r = s.retention) :
    Grounded A F { s with queue, retention := r } := by
  have hq : Grounded A F { s with queue } := Grounded.withQueue h fun x hx =>
    (Worklist.pop?_perm hpop).mem_iff.2 (List.mem_cons_of_mem _ hx)
  refine Grounded.withRetention hq fun i hi => ?_
  split at hr
  · exact (Retention.release_spec hr).1 ▸ hi
  · exact hr ▸ hi

/-- What one move of the machine does. -/
inductive Transition (A : Analysis D L K) (F : D → Prop) : State D L K → State D L K → Prop
  | begin {s t : State D L K} {stats : Stats} : s.stage = .fresh → Effects A F s t →
      stats.pathEdges = t.stats.pathEdges → Transition A F s { t with stage := .drain, stats }
  | take {s t : State D L K} {job : PathEdge} {queue : Worklist PathEdge} {p : ProcId}
      {r : Retention} : s.stage = .drain → s.queue.pop? = some (job, queue) →
      InProc A s job.node p →
      (if A.config.gcMode.isEnabled then s.retention.release p = .ok r else r = s.retention) →
      Effects A F { s with queue, retention := r } t → Transition A F s t
  | keys {s : State D L K} {stats : Stats} : s.stage = .drain → s.queue.pop? = none →
      stats.pathEdges = s.stats.pathEdges → Transition A F s { s with
        callQueue := s.callQueue.take.2, stage := .replay s.callQueue.take.1, stats }
  | replay {s t : State D L K} {key : UInt64} {keys : List UInt64} :
      s.stage = .replay (key :: keys) → Effects A F { s with stage := .replay keys } t →
      Transition A F s t
  | stop {s t : State D L K} : s.stage = .replay [] → Trims A F s t →
      (A.config.gcMode.isEnabled = false → t = s) → t.queue.toList = [] →
      Transition A F s { t with stage := .done }
  | again {s t : State D L K} {stats : Stats} : s.stage = .replay [] → Trims A F s t →
      (A.config.gcMode.isEnabled = false → t = s) → t.queue.toList ≠ [] →
      stats.pathEdges = t.stats.pathEdges → Transition A F s { t with stage := .drain, stats }

theorem Transition.grounded (h : Transition A F s s') (hs : Grounded A F s) : Grounded A F s' := by
  cases h with
  | begin _ ht _ => exact (ht.grounded hs).withStage nofun
  | take _ hpop _ hr ht => exact ht.grounded (Grounded.withJob hs hpop hr)
  | keys _ _ _ =>
    refine hs.grow (hs.toBasis.congr rfl rfl rfl rfl rfl) { State.Grows.refl s with }
      (fun _ _ _ _ hef => .inl hef) hs.rows (fun _ hx => .inl hx)
      (fun _ _ _ _ _ hef => .inl hef) hs.ledger (fun _ hc => .inl hc) hs.callsInto hs.callsFrom
      (fun key hk => ?_) (fun keys hks key hk => ?_) (fun _ hi => .inl hi)
    · simp [CallQueue.take] at hk
    · obtain rfl := Stage.replay.inj hks
      exact hs.keys key (by simpa [CallQueue.take] using hk)
  | replay hstage ht => exact ht.grounded (hs.withStage (hs.rest hstage))
  | stop _ ht _ _ => exact ht.grounded.withStage nofun
  | again _ ht _ _ _ => exact ht.grounded.withStage nofun

/-- A handle that is still held after a move has kept its tree. -/
theorem Transition.sameTree (h : Transition A F s s') (hs : Grounded A F s) {ef : EdgeRef}
    (hef : s.Holds ef) (hef' : s'.Holds ef) : s.store.SameTree s'.store ef := by
  have halive := hs.alive hef
  cases h with
  | begin _ ht _ => exact hs.store.sameTree_of_le ht.grows.store halive
  | take _ _ _ _ ht => exact hs.store.sameTree_of_le ht.grows.store halive
  | keys _ _ _ => exact hs.store.sameTree_of_le (EdgeStore.le_refl _) halive
  | replay _ ht => exact hs.store.sameTree_of_le ht.grows.store halive
  | stop _ ht _ _ => exact ht.kept ef hef'.of_withStage
  | again _ ht _ _ _ => exact ht.kept ef hef'.of_withStage

theorem create_grounded [Std.TransOrd D] [Std.LawfulEqOrd D] (hF : A.Confined F)
    (h : create A = .ok s) :
    Grounded A F s ∧ s.stage = .fresh ∧ s.paths = .empty ∧ s.stats.pathEdges = 0 := by
  simp only [create, bind_eq_ok, pure_eq_ok] at h
  obtain ⟨facts, hfacts, procs, hprocs, store, hstore, rfl⟩ := h
  obtain ⟨hfactsWf, hfact⟩ := internAll_spec hfacts
  obtain ⟨hprocsWf, hproc⟩ := internAll_spec hprocs
  obtain ⟨-, rfl⟩ := EdgeStore.create_eq_ok.1 hstore
  refine ⟨?_, rfl, rfl, rfl⟩
  exact {
    nodes := Interner.wf_empty, facts := hfactsWf, procs := hprocsWf
    known := fun n x hx => by simp [State.HasNode, Interner.empty, Interner.get?] at hx
    inside := fun d x hx => by
      rw [List.mem_singleton.1 ((hfact x).2 ⟨d.val, hx⟩)]
      exact hF.zero
    declared := fun x => by
      rw [hproc]
      constructor
      · rintro ⟨i, hi⟩
        exact ⟨⟨i⟩, hi⟩
      · rintro ⟨p, hp⟩
        exact ⟨p.val, hp⟩
    store := EdgeStore.regular_withLimit _
    joinLimit := rfl
    answers := by
      constructor
      case zero => rfl
      case autoAddZero => rfl
      all_goals
        intro _ _ h
        cases h
    paths := fun n a b ef hef => by
      change PathTable.empty.get? n a b = some ef at hef
      rw [PathTable.get?_empty] at hef
      cases hef
    rows := Nat.zero_le _
    queue := fun _ hx => absurd hx List.not_mem_nil
    summaries := fun p e x d ef hef => by
      change SummaryTable.empty.get? p e x d = some ef at hef
      rw [SummaryTable.get?_empty] at hef
      cases hef
    ledger := CallLedger.wf_empty
    records := fun _ hc => by cases hc
    callsInto := fun _ _ _ hc => absurd hc List.not_mem_nil
    callsFrom := fun _ _ _ hc => absurd hc List.not_mem_nil
    keys := fun _ hk => by cases hk.val
    replayed := fun _ h => by cases h
    candidates := fun i hi => absurd hi (BitSet.not_mem_ofCapacity _ i) }

/-! ## Programs with stored functions -/

variable [Std.TransOrd L] [Std.LawfulEqOrd L] [Std.TransOrd K] [Std.LawfulEqOrd K]

theorem sweepEdges_ensures (hs : Grounded A F s)
    (hasked : (A.config.sweepEdges && A.config.computeValues) = true) :
    Ensures E sweepEdges s fun _ t => Trims A F s t := by
  obtain ⟨n, store, hsweep, hst, freed, hkeeps, hroots⟩ := hs.store.sweep (edgeRoots_alive hs)
  refine .get_seq (.lift_seq (fun r hr => ?_) fun f hf => by rw [hsweep] at hf; cases hf)
  obtain rfl := Except.ok.inj (hsweep.symm.trans hr)
  have halive : ∀ ef ∈ edgeRoots s, store.Alive ef := fun ef hef => by
    obtain ⟨node, hn⟩ := edgeRoots_alive hs ef hef
    exact ⟨node, (hkeeps.node? ef (hroots ef hef)).trans hn⟩
  have hpath : ∀ x : PathEdge, x.Grounded s → x.edge ∈ edgeRoots s →
      PathEdge.Grounded { s with store, answers := s.answers.clearEdges } x :=
    fun x hx hroot => ⟨hx.node, hx.source, hx.target, halive _ hroot⟩
  refine .of_ok rfl ⟨?_, fun ef hef => ?_, .inr ⟨hasked, rfl⟩, rfl, rfl, rfl, rfl, rfl, rfl, rfl,
    .of_eq rfl rfl rfl rfl⟩
  · exact {
      nodes := hs.nodes, facts := hs.facts, procs := hs.procs, known := hs.known
      inside := hs.inside, declared := hs.declared, store := hst
      joinLimit := hkeeps.joinLimit.trans hs.joinLimit
      answers := AnswersGrounded.clearEdges hs.answers store
      paths := fun n a b ef hef => hpath _ (hs.paths n a b ef hef) (path_mem_edgeRoots hef)
      rows := hs.rows
      queue := fun x hx => hpath x (hs.queue x hx) (queue_mem_edgeRoots hx)
      summaries := fun p e x d ef hef =>
        ⟨(hs.summaries p e x d ef hef).1, halive ef (summary_mem_edgeRoots hef)⟩
      ledger := hs.ledger
      records := fun c hc => by
        have hg := hs.records c hc
        have hroot := record_mem_edgeRoots hs.ledger hc
        exact ⟨hg.site, hg.callee, hg.source, hg.entry, halive _ hroot⟩
      callsInto := hs.callsInto, callsFrom := hs.callsFrom, keys := hs.keys
      replayed := hs.replayed, candidates := hs.candidates }
  · have hroot := mem_edgeRoots_of_holds hs hef
    exact hs.store.sameTree_of_keeps hkeeps (edgeRoots_alive hs ef hroot) (hroots ef hroot)

theorem sweepIfAsked_ensures (hs : Grounded A F s) :
    Ensures E (sweepIfAsked A) s fun _ t => Trims A F s t := by
  unfold sweepIfAsked
  split
  · next hasked => exact sweepEdges_ensures hs hasked
  · exact .pure (.refl hs)

/-- With collection switched off, the end of a round changes nothing. -/
theorem collect_ensures (hg : A.graph.Consistent) (hs : Grounded A F s) :
    Ensures E (collect A) s fun _ t =>
      Trims A F s t ∧ (A.config.gcMode.isEnabled = false → t = s) := by
  unfold collect
  split
  · next hgc =>
    refine (collectProcs_ensures hg hs).seq ?_
    rintro _ t ⟨ps, -, ht⟩
    refine (sweepIfAsked_ensures (ht.grounded hs)).imp fun _ u hu => ⟨?_, fun h => ?_⟩
    · exact ⟨hu.grounded, fun ef hef => ht.store ▸ hu.kept ef hef,
        by rw [← ht.answers, ← ht.store]; exact hu.answers, hu.nodes.trans ht.nodes,
        hu.facts.trans ht.facts, hu.procs.trans ht.procs, hu.queue.trans ht.queue,
        hu.seeds.trans ht.seeds, hu.reached.trans ht.reached, hu.stage.trans ht.stage,
        ht.books.trans hu.books⟩
    · rw [hgc] at h
      cases h
  · exact .pure ⟨.refl hs, fun _ => rfl⟩

theorem dropPending_ensures (hs : Grounded A F s) :
    Ensures E (dropPending A) s fun _ t =>
      Grounded A F t ∧ (∀ ef, t.Holds ef → s.store.SameTree t.store ef) ∧
        KeepsBooks s t ∧ t.queue.toList = [] ∧ t.stage = s.stage ∧
        t.answers = s.answers.clear := by
  have hb : Basis A F { s with
      answers := s.answers.clear
      ledger := s.ledger.clearByCallee
      queue := s.queue.clear
      callQueue := s.callQueue.clear } := { hs.toBasis with
    answers := {
      zero := hs.answers.zero
      autoAddZero := hs.answers.autoAddZero
      normalFlow := Memo.holds_clear _ _
      callFlow := Memo.holds_clear _ _
      returnFlow := Memo.holds_clear _ _
      bypassFlow := Memo.holds_clear _ _
      summaryFlow := Memo.holds_clear _ _
      normalEdge := Memo.holds_clear _ _
      callEdge := Memo.holds_clear _ _
      returnEdge := Memo.holds_clear _ _
      bypassEdge := Memo.holds_clear _ _
      summaryEdge := Memo.holds_clear _ _ } }
  have hforget := CallLedger.forgets_clearByCallee s.ledger
  have hg : Grounded A F { s with
      answers := s.answers.clear
      ledger := s.ledger.clearByCallee
      queue := s.queue.clear
      callQueue := s.callQueue.clear } := by
    refine hs.grow hb { State.Grows.refl s with } (fun _ _ _ _ hef => .inl hef) hs.rows
      (fun x hx => ?_) (fun _ _ _ _ _ hef => .inl hef) (hforget.wf hs.ledger)
      (fun _ hc => .inl hc) (fun e p c hc => hs.callsInto e p c (hforget.callsInto e p c hc))
      (fun a n c hc => hs.callsFrom a n c (hforget.callsFrom a n ▸ hc)) (fun key hk => ?_)
      (fun keys hks key hk => ?_)
      (fun _ hi => .inl hi)
    · exact absurd hx (by simp)
    · simp [CallQueue.clear] at hk
    · exact (hs.replayed keys hks key hk).imp fun _ h => h
  refine .modify_seq ((sweepIfAsked_ensures hg).seq fun _ t ht => ?_)
  refine .modify_end ⟨?_, fun ef hef => ?_, ?_, ?_, ht.stage, ht.answers.elim And.left And.right⟩
  · exact ht.grounded.withStage ht.grounded.replayed
  · exact ht.kept ef hef.of_withStage
  · exact ⟨ht.books.counts, ht.books.busy, ht.books.dropped⟩
  · rw [ht.queue]
    exact Worklist.toList_clear _

variable [Std.TransOrd D] [Std.LawfulEqOrd D]

theorem submitSeed_ensures (hP : Groundwork A F E) (hs : Grounded A F s) {node : String} {fact : D}
    {value : L} (hnode : A.graph.Known node) (hfact : F fact) :
    Ensures E (submitSeed A node fact value) s fun _ t => Effects A F s t := by
  obtain ⟨proc, hmem, hproc⟩ := hnode.procOf hP.graph
  refine (nodeId_ensures hP hs.toBasis hnode).seq fun n t ⟨ht, hn⟩ => ?_
  refine (factId_ensures hP (ht.grounded hs).toBasis hfact).seq fun d u ⟨hu, hd⟩ => ?_
  have htu := ht.trans hu
  have hgu := htu.grounded hs
  refine .lift_seq (fun q hq => ?_) fun f hf => by rw [hproc] at hf; cases hf
  obtain rfl := Except.ok.inj (hproc.symm.trans hq)
  refine (procId_ensures hgu.toBasis hmem).seq ?_
  rintro p _ ⟨rfl, hp⟩
  have hseed : Effects A F u { u with seeds := u.seeds ++ [⟨n, d, value⟩] } :=
    .single (.seed ⟨node, hu.grows.nodes _ _ hn⟩ ⟨fact, hd⟩)
  have hgv := hseed.grounded hgu
  refine .modify_seq ((record_ensures hP hgv ⟨⟨node, ?_⟩, ⟨fact, hd⟩, ⟨fact, hd⟩, _,
    hgv.store.identity⟩ ⟨node, proc, ?_, hproc, hp⟩).imp fun _ w hw => (htu.trans hseed).trans hw)
  all_goals exact hu.grows.nodes _ _ hn

/-- A move from a grounded state is one of the transitions, or ends with a fault that is allowed:
one of the groundwork, or that a procedure is released without pending work. -/
theorem step_ensures_of_idle (hP : Groundwork A F E) (hs : Grounded A F s)
    (hstage : s.stage ≠ .done)
    (hidle : A.config.gcMode.isEnabled = true → ∀ x ∈ s.queue.toList, ∀ p, InProc A s x.node p →
      s.retention.count p = 0 → E (.noPendingJobs p.index)) :
    Ensures E (step A) s fun _ t => Transition A F s t := by
  refine .get_seq ?_
  split
  · next hfresh =>
    refine (forM_effects hs fun x hx t _ hgt => ?_).seq fun _ t ht => ?_
    · exact submitSeed_ensures hP hgt (hP.seeds x hx) (hP.confined.seeds x hx)
    · exact .modify_end (.begin hfresh ht rfl)
  · next hdrain =>
    split
    · next job queue hpop =>
      have hperm := Worklist.pop?_perm hpop
      have hmem : job ∈ s.queue.toList := hperm.mem_iff.2 List.mem_cons_self
      have hg : Grounded A F { s with queue } := Grounded.withQueue hs fun x hx =>
        hperm.mem_iff.2 (List.mem_cons_of_mem _ hx)
      have hjob : job.Grounded { s with queue } :=
        (hs.queue job hmem).mono { State.Grows.refl s with }
      refine .set_seq ((propagate_ensures hP hg hjob fun hgc p => hidle hgc job hmem p).imp
        fun _ t ht => ?_)
      obtain ⟨p, r, hp, hr, ht⟩ := ht
      exact .take hdrain hpop hp hr ht
    · next hpop => exact .modify_end (.keys hdrain hpop rfl)
  · next key keys hreplay =>
    have hg : Grounded A F { s with stage := .replay keys } := hs.withStage (hs.rest hreplay)
    have hkey : KeyGrounded { s with stage := .replay keys } key :=
      hs.replayed _ hreplay key List.mem_cons_self
    exact .set_seq ((replay_ensures hP hg hkey).imp fun _ t ht => .replay hreplay ht)
  · next hreplay =>
    refine (collect_ensures hP.graph hs).seq fun _ t ⟨ht, hoff⟩ => .get_seq ?_
    split
    · next hempty => exact .modify_end (.stop hreplay ht hoff ((Worklist.isEmpty_iff _).1 hempty))
    · next hsome =>
      refine .modify_end (.again hreplay ht hoff (fun hnil => hsome ?_) rfl)
      exact (Worklist.isEmpty_iff _).2 hnil
  · next hdone => exact absurd hdone hstage

/-- A move from a grounded state is one of the transitions, or ends with a fault that is allowed. -/
theorem step_ensures (hP : Premises A F E) (hs : Grounded A F s) (hstage : s.stage ≠ .done) :
    Ensures E (step A) s fun _ t => Transition A F s t :=
  step_ensures_of_idle hP.toGroundwork hs hstage fun hgc _ _ p _ _ => hP.idle hgc p.index

end Solver

end Tabulation
