import Tabulation.Proofs.Bookkeeping
import Tabulation.Proofs.Solver.MirrorCalls
import Tabulation.Proofs.Solver.Rounds

/-!
# Collecting on one side

The run with collection ends a round: it drops path edges and waiting calls of idle procedures, and
frees functions that no table mentions. The other run does nothing, and the states mirror each other
again, with more slack.

**Idle procedures.** Nothing is queued for a collected procedure on either side, so all that its
path edges lead to is there, `Redoable`, and the pairs with which it was entered can rest.

**Sweeping.** What the tables mention is kept, so labels stay alike.
-/

namespace Tabulation

variable {D L K : Type} [Ord D] [Ord L] [Ord K] [JoinLattice L] [Payload K L] [DecidableEq L]
  {A : Analysis D L K} {F : D → Prop} {m : GcMode} {w : Slack} {s s' t : State D L K}
  {ps : List ProcId}

theorem Mirrors.inProc (h : Mirrors A m w s t) {n : NodeId} {p : ProcId} :
    InProc (A.withGc m) s n p ↔ InProc A t n p := by
  constructor
  · rintro ⟨x, proc, hx, hproc, hp⟩
    exact ⟨x, proc, h.hasNode.1 hx, hproc, h.hasProc.1 hp⟩
  · rintro ⟨x, proc, hx, hproc, hp⟩
    exact ⟨x, proc, h.hasNode.2 hx, hproc, h.hasProc.2 hp⟩

/-- Nothing is queued for a procedure without pending path edges, on either side. -/
theorem Mirrors.idle (h : Mirrors A m w s t) (hm : m.isEnabled = true)
    (hbooked : Booked (A.withGc m) s) {p : ProcId} (hp : s.retention.count p = 0) {x : PathEdge}
    (hx : x ∈ t.queue.toList) : ¬ InProc A t x.node p := by
  intro hin
  obtain ⟨j, -, hpad⟩ := h.queue
  obtain ⟨_, hx', e, rfl, -⟩ := hpad.exists_of_mem hx
  exact Nat.ne_of_gt (Solver.Booked.count_pos hbooked hm hx' (h.inProc.2 hin)) hp

/-- A callee was entered, so it is a candidate or asleep. -/
theorem Mirrors.candidate_or_asleep (h : Mirrors A m w s t) (hA : Comparable A) {p : ProcId}
    {a : FactId} (hp : Started A t p a) : p.index ∈ s.retention.candidates ∨ w.asleep p a := by
  obtain ⟨q, sp, n, ef, hq, hsp, hn, hef⟩ := hp
  obtain ⟨hproc, hstart⟩ := (Supergraph.startOf_iff hA.graph).1 hsp
  obtain ⟨node, proc, p', hnode, hproc', hp', hcand⟩ := h.placed n a a ef hef
  obtain rfl := Option.some.inj (hn.symm.trans hnode)
  obtain rfl : p' = p := InProc.unique h.base.procs ⟨sp, proc, hnode, hproc', hp'⟩
    ⟨sp, q, hn, hproc, hq⟩
  exact hcand hstart rfl

/-! ## Sweeping -/

/-- Labels that the tables mention are alike in another store. -/
theorem Mirrors.relabel (h : Mirrors A m w s t) {store : EdgeStore L K} {answers : Answers D}
    (hb : Base (A.withGc m) { s with store, answers }) (hneat : NeatBoth A store t.store)
    (hinto : ∀ e p, ∀ c ∈ s.ledger.callsInto e p, c ∈ s.ledger)
    (hfrom : ∀ a n, ∀ c ∈ s.ledger.callsFrom a n, c ∈ s.ledger)
    (hkeep : ∀ e' ∈ Solver.edgeRoots s, ∀ e, Alike A s.store t.store e' e →
      Alike A store t.store e' e) : Mirrors A m w { s with store, answers } t := by
  have hcall : ∀ c' ∈ s.ledger, ∀ c, CallAlike A s.store t.store c' c →
      CallAlike A store t.store c' c := by
    rintro _ hc c ⟨e', rfl, he⟩
    exact ⟨e', rfl, hkeep e' (Solver.record_mem_edgeRoots h.ledger' hc) _ he⟩
  have hcalls : ∀ {l' l : List CallRecord}, (∀ c ∈ l', c ∈ s.ledger) →
      List.Forall₂ (CallAlike A s.store t.store) l' l →
      List.Forall₂ (CallAlike A store t.store) l' l := fun hl hall =>
    ((List.forall₂_and_left _ _).2 ⟨hl, hall⟩).imp fun c' c hc => hcall c' hc.1 c hc.2
  exact { h with
    base' := hb
    neat := hneat
    paths := by
      intro n a b
      refine (h.paths n a b).imp_left fun hrel => rel_imp_of_eq hrel fun e' e hef _ he => ?_
      exact hkeep e' (Solver.path_mem_edgeRoots hef) e he
    queue := by
      obtain ⟨j, hj, hpad⟩ := h.queue
      refine ⟨j, hj, hpad.imp ?_ fun _ hx => hx⟩
      rintro _ x hx _ ⟨e', rfl, he⟩
      exact ⟨e', rfl, hkeep e' (Solver.queue_mem_edgeRoots hx) _ he⟩
    summaries := by
      intro p e x d
      refine rel_imp_of_eq (h.summaries p e x d) fun e' e hef _ he => ?_
      exact hkeep e' (Solver.summary_mem_edgeRoots hef) e he
    records := hcalls (fun c hc => (h.ledger'.known c).2 hc) h.records
    waiting := fun e p => (h.waiting e p).imp_left (hcalls (hinto e p))
    forwarding := fun a n => hcalls (hfrom a n) (h.forwarding a n) }

variable [DecidableEq D]

namespace Solver

variable [Std.TransOrd L] [Std.LawfulEqOrd L] [Std.TransOrd K] [Std.LawfulEqOrd K]

theorem sweepEdges_mirrors (hA : Comparable A) (h : Mirrors A m w s t)
    (hs : Grounded (A.withGc m) F s) :
    ∃ s', sweepEdges.run s = .ok ((), s') ∧ Mirrors A m w s' t := by
  obtain ⟨n, store, hsweep, hst, freed, hkeeps, hroots⟩ := hs.store.sweep (edgeRoots_alive hs)
  refine ⟨{ s with store, answers := s.answers.clearEdges }, ?_, h.relabel ?_ ?_ ?_ ?_ ?_⟩
  · unfold sweepEdges
    rw [run_get_seq, run_ok_seq hsweep]
    rfl
  · exact ⟨h.base'.nodes, h.base'.facts, h.base'.procs, AnswersOk.clearEdges h.base'.answers store,
      hst, hkeeps.joinLimit.trans h.base'.joinLimit⟩
  · exact .of_regular hA hst h.base.store
  · exact fun e p c hc => (hs.callsInto e p c hc).1
  · exact fun a n c hc => hs.callsFrom a n c hc
  · exact fun e' he' e he => ⟨fun hv => (he.twin hv).keeps hkeeps (hroots e' he'), he.same⟩

theorem sweepIfAsked_mirrors (hA : Comparable A) (h : Mirrors A m w s t)
    (hs : Grounded (A.withGc m) F s) :
    ∃ s', (sweepIfAsked (A.withGc m)).run s = .ok ((), s') ∧ Mirrors A m w s' t := by
  unfold sweepIfAsked
  split
  · exact sweepEdges_mirrors hA h hs
  · exact ⟨s, rfl, h⟩

end Solver

/-! ## Collecting -/

/-- Nothing new comes of the path edge if it is recorded again. -/
structure Redoable (A : Analysis D L K) (m : GcMode) (t : State D L K) (x : PathEdge) : Prop where
  plain : A.config.computeValues ≠ true
  label : x.edge = .identity
  crossed : Crossed A t x
  inProc : ∃ p, InProc A t x.node p
  dropped : ∃ node, t.HasNode x.node node ∧ Solver.keepAt (A.withGc m) node false = .ok false

/-- The keys of a table of path edges. -/
theorem PathTable.exists_keys (t : PathTable) : ∃ l : List PathEdge,
    ∀ n a b ef, t.get? n a b = some ef → ⟨n, a, b, .identity⟩ ∈ l := by
  refine ⟨(List.range t.rows.size).flatMap fun i =>
    (t.entries ⟨UInt32.ofNat i⟩).map fun e => ⟨⟨UInt32.ofNat i⟩, e.1, e.2.1, .identity⟩, ?_⟩
  intro n a b ef hef
  obtain ⟨row, hrow, -⟩ := PathTable.get?_eq_some.1 hef
  have hlt : n.index < t.rows.size := (Array.getElem?_eq_some_iff.1 hrow).1
  have hn : (⟨UInt32.ofNat n.index⟩ : NodeId) = n := congrArg NodeId.mk UInt32.ofNat_toNat
  refine List.mem_flatMap.2 ⟨n.index, List.mem_range.2 hlt, List.mem_map.2 ⟨(a, b, ef), ?_, ?_⟩⟩
  · rw [hn]
    exact PathTable.mem_entries.2 hef
  · rw [hn]

/-- The pairs of the collected procedures can rest. -/
theorem Mirrors.resting (h : Mirrors A m w s t) (hA : Comparable A) (hm : m.isEnabled = true)
    (hready : Ready A (fun _ _ => False) t) (hnone : ∀ e q, ¬ PendingKey t e q)
    (hrest : Resting A w.asleep t) (hbooked : Booked (A.withGc m) s)
    (hps : Solver.Collectable (A.withGc m) ps s) :
    Resting A (Solver.Asleep A w.asleep t ps) t := by
  have hstarted := hready.dormant.started
  refine Solver.resting_asleep hA.graph hrest hstarted hnone
    (fun p hcoll x hx => h.idle hm hbooked (hps p hcoll).1 hx) fun c hc p hcoll hp => ?_
  refine (h.candidate_or_asleep hA (hstarted c hc)).symm.imp_right fun hcand => ?_
  refine (hps p hcoll).2 _ hcand ?_
  rw [h.procs]
  exact Solver.caller_mem_callersOf hA.scope hready.inv hc hp

/-- What was dropped without values may be recorded again. -/
theorem Mirrors.redoable (h : Mirrors A m w s t) (hm : m.isEnabled = true)
    (hready : Ready A (fun _ _ => False) t) (hbooked : Booked (A.withGc m) s)
    (hps : Solver.Collectable (A.withGc m) ps s) (hv : A.config.computeValues ≠ true)
    {n : NodeId} {a b : FactId} {ef : EdgeRef} (hef : t.paths.get? n a b = some ef)
    (hn : Droppable (A.withGc m) ps s n) : Redoable A m t ⟨n, a, b, .identity⟩ := by
  obtain ⟨node, p, hp, hnode, hin, hkeep⟩ := hn
  obtain rfl := h.plain hv n a b ef hef
  have hin := h.inProc.1 hin
  refine ⟨hv, rfl, ?_, ⟨p, hin⟩, node, h.hasNode.1 hnode, hkeep⟩
  rcases hready.paths n a b _ hef with hno | hqueued | hcrossed
  · exact hno.elim
  · exact absurd hin (h.idle hm hbooked (hps p hp).1 hqueued)
  · exact hcrossed

/-- The slack after procedures were collected. -/
def Slack.collect (A : Analysis D L K) (w : Slack) (t : State D L K) (ps : List ProcId)
    (gone : List PathEdge) (rank : Nat) : Slack :=
  { w with asleep := Solver.Asleep A w.asleep t ps, dropped := w.dropped ++ gone, rank }

open Classical in
/-- The states mirror each other after procedures were collected. -/
theorem Mirrors.collect (h : Mirrors A m w s t) (hA : Comparable A) (hm : m.isEnabled = true)
    (hready : Ready A (fun _ _ => False) t) (hrest : Resting A w.asleep t) (hredo : ¬ w.redo)
    (hbooked : Booked (A.withGc m) s) (hps : Solver.Collectable (A.withGc m) ps s)
    (hdrops : Drops (A.withGc m) ps s s') :
    ∃ gone rank, Mirrors A m (w.collect A t ps gone rank) s' t ∧ ∀ x ∈ gone, Redoable A m t x := by
  obtain ⟨keys, hkeys⟩ := s.paths.exists_keys
  refine ⟨keys.filter fun x => Redoable A m t x,
    Slack.missing { w with dropped := w.dropped ++ keys.filter fun x => Redoable A m t x } s', ?_,
    fun x hx => by simpa using (List.mem_filter.1 hx).2⟩
  generalize hgone : (keys.filter fun x => decide (Redoable A m t x)) = gone
  have hlost : ∀ n a b ef' ef, s.paths.get? n a b = some ef' → t.paths.get? n a b = some ef →
      Droppable (A.withGc m) ps s n → Lost A m (w.collect A t ps gone 0) t n a b := by
    intro n a b ef' ef hef' hef hn
    have hn' := hn
    obtain ⟨node, p, hp, hnode, hin, hkeep⟩ := hn'
    refine ⟨⟨ef, hef⟩, ⟨node, h.hasNode.1 hnode, hkeep⟩, fun hv => ?_, fun hv => ?_⟩
    · refine List.mem_append_right _ ?_
      rw [← hgone]
      exact List.mem_filter.2 ⟨hkeys n a b ef' hef',
        decide_eq_true (h.redoable hm hready hbooked hps hv hef hn)⟩
    · exact ⟨p, h.inProc.1 hin, .inr ⟨hp, hrest.rooted hv n a b ef p hef (h.inProc.1 hin)⟩⟩
  exact {
    nodes := hdrops.nodes.trans h.nodes
    facts := hdrops.facts.trans h.facts
    procs := hdrops.procs.trans h.procs
    base' := h.base'.congr hdrops.nodes hdrops.facts hdrops.procs hdrops.store hdrops.answers
    base := h.base
    neat := hdrops.store ▸ h.neat
    paths := by
      intro n a b
      rw [hdrops.store]
      rcases h.paths n a b with hrel | ⟨hnone, hold⟩
      · rcases hdrops.lost n a b with heq | ⟨hnone, hn⟩
        · rw [heq]
          exact .inl hrel
        · cases hef : t.paths.get? n a b with
          | none =>
            rw [hnone]
            exact .inl .none
          | some ef =>
            obtain ⟨ef', hef', -⟩ := (rel_eq_some hrel).2 ef hef
            exact .inr ⟨hnone, hlost n a b ef' ef hef' hef hn⟩
      · obtain ⟨hsome, hnode, hplain, hvalues⟩ := hold
        refine .inr ⟨?_, hsome, hnode, fun hv => List.mem_append_left _ (hplain hv), fun hv => ?_⟩
        · refine Option.eq_none_iff_forall_ne_some.2 fun ef hef => ?_
          rw [hdrops.paths n a b ef hef] at hnone
          cases hnone
        · exact (hvalues hv).imp fun _ => And.imp_right .inl
    order := by rw [hdrops.queue, h.order]
    queue := by
      obtain ⟨j, -, hpad⟩ := h.queue
      obtain rfl := hpad.eq_zero fun _ hx => hredo hx.1
      rw [hdrops.queue, hdrops.store]
      refine ⟨0, Nat.le_of_eq (Nat.zero_add _), ?_⟩
      exact hpad.imp (fun _ _ _ _ hx => hx) fun _ hx => absurd hx.1 hredo
    reached := by
      rw [hdrops.reached]
      exact h.reached
    met := h.met
    reported := h.reported
    plain := h.plain
    summaries := by
      rw [hdrops.summaries, hdrops.store]
      exact h.summaries
    records := by
      rw [hdrops.ledger.records, hdrops.store]
      exact h.records
    ledger' := hdrops.ledger.wf h.ledger'
    ledger := h.ledger
    calls := h.calls
    into := h.into
    waiting := by
      intro e p
      rw [hdrops.store]
      rcases h.waiting e p with hall | hw
      · by_cases hp : p ∈ ps
        · cases hl : t.ledger.callsInto e p with
          | nil =>
            rw [hl, List.forall₂_nil_right_iff] at hall
            have hsub := hdrops.ledger.callsInto e p
            rw [hall] at hsub
            refine .inl (List.forall₂_nil_right_iff.2
              (List.eq_nil_iff_forall_not_mem.2 fun c hc => ?_))
            exact List.not_mem_nil (hsub c hc)
          | cons c l =>
            have hc : c ∈ t.ledger.callsInto e p := by
              rw [hl]
              exact List.mem_cons_self
            obtain ⟨hmem, rfl, rfl⟩ := hready.inv.into e p c hc
            exact .inr (.inr ⟨hp, hrest.rooted_of_started hA.graph (hready.dormant.started c hmem)⟩)
        · rw [hdrops.waiting e p hp]
          exact .inl hall
      · exact .inr (.inl hw)
    forwarding := by
      intro a n
      rw [hdrops.ledger.callsFrom, hdrops.store]
      exact h.forwarding a n
    placed := by
      intro n a b ef hef
      obtain ⟨node, proc, p, hnode, hproc, hp, hcand⟩ := h.placed n a b ef hef
      refine ⟨node, proc, p, hnode, hproc, hp, fun hstart hab => ?_⟩
      rcases hcand hstart hab with hcand | hw
      · by_cases hcoll : p ∈ ps
        · subst hab
          refine .inr (.inr ⟨hcoll, hrest.rooted_of_started hA.graph ?_⟩)
          exact ⟨proc, node, n, ef, hp, (Supergraph.startOf_iff hA.graph).2 ⟨hproc, hstart⟩, hnode,
            hef⟩
        · refine .inl (hdrops.remain _ hcand fun q hq heq => hcoll ?_)
          rw [← ProcId.index_inj.1 heq]
          exact hq
      · exact .inr (.inl hw)
    keys := by rw [hdrops.callQueue, h.keys]
    seeds := by rw [hdrops.seeds, h.seeds]
    stage := by rw [hdrops.stage, h.stage] }

namespace Solver

/-- Collecting at the end of a round, while the other run does nothing. -/
theorem collect_mirrors [Std.TransOrd L] [Std.LawfulEqOrd L] [Std.TransOrd K]
    [Std.LawfulEqOrd K] (hA : Comparable A) (hm : m.isEnabled = true) (h : Mirrors A m w s t)
    (hs : Grounded (A.withGc m) F s) (hbooked : Booked (A.withGc m) s)
    (hready : Ready A (fun _ _ => False) t) (hnone : ∀ e q, ¬ PendingKey t e q)
    (hrest : Resting A w.asleep t) (hredo : ¬ w.redo)
    (hdropped : ∀ x ∈ w.dropped, Redoable A m t x) :
    ∃ s' w', (collect (A.withGc m)).run s = .ok ((), s') ∧ Mirrors A m w' s' t ∧
      Resting A w'.asleep t ∧ ¬ w'.redo ∧ ∀ x ∈ w'.dropped, Redoable A m t x := by
  obtain ⟨⟨⟩, s₁, hrun, ps, hps, hdrops⟩ :=
    (collectProcs_ensures (A := A.withGc m) hA.graph hs).exists_ok
  obtain ⟨gone, rank, h₁, hgone⟩ := h.collect hA hm hready hrest hredo hbooked hps hdrops
  obtain ⟨s₂, hsweep, h₂⟩ := sweepIfAsked_mirrors hA h₁ (hdrops.grounded hs)
  refine ⟨s₂, _, ?_, h₂, h.resting hA hm hready hnone hrest hbooked hps, hredo, fun x hx => ?_⟩
  · unfold collect
    rw [if_pos (show (A.withGc m).config.gcMode.isEnabled = true from hm), run_seq hrun]
    exact hsweep
  · exact (List.mem_append.1 hx).elim (hdropped x) (hgone x)

end Solver

end Tabulation
