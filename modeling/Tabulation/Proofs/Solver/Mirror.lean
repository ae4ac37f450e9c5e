import Tabulation.Proofs.EdgeStore.Twin
import Tabulation.Proofs.Solver.Alongside
import Tabulation.Proofs.Solver.Steps

/-!
# Two runs side by side

A run that collects is compared with a run of the same analysis that does not. `Mirrors A m w s t`
says that `s`, a state of the run with collection `m`, has what `t` has, a state of the run without:
the same names, and tables that agree up to the handles of stored functions, `Alike`.

**Slack.** The states may differ in what `w` allows. Path edges may be lost, `Lost`, and calls may
no longer wait for the summaries of a pair that is asleep. Runs without values may find lost path
edges again, which are then queued in addition to what the other run has queued.

**Programs.** The lemmas about programs are of the form `Follows`: whenever the run without
collection can do something, the other one can follow, and the states mirror each other again.
-/

namespace Tabulation

variable {D L K : Type} {A : Analysis D L K} {m : GcMode}

/-- The same analysis with another kind of collection. -/
def Analysis.withGc (A : Analysis D L K) (mode : GcMode) : Analysis D L K :=
  { A with config := { A.config with gcMode := mode } }

variable [Ord L] [Ord K]

/-! ## Labels -/

/-- Labels of two stores for the same function. Without values, labels say nothing and are the
same. -/
structure Alike (A : Analysis D L K) (st' st : EdgeStore L K) (e' e : EdgeRef) : Prop where
  twin : A.config.computeValues = true → st'.Twin st e' e
  same : A.config.computeValues ≠ true → e' = e

/-- The path edges differ at most in the handles of their labels. -/
def PathAlike (A : Analysis D L K) (st' st : EdgeStore L K) (x' x : PathEdge) : Prop :=
  ∃ e', x' = { x with edge := e' } ∧ Alike A st' st e' x.edge

/-- The calls differ at most in the handles of their labels. -/
def CallAlike (A : Analysis D L K) (st' st : EdgeStore L K) (c' c : CallRecord) : Prop :=
  ∃ e', c' = { c with edge := e' } ∧ Alike A st' st e' c.edge

variable {st' st st₁' st₁ : EdgeStore L K} {e' e f' f : EdgeRef}

theorem Alike.mono (h : Alike A st' st e' e) (hle' : st' ≤ st₁') (hle : st ≤ st₁) :
    Alike A st₁' st₁ e' e :=
  ⟨fun hv => (h.twin hv).mono hle' hle, h.same⟩

theorem PathAlike.mono {x' x : PathEdge} (h : PathAlike A st' st x' x) (hle' : st' ≤ st₁')
    (hle : st ≤ st₁) : PathAlike A st₁' st₁ x' x :=
  h.imp fun _ h => ⟨h.1, h.2.mono hle' hle⟩

theorem CallAlike.mono {c' c : CallRecord} (h : CallAlike A st' st c' c) (hle' : st' ≤ st₁')
    (hle : st ≤ st₁) : CallAlike A st₁' st₁ c' c :=
  h.imp fun _ h => ⟨h.1, h.2.mono hle' hle⟩

theorem Alike.alive (h : Alike A st' st e' e) (hv : A.config.computeValues = true) :
    st'.Alive e' ∧ st.Alive e := (h.twin hv).alive

/-! ## Slack -/

section Slack

/-- How a run that collects may differ from one that does not. -/
structure Slack where
  /-- The pairs of a procedure and an entry fact to which nothing new happens. -/
  asleep : ProcId → FactId → Prop
  /-- Path edges without values that were dropped. -/
  dropped : List PathEdge
  /-- Whether dropped path edges may be recorded again. -/
  redo : Prop
  /-- How often a path edge can be taken from the queue that was recorded again. -/
  rank : Nat

variable [Ord D] {w : Slack} {s t t' : State D L K}

/-- The path edge was dropped by the run with collection `m`. -/
def Lost (A : Analysis D L K) (m : GcMode) (w : Slack) (t : State D L K) (n : NodeId)
    (a b : FactId) : Prop :=
  (∃ ef, t.paths.get? n a b = some ef) ∧
  (∃ node, t.HasNode n node ∧ Solver.keepAt (A.withGc m) node false = .ok false) ∧
  (A.config.computeValues ≠ true → ⟨n, a, b, .identity⟩ ∈ w.dropped) ∧
  (A.config.computeValues = true → ∃ p, InProc A t n p ∧ w.asleep p a)

theorem Lost.mono {n : NodeId} {a b : FactId} (h : Lost A m w t n a b) (hg : t.Grows t') :
    Lost A m w t' n a b := by
  obtain ⟨⟨ef, hef⟩, ⟨node, hn, hkeep⟩, hplain, hvalues⟩ := h
  refine ⟨hg.paths n a b ef hef, ⟨node, hg.nodes _ _ hn, hkeep⟩, hplain, fun hv => ?_⟩
  obtain ⟨p, hp, hw⟩ := hvalues hv
  exact ⟨p, hp.mono hg, hw⟩

/-- The node of a packed key keeps its results in a run that drops results. -/
def Shown (A : Analysis D L K) (t : State D L K) (key : UInt64) : Prop :=
  ∃ node, t.HasNode ⟨(unpack key).1⟩ node ∧ Solver.keepAt A node true = .ok true

/-- Names have one number, so a key that was shown stays so. -/
theorem Shown.iff_of_le (hle : t.nodes ≤ t'.nodes) {key : UInt64}
    (hmet : ∃ node, t.HasNode ⟨(unpack key).1⟩ node) : Shown A t' key ↔ Shown A t key := by
  obtain ⟨x, hx⟩ := hmet
  have hx' : t'.HasNode ⟨(unpack key).1⟩ x := hle _ _ hx
  constructor
  · rintro ⟨node, hn, hkeep⟩
    obtain rfl := Option.some.inj (hx'.symm.trans hn)
    exact ⟨x, hx, hkeep⟩
  · rintro ⟨node, hn, hkeep⟩
    exact ⟨node, hle _ _ hn, hkeep⟩

theorem Shown.pack_iff {n : NodeId} {d : UInt32} {x : String} (hx : t.HasNode n x) :
    Shown A t (pack n.val d) ↔ Solver.keepAt A x true = .ok true := by
  constructor
  · rintro ⟨y, hy, hkeep⟩
    rw [unpack_pack] at hy
    obtain rfl := Option.some.inj (hx.symm.trans hy)
    exact hkeep
  · intro hkeep
    exact ⟨x, by rw [unpack_pack]; exact hx, hkeep⟩

/-- The path edge lies in a procedure. If the procedure was entered with its source, it may be
collected or the pair is asleep. -/
def Placed (A : Analysis D L K) (w : Slack) (r : Retention) (t : State D L K) (n : NodeId)
    (a b : FactId) : Prop :=
  ∃ node proc p, t.HasNode n node ∧ A.graph.procOf node = .ok proc ∧ t.HasProc p proc ∧
    (A.graph.isStart node = .ok true → a = b → p.index ∈ r.candidates ∨ w.asleep p a)

theorem Placed.mono {r r' : Retention} {n : NodeId} {a b : FactId} (h : Placed A w r t n a b)
    (hn : t.nodes ≤ t'.nodes) (hp : t.procs ≤ t'.procs)
    (hr : ∀ i ∈ r.candidates, i ∈ r'.candidates) : Placed A w r' t' n a b := by
  obtain ⟨node, proc, p, hnode, hproc, hname, hcand⟩ := h
  refine ⟨node, proc, p, hn _ _ hnode, hproc, hp _ _ hname, fun hstart hab => ?_⟩
  exact (hcand hstart hab).imp_left (hr _)

/-- The call leaves a call site. Without values, its label is the identity. -/
def CallPlaced (A : Analysis D L K) (t : State D L K) (c : CallRecord) : Prop :=
  (∃ site, t.HasNode c.site site ∧ A.graph.isCallSite site = .ok true) ∧
    (A.config.computeValues ≠ true → c.edge = .identity)

theorem CallPlaced.mono {c : CallRecord} (h : CallPlaced A t c) (hn : t.nodes ≤ t'.nodes) :
    CallPlaced A t' c :=
  ⟨h.1.imp fun _ => And.imp_left (hn _ _), h.2⟩

/-- How many dropped path edges were not recorded again. -/
def Slack.missing (w : Slack) (s : State D L K) : Nat :=
  w.dropped.countP fun x => (s.paths.get? x.node x.source x.target).isNone

theorem State.get?_withPath {x : PathEdge} {p : ProcId} {reached : Std.TreeSet UInt64}
    (n : NodeId) (a b : FactId) : (s.withPath A x p reached).paths.get? n a b =
      if x.node = n ∧ x.source = a ∧ x.target = b then some x.edge else s.paths.get? n a b :=
  PathTable.get?_insert

theorem Slack.missing_withPath_le {x : PathEdge} {p : ProcId} {reached : Std.TreeSet UInt64} :
    w.missing (s.withPath A x p reached) ≤ w.missing s := by
  refine List.countP_mono_left fun y _ hy => ?_
  rw [State.get?_withPath] at hy
  split at hy
  · cases hy
  · exact hy

/-- A dropped path edge was recorded again. -/
theorem Slack.missing_withPath_lt {x : PathEdge} {p : ProcId} {reached : Std.TreeSet UInt64}
    (hx : x ∈ w.dropped) (hnone : s.paths.get? x.node x.source x.target = none) :
    w.missing (s.withPath A x p reached) + 1 ≤ w.missing s := by
  refine countP_succ_le (fun y hy => ?_) hx (by rw [hnone]; rfl) ?_
  · rw [State.get?_withPath] at hy
    split at hy
    · cases hy
    · exact hy
  · rw [State.get?_withPath, if_pos ⟨rfl, rfl, rfl⟩]
    rfl

/-- The pair of a procedure and an entry fact may be worked on. Without values, dropped path edges
may be recorded again. -/
def Open (A : Analysis D L K) (w : Slack) (p : ProcId) (a : FactId) : Prop :=
  (A.config.computeValues = true → ¬ w.asleep p a) ∧ (A.config.computeValues ≠ true → w.redo)

/-- The node keeps its path edges when its procedure is collected. -/
def Spared (A : Analysis D L K) (m : GcMode) (t : State D L K) (n : NodeId) : Prop :=
  ∃ x, t.HasNode n x ∧ Solver.keepAt (A.withGc m) x false = .ok true

theorem Spared.mono {n : NodeId} (h : Spared A m t n) (hg : t.Grows t') :
    Spared A m t' n := by
  obtain ⟨x, hx, hkeep⟩ := h
  exact ⟨x, hg.nodes _ _ hx, hkeep⟩

/-- Nothing is lost at a node that keeps its path edges. -/
theorem Spared.not_lost {n : NodeId} {a b : FactId} (h : Spared A m t n) :
    ¬ Lost A m w t n a b := by
  rintro ⟨-, ⟨x, hx, hkeep⟩, -⟩
  obtain ⟨y, hy, hkept⟩ := h
  obtain rfl := Option.some.inj (hx.symm.trans hy)
  rw [hkeep] at hkept
  cases hkept

/-- Where path edges may be recorded: nothing was dropped there, or the pair may be worked on. -/
def Writable (A : Analysis D L K) (m : GcMode) (w : Slack) (t : State D L K) (n : NodeId)
    (p : ProcId) (a : FactId) : Prop :=
  Spared A m t n ∨ Open A w p a

theorem Writable.mono {n : NodeId} {p : ProcId} {a : FactId}
    (h : Writable A m w t n p a) (hg : t.Grows t') : Writable A m w t' n p a :=
  h.imp_left fun hk => hk.mono hg

namespace Solver

theorem run_nodeId {x : String} {i : UInt32} {nodes : Interner String}
    (h : s.nodes.intern x = .ok (i, nodes)) : (nodeId x).run s = .ok (⟨i⟩, { s with nodes }) := by
  unfold nodeId
  rw [run_get_seq, run_ok_seq h]
  rfl

theorem run_factId {x : D} {i : UInt32} {facts : Interner D}
    (h : s.facts.intern x = .ok (i, facts)) : (factId x).run s = .ok (⟨i⟩, { s with facts }) := by
  unfold factId
  rw [run_get_seq, run_ok_seq h]
  rfl

theorem run_procId {x : String} {i : UInt32} {procs : Interner String}
    (h : s.procs.intern x = .ok (i, procs)) : (procId x).run s = .ok (⟨i⟩, { s with procs }) := by
  unfold procId
  rw [run_get_seq, run_ok_seq h]
  rfl

/-- What is reported after a fact was, which depends on the node if results are dropped. -/
def Reports (A : Analysis D L K) (x : String) (key : UInt64) (old new : Std.TreeSet UInt64) :
    Prop :=
  ∀ k, new.contains k = true ↔ old.contains k = true ∨
    k = key ∧ (A.config.gcMode.isAggressive = true → keepAt A x true = .ok true)

theorem run_reach (hg : A.graph.Consistent) {n : NodeId} {d : FactId} {x : String}
    (hn : s.HasNode n x) (hx : A.graph.Known x) :
    ∃ reached, (reach A n d).run s = .ok ((), { s with reached }) ∧
      Reports A x (pack n.val d.val) s.reached reached := by
  unfold reach
  rw [run_get_seq]
  split
  · next hmem =>
    refine ⟨s.reached, rfl, fun k => ⟨.inl, ?_⟩⟩
    rintro (hk | ⟨rfl, -⟩)
    · exact hk
    · exact hmem
  · next hnot =>
    have hins : ∀ k, (s.reached.insert (pack n.val d.val)).contains k = true ↔
        s.reached.contains k = true ∨ k = pack n.val d.val := fun k =>
      (contains_insert_iff ..).trans (or_comm.trans (or_congr_right eq_comm))
    split
    · next haggr =>
      obtain ⟨keep, hkeep⟩ := keepAt_total hg hx true
      have hname : (nodeName n : SolverM D L K String).run s = .ok (x, s) := by
        unfold nodeName
        rw [run_get_seq, Interner.get_eq_ok.2 hn]
        rfl
      rw [run_seq hname, run_ok_seq hkeep]
      cases keep with
      | true => exact ⟨_, rfl, fun k => (hins k).trans (by simp [hkeep])⟩
      | false => exact ⟨_, rfl, fun k => by simp [hkeep, haggr]⟩
    · next haggr => exact ⟨_, rfl, fun k => (hins k).trans (by simp [haggr])⟩

end Solver

end Slack

/-! ## Assumptions -/

variable [JoinLattice L] [Payload K L]

/-- What is assumed of an analysis to compare its runs with those that collect. -/
structure Comparable (A : Analysis D L K) : Prop where
  graph : A.graph.Consistent
  mode : A.config.gcMode = .disabled
  seeds : A.config.computeValues = true → A.SeedsAtStarts
  laws : A.config.computeValues = true → LawfulLabels L K
  shared : A.config.computeValues = true → EdgeStore.SharedPayloads L K

theorem Comparable.scope (hA : Comparable A) : Scope A where
  graph := hA.graph
  seeds henabled := by
    rw [hA.mode] at henabled
    cases henabled
  mode := .inl hA.mode
  orders hv := (hA.laws hv).orders

theorem Comparable.valued (hA : Comparable A) (hv : A.config.computeValues = true) : A.Valued :=
  ⟨hv, hA.laws hv⟩

variable [DecidableEq L]

/-- Both stores are in order, if there are values. -/
structure NeatBoth (A : Analysis D L K) (st' st : EdgeStore L K) : Prop where
  left : A.config.computeValues = true → st'.Neat
  right : A.config.computeValues = true → st.Neat

theorem NeatBoth.of_regular (hA : Comparable A) (h' : st'.Regular) (h : st.Regular) :
    NeatBoth A st' st := by
  constructor <;> intro hv
  all_goals
    have := (hA.laws hv).join
    have := (hA.laws hv).payload
    have := hA.shared hv
  · exact h'.neat
  · exact h.neat

theorem Alike.identity (h : NeatBoth A st' st) : Alike A st' st .identity .identity :=
  ⟨fun hv => EdgeStore.twin_identity (h.left hv) (h.right hv), fun _ => rfl⟩

/-- Labels are the same on one side if and only if they are on the other. -/
theorem Alike.eq_iff (h : NeatBoth A st' st) (he : Alike A st' st e' e)
    (hf : Alike A st' st f' f) : e' = f' ↔ e = f := by
  by_cases hv : A.config.computeValues = true
  · constructor
    · rintro rfl
      exact (he.twin hv).unique (h.right hv) (hf.twin hv)
    · rintro rfl
      exact (he.twin hv).unique_left (h.left hv) (hf.twin hv)
  · rw [he.same hv, hf.same hv]

theorem CallAlike.eq_iff (h : NeatBoth A st' st) {c' c d' d : CallRecord}
    (hc : CallAlike A st' st c' c) (hd : CallAlike A st' st d' d) : c' = d' ↔ c = d := by
  obtain ⟨e', rfl, he⟩ := hc
  obtain ⟨f', rfl, hf⟩ := hd
  have hedge := he.eq_iff h hf
  obtain ⟨e, _, _, _, _⟩ := c
  obtain ⟨f, _, _, _, _⟩ := d
  simp only [CallRecord.mk.injEq] at hedge ⊢
  rw [hedge]

/-! ## States -/

variable [Ord D] {w : Slack} {s t s' t' : State D L K}

/-- A state of the run with collection `m` next to one of the run without. -/
structure Mirrors (A : Analysis D L K) (m : GcMode) (w : Slack) (s t : State D L K) : Prop where
  nodes : s.nodes = t.nodes
  facts : s.facts = t.facts
  procs : s.procs = t.procs
  base' : Base (A.withGc m) s
  base : Base A t
  neat : NeatBoth A s.store t.store
  paths : ∀ n a b, Option.Rel (Alike A s.store t.store) (s.paths.get? n a b) (t.paths.get? n a b) ∨
    s.paths.get? n a b = none ∧ Lost A m w t n a b
  order : s.queue.order = t.queue.order
  queue : ∃ j, j + w.missing s ≤ w.rank ∧ Padded (PathAlike A s.store t.store)
    (fun x => w.redo ∧ x ∈ w.dropped) j s.queue.toList t.queue.toList
  reached : ∀ key, s.reached.contains key = true ↔
    t.reached.contains key = true ∧ (m.isAggressive = true → Shown A t key)
  met : ∀ key, t.reached.contains key = true → ∃ node, t.HasNode ⟨(unpack key).1⟩ node
  reported : ∀ n a b ef, t.paths.get? n a b = some ef →
    t.reached.contains (pack n.val b.val) = true
  plain : A.config.computeValues ≠ true → ∀ n a b ef, t.paths.get? n a b = some ef →
    ef = .identity
  summaries : ∀ p e x d, Option.Rel (Alike A s.store t.store) (s.summaries.get? p e x d)
    (t.summaries.get? p e x d)
  records : List.Forall₂ (CallAlike A s.store t.store) s.ledger.records.toList
    t.ledger.records.toList
  ledger' : s.ledger.Wf
  ledger : t.ledger.Wf
  calls : ∀ c ∈ t.ledger.records.toList, CallPlaced A t c
  into : ∀ e p, ∀ c ∈ t.ledger.callsInto e p, c ∈ t.ledger.records.toList ∧ c.callee = p
  waiting : ∀ e p, List.Forall₂ (CallAlike A s.store t.store) (s.ledger.callsInto e p)
    (t.ledger.callsInto e p) ∨ w.asleep p e
  forwarding : ∀ a n, List.Forall₂ (CallAlike A s.store t.store) (s.ledger.callsFrom a n)
    (t.ledger.callsFrom a n)
  placed : ∀ n a b ef, t.paths.get? n a b = some ef → Placed A w s.retention t n a b
  keys : s.callQueue.keys = t.callQueue.keys
  seeds : s.seeds = t.seeds
  stage : s.stage = t.stage

theorem Mirrors.hasNode (h : Mirrors A m w s t) {n : NodeId} {x : String} :
    s.HasNode n x ↔ t.HasNode n x := by rw [State.HasNode, State.HasNode, h.nodes]

theorem Mirrors.hasFact (h : Mirrors A m w s t) {d : FactId} {x : D} :
    s.HasFact d x ↔ t.HasFact d x := by rw [State.HasFact, State.HasFact, h.facts]

theorem Mirrors.hasProc (h : Mirrors A m w s t) {p : ProcId} {x : String} :
    s.HasProc p x ↔ t.HasProc p x := by rw [State.HasProc, State.HasProc, h.procs]

/-- From one pair of states to the next. -/
structure Advances (A : Analysis D L K) (m : GcMode) (w : Slack) (s t s' t' : State D L K) :
    Prop where
  mirrors : Mirrors A m w s' t'
  left : s.Grows s'
  right : t.Grows t'

theorem Advances.refl (h : Mirrors A m w s t) : Advances A m w s t s t := ⟨h, .refl s, .refl t⟩

theorem Advances.trans {s₁ t₁ : State D L K} (h : Advances A m w s t s₁ t₁)
    (k : Advances A m w s₁ t₁ s' t') : Advances A m w s t s' t' :=
  ⟨k.mirrors, h.left.trans k.left, h.right.trans k.right⟩

/-- Neither run changed a table. -/
theorem Mirrors.quiet (h : Mirrors A m w s t) (hq' : Quiet s s') (hq : Quiet t t')
    (hb' : Base (A.withGc m) s') (hb : Base A t') (hnodes : s'.nodes = t'.nodes)
    (hfacts : s'.facts = t'.facts) (hprocs : s'.procs = t'.procs)
    (hneat : NeatBoth A s'.store t'.store) : Mirrors A m w s' t' where
  nodes := hnodes
  facts := hfacts
  procs := hprocs
  base' := hb'
  base := hb
  neat := hneat
  paths n a b := by
    rw [hq'.paths, hq.paths]
    refine (h.paths n a b).imp (fun hrel => ?_) (And.imp_right fun hlost => hlost.mono hq.grows)
    exact rel_imp hrel fun _ _ he => he.mono hq'.store hq.store
  order := by rw [hq'.queue, hq.queue, h.order]
  queue := by
    obtain ⟨j, hj, hpad⟩ := h.queue
    refine ⟨j, ?_, ?_⟩
    · rw [Slack.missing, hq'.paths]
      exact hj
    · rw [hq'.queue, hq.queue]
      exact hpad.imp (fun _ _ _ _ hx => hx.mono hq'.store hq.store) fun _ hx => hx
  reached key := by
    rw [hq'.reached, hq.reached, h.reached]
    exact and_congr_right fun hk => imp_congr_right fun _ =>
      (Shown.iff_of_le hq.nodes (h.met key hk)).symm
  met key hk := (h.met key (hq.reached ▸ hk)).imp fun _ => hq.nodes _ _
  reported := by
    rw [hq.paths, hq.reached]
    exact h.reported
  plain := by
    rw [hq.paths]
    exact h.plain
  summaries p e x d := by
    rw [hq'.summaries, hq.summaries]
    exact rel_imp (h.summaries p e x d) fun _ _ he => he.mono hq'.store hq.store
  records := by
    rw [hq'.ledger, hq.ledger]
    exact h.records.imp fun _ _ hc => hc.mono hq'.store hq.store
  ledger' := hq'.ledger ▸ h.ledger'
  ledger := hq.ledger ▸ h.ledger
  calls c hc := by
    rw [hq.ledger] at hc
    exact (h.calls c hc).mono hq.nodes
  into := hq.ledger ▸ h.into
  waiting e p := by
    rw [hq'.ledger, hq.ledger]
    exact (h.waiting e p).imp_left fun hl => hl.imp fun _ _ hc => hc.mono hq'.store hq.store
  forwarding a n := by
    rw [hq'.ledger, hq.ledger]
    exact (h.forwarding a n).imp fun _ _ hc => hc.mono hq'.store hq.store
  placed n a b ef hef := by
    rw [hq'.retention]
    rw [hq.paths] at hef
    exact (h.placed n a b ef hef).mono hq.nodes hq.procs fun _ hi => hi
  keys := by rw [hq'.callQueue, hq.callQueue, h.keys]
  seeds := by rw [hq'.seeds, hq.seeds, h.seeds]
  stage := by rw [hq'.stage, hq.stage, h.stage]

/-- Functions were stored on both sides. -/
theorem Mirrors.withStore (h : Mirrors A m w s t) {st' st : EdgeStore L K}
    (hst' : st'.Regular) (hst : st.Regular) (hle' : s.store ≤ st') (hle : t.store ≤ st)
    (hjoins' : s.store.KeepsJoins st') (hjoins : t.store.KeepsJoins st)
    (hneat : NeatBoth A st' st) :
    Advances A m w s t { s with store := st' } { t with store := st } := by
  obtain ⟨hb', hq'⟩ := h.base'.withStore hst' hle' hjoins'
  obtain ⟨hb, hq⟩ := h.base.withStore hst hle hjoins
  exact ⟨h.quiet hq' hq hb' hb h.nodes h.facts h.procs hneat, hq'.grows, hq.grows⟩

/-- Counters may change. -/
theorem Mirrors.withStats (h : Mirrors A m w s t) (stats' stats : Stats) :
    Advances A m w s t { s with stats := stats' } { t with stats } :=
  ⟨h.quiet { Quiet.refl s with } { Quiet.refl t with } (h.base'.congr rfl rfl rfl rfl rfl)
    (h.base.congr rfl rfl rfl rfl rfl) h.nodes h.facts h.procs h.neat,
    { State.Grows.refl s with }, { State.Grows.refl t with }⟩

namespace Solver

/-! ## Names -/

theorem nodeId_follows (h : Mirrors A m w s t) (x : String) :
    Follows (nodeId x) s (nodeId x) t fun n' n s' t' =>
      n' = n ∧ t'.HasNode n x ∧ Advances A m w s t s' t' := by
  refine .get_seq ?_
  rw [h.nodes]
  refine .lift_seq fun r hr => ?_
  obtain ⟨i, nodes⟩ := r
  obtain ⟨hb', hq', -⟩ := nodeId_spec h.base' (run_nodeId (h.nodes ▸ hr))
  obtain ⟨hb, hq, hn⟩ := nodeId_spec h.base (run_nodeId hr)
  exact .modify_seq (.pure ⟨rfl, hn, h.quiet hq' hq hb' hb rfl h.facts h.procs h.neat, hq'.grows,
    hq.grows⟩)

theorem factId_follows [Std.TransOrd D] [Std.LawfulEqOrd D] (h : Mirrors A m w s t) (x : D) :
    Follows (factId x) s (factId x) t fun d' d s' t' =>
      d' = d ∧ t'.HasFact d x ∧ Advances A m w s t s' t' := by
  refine .get_seq ?_
  rw [h.facts]
  refine .lift_seq fun r hr => ?_
  obtain ⟨i, facts⟩ := r
  obtain ⟨hb', hq', -⟩ := factId_spec h.base' (run_factId (h.facts ▸ hr))
  obtain ⟨hb, hq, hd⟩ := factId_spec h.base (run_factId hr)
  exact .modify_seq (.pure ⟨rfl, hd, h.quiet hq' hq hb' hb h.nodes rfl h.procs h.neat, hq'.grows,
    hq.grows⟩)

theorem procId_follows (h : Mirrors A m w s t) (x : String) :
    Follows (procId x) s (procId x) t fun p' p s' t' =>
      p' = p ∧ t'.HasProc p x ∧ Advances A m w s t s' t' := by
  refine .get_seq ?_
  rw [h.procs]
  refine .lift_seq fun r hr => ?_
  obtain ⟨i, procs⟩ := r
  obtain ⟨hb', hq', -⟩ := procId_spec h.base' (run_procId (h.procs ▸ hr))
  obtain ⟨hb, hq, hp⟩ := procId_spec h.base (run_procId hr)
  exact .modify_seq (.pure ⟨rfl, hp, h.quiet hq' hq hb' hb h.nodes h.facts rfl h.neat, hq'.grows,
    hq.grows⟩)

theorem nodeName_follows (h : Mirrors A m w s t) (n : NodeId) :
    Follows (nodeName n) s (nodeName n) t fun x' x s' t' =>
      x' = x ∧ t.HasNode n x ∧ s = s' ∧ t = t' := by
  refine .get_seq ?_
  rw [h.nodes]
  exact .lift fun x hx => ⟨rfl, Interner.get_eq_ok.1 hx, rfl, rfl⟩

theorem factOf_follows (h : Mirrors A m w s t) (d : FactId) :
    Follows (factOf d) s (factOf d) t fun x' x s' t' =>
      x' = x ∧ t.HasFact d x ∧ s = s' ∧ t = t' := by
  refine .get_seq ?_
  rw [h.facts]
  exact .lift fun x hx => ⟨rfl, Interner.stored_eq_ok.1 hx, rfl, rfl⟩

theorem procName_follows (h : Mirrors A m w s t) (p : ProcId) :
    Follows (procName p) s (procName p) t fun x' x s' t' =>
      x' = x ∧ t.HasProc p x ∧ s = s' ∧ t = t' := by
  refine .get_seq ?_
  rw [h.procs]
  exact .lift fun x hx => ⟨rfl, Interner.get_eq_ok.1 hx, rfl, rfl⟩

/-! ## Answers -/

theorem askFlow_follows (h : Mirrors A m w s t) {α : Type} {ask : Answers D → α × Answers D} {g : α}
    (hask' : (ask s.answers).1 = g ∧
      AnswersOk (A.withGc m) { s with answers := (ask s.answers).2 })
    (hask : (ask t.answers).1 = g ∧ AnswersOk A { t with answers := (ask t.answers).2 }) :
    Follows (askFlow ask) s (askFlow ask) t fun f' f s' t' =>
      f' = g ∧ f = g ∧ Advances A m w s t s' t' := by
  have hrun' : (askFlow ask).run s =
      .ok ((ask s.answers).1, { s with answers := (ask s.answers).2 }) := rfl
  have hrun : (askFlow ask).run t =
      .ok ((ask t.answers).1, { t with answers := (ask t.answers).2 }) := rfl
  obtain ⟨hb', hq', -⟩ := askFlow_spec h.base' hask' hrun'
  obtain ⟨hb, hq, -⟩ := askFlow_spec h.base hask hrun
  exact .of_ok hrun hrun' ⟨hask'.1, hask.1,
    h.quiet hq' hq hb' hb h.nodes h.facts h.procs h.neat, hq'.grows, hq.grows⟩

theorem targets_follows [DecidableEq D] (h : Mirrors A m w s t) (f : FlowFunction D) (d : D) :
    Follows (targets f d) s (targets f d) t fun ds' ds s' t' =>
      ds' = A.targets f d ∧ ds = A.targets f d ∧ s = s' ∧ t = t' := by
  have hrun' : (targets f d).run s = .ok (s.answers.targets f d, s) := rfl
  have hrun : (targets f d).run t = .ok (t.answers.targets f d, t) := rfl
  exact .of_ok hrun hrun' ⟨(targets_spec h.base' hrun').2, (targets_spec h.base hrun).2, rfl, rfl⟩

/-! ## Stored functions -/

theorem run_compose {a b c : EdgeRef} {st : EdgeStore L K} (h : s.store.compose a b = .ok (c, st)) :
    (compose a b).run s = .ok (c, { s with store := st }) := by
  unfold compose
  rw [run_get_seq, run_ok_seq h]
  rfl

theorem run_joinEdges {a b c : EdgeRef} {st : EdgeStore L K} (h : s.store.join a b = .ok (c, st)) :
    (joinEdges a b).run s = .ok (c, { s with store := st }) := by
  unfold joinEdges
  rw [run_get_seq, run_ok_seq h]
  rfl

theorem compose_follows (hA : Comparable A) (hv : A.config.computeValues = true)
    (h : Mirrors A m w s t) {a' a b' b : EdgeRef} (ha : Alike A s.store t.store a' a)
    (hb : Alike A s.store t.store b' b) :
    Follows (compose a' b') s (compose a b) t fun c' c s' t' =>
      Alike A s'.store t'.store c' c ∧ Advances A m w s t s' t' := by
  obtain ⟨_, _, _, _, _, _⟩ := hA.laws hv
  have := hA.shared hv
  obtain ⟨c', st', c, st, hc', hc, hreg', hle', hreg, hle, htwin⟩ :=
    (ha.twin hv).compose_run h.base'.store h.base.store (hb.twin hv)
  refine .of_ok (run_compose hc) (run_compose hc') ⟨⟨fun _ => htwin, fun hno => absurd hv hno⟩, ?_⟩
  exact h.withStore hreg' hreg hle' hle (EdgeStore.keepsJoins_compose hc')
    (EdgeStore.keepsJoins_compose hc) (.of_regular hA hreg' hreg)

/-- Joins return on both sides. -/
theorem joinEdges_both (hA : Comparable A) (hv : A.config.computeValues = true)
    (h : Mirrors A m w s t) {a' a b' b : EdgeRef} (ha : Alike A s.store t.store a' a)
    (hb : Alike A s.store t.store b' b) :
    ∃ c' c st' st, (joinEdges a' b').run s = .ok (c', { s with store := st' }) ∧
      (joinEdges a b).run t = .ok (c, { t with store := st }) ∧ Alike A st' st c' c ∧
      Advances A m w s t { s with store := st' } { t with store := st } := by
  obtain ⟨_, _, _, _, _, _⟩ := hA.laws hv
  have := hA.shared hv
  have hlimit : s.store.joinLimit = t.store.joinLimit :=
    h.base'.joinLimit.trans h.base.joinLimit.symm
  obtain ⟨c', st', c, st, hc', hc, hreg', hle', hreg, hle, htwin⟩ :=
    (ha.twin hv).join_run h.base'.store h.base.store hlimit (hb.twin hv)
  refine ⟨c', c, st', st, run_joinEdges hc', run_joinEdges hc,
    ⟨fun _ => htwin, fun hno => absurd hv hno⟩, ?_⟩
  exact h.withStore hreg' hreg hle' hle (EdgeStore.keepsJoins_join hc').1
    (EdgeStore.keepsJoins_join hc).1 (.of_regular hA hreg' hreg)

theorem joinEdges_follows (hA : Comparable A) (hv : A.config.computeValues = true)
    (h : Mirrors A m w s t) {a' a b' b : EdgeRef} (ha : Alike A s.store t.store a' a)
    (hb : Alike A s.store t.store b' b) :
    Follows (joinEdges a' b') s (joinEdges a b) t fun c' c s' t' =>
      Alike A s'.store t'.store c' c ∧ Advances A m w s t s' t' := by
  obtain ⟨c', c, st', st, hrun', hrun, hc, hadv⟩ := joinEdges_both hA hv h ha hb
  exact .of_ok hrun hrun' ⟨hc, hadv⟩

theorem askEdge_follows (hA : Comparable A) (hv : A.config.computeValues = true)
    (h : Mirrors A m w s t)
    {ask : Answers D → EdgeStore L K → EdgeRef × Answers D × EdgeStore L K}
    {e : EdgeFunction L K} (hask' : Asks (A.withGc m) ask e s) (hask : Asks A ask e t) :
    Follows (askEdge ask) s (askEdge ask) t fun c' c s' t' =>
      Alike A s'.store t'.store c' c ∧ Advances A m w s t s' t' := by
  obtain ⟨_, _, _, _, _, _⟩ := hA.laws hv
  have := hA.shared hv
  refine .of_ok rfl rfl ?_
  obtain ⟨-, hle', hat', hans'⟩ := hask' _ _ _ rfl
  obtain ⟨-, hle, hat, hans⟩ := hask _ _ _ rfl
  obtain ⟨hst', hjoins'⟩ := hask'.store h.base'.store
  obtain ⟨hst, hjoins⟩ := hask.store h.base.store
  have hneat := NeatBoth.of_regular hA hst' hst
  refine ⟨⟨fun _ => hat'.twin (hneat.left hv) (hneat.right hv) hat, fun hno => absurd hv hno⟩, ?_⟩
  have hq' : Quiet s { s with
      answers := (ask s.answers s.store).2.1, store := (ask s.answers s.store).2.2 } :=
    { Quiet.refl s with store := hle', joins := hjoins' }
  have hq : Quiet t { t with
      answers := (ask t.answers t.store).2.1, store := (ask t.answers t.store).2.2 } :=
    { Quiet.refl t with store := hle, joins := hjoins }
  exact ⟨h.quiet hq' hq
    { h.base' with answers := hans', store := hst', joinLimit := hle'.2.1.trans h.base'.joinLimit }
    { h.base with answers := hans, store := hst, joinLimit := hle.2.1.trans h.base.joinLimit }
    h.nodes h.facts h.procs hneat, hq'.grows, hq.grows⟩

/-- Asking gives the function `e` on both sides. -/
structure AsksBoth (A : Analysis D L K) (m : GcMode)
    (ask : Answers D → EdgeStore L K → EdgeRef × Answers D × EdgeStore L K)
    (e : EdgeFunction L K) (s t : State D L K) : Prop where
  left : Asks (A.withGc m) ask e s
  right : Asks A ask e t

theorem composeWith_follows (hA : Comparable A) (h : Mirrors A m w s t) {a' a : EdgeRef}
    (ha : Alike A s.store t.store a' a)
    {ask : Answers D → EdgeStore L K → EdgeRef × Answers D × EdgeStore L K}
    {e : EdgeFunction L K} (hask : A.config.computeValues = true → AsksBoth A m ask e s t) :
    Follows (composeWith (A.withGc m) a' ask) s (composeWith A a ask) t fun c' c s' t' =>
      Alike A s'.store t'.store c' c ∧ Advances A m w s t s' t' ∧
        (A.config.computeValues ≠ true → c = .identity) := by
  unfold composeWith
  by_cases hv : A.config.computeValues = true
  · rw [if_pos hv, if_pos (show (A.withGc m).config.computeValues = true from hv)]
    refine (askEdge_follows hA hv h (hask hv).left (hask hv).right).seq ?_
    rintro b' b s₁ t₁ ⟨hb, hadv⟩
    refine (compose_follows hA hv hadv.mirrors (ha.mono hadv.left.store hadv.right.store) hb).imp ?_
    exact fun c' c s' t' ⟨hc, hadv'⟩ => ⟨hc, hadv.trans hadv', fun hno => absurd hv hno⟩
  · rw [if_neg hv, if_neg (show ¬ (A.withGc m).config.computeValues = true from hv)]
    exact .pure ⟨.identity h.neat, .refl h, fun _ => rfl⟩

theorem composeReturn_follows (hA : Comparable A) (h : Mirrors A m w s t) {a' a b' b : EdgeRef}
    (ha : Alike A s.store t.store a' a) (hb : Alike A s.store t.store b' b)
    {ask : Answers D → EdgeStore L K → EdgeRef × Answers D × EdgeStore L K}
    {e : EdgeFunction L K} (hask : A.config.computeValues = true → AsksBoth A m ask e s t) :
    Follows (composeReturn (A.withGc m) a' b' ask) s (composeReturn A a b ask) t fun c' c s' t' =>
      Alike A s'.store t'.store c' c ∧ Advances A m w s t s' t' := by
  unfold composeReturn
  by_cases hv : A.config.computeValues = true
  · rw [if_pos hv, if_pos (show (A.withGc m).config.computeValues = true from hv)]
    refine (askEdge_follows hA hv h (hask hv).left (hask hv).right).seq ?_
    rintro back' back s₁ t₁ ⟨hback, hadv⟩
    refine (compose_follows hA hv hadv.mirrors (ha.mono hadv.left.store hadv.right.store)
      (hb.mono hadv.left.store hadv.right.store)).seq ?_
    rintro c' c s₂ t₂ ⟨hc, hadv₂⟩
    refine (compose_follows hA hv hadv₂.mirrors hc
      (hback.mono hadv₂.left.store hadv₂.right.store)).imp ?_
    exact fun _ _ _ _ ⟨hd, hadv₃⟩ => ⟨hd, (hadv.trans hadv₂).trans hadv₃⟩
  · rw [if_neg hv, if_neg (show ¬ (A.withGc m).config.computeValues = true from hv)]
    exact .pure ⟨.identity h.neat, .refl h⟩

/-- Labels are merged with the same outcome. -/
theorem merge_both (hA : Comparable A) (h : Mirrors A m w s t) {o' o : Option EdgeRef}
    {e' e : EdgeRef} (ho : Option.Rel (Alike A s.store t.store) o' o)
    (he : Alike A s.store t.store e' e) :
    ∃ r' r st' st, (merge (A.withGc m) o' e').run s = .ok (r', { s with store := st' }) ∧
      (merge A o e).run t = .ok (r, { t with store := st }) ∧ Option.Rel (Alike A st' st) r' r ∧
      Advances A m w s t { s with store := st' } { t with store := st } := by
  cases ho with
  | none => exact ⟨some e', some e, s.store, t.store, rfl, rfl, .some he, .refl h⟩
  | @some o' o ho =>
    unfold merge
    dsimp only
    by_cases hv : A.config.computeValues = true
    · rw [if_pos hv, if_pos (show (A.withGc m).config.computeValues = true from hv)]
      obtain ⟨c', c, st', st, hrun', hrun, hc, hadv⟩ := joinEdges_both hA hv h ho he
      rw [run_seq hrun', run_seq hrun]
      refine ⟨_, _, st', st, rfl, rfl, ?_, hadv⟩
      have hiff := hc.eq_iff hadv.mirrors.neat (ho.mono hadv.left.store hadv.right.store)
      by_cases heq : c = o
      · rw [if_pos heq, if_pos (hiff.2 heq)]
        exact .none
      · rw [if_neg heq, if_neg (mt hiff.1 heq)]
        exact .some hc
    · rw [if_neg hv, if_neg (show ¬ (A.withGc m).config.computeValues = true from hv)]
      exact ⟨none, none, s.store, t.store, rfl, rfl, .none, .refl h⟩

/-- Without values, only the identity is stored. -/
theorem merge_plain (hv : A.config.computeValues ≠ true) {o : Option EdgeRef} {e c : EdgeRef}
    {s' : State D L K} (h : (merge A o (if A.config.computeValues then e else .identity)).run s =
      .ok (some c, s')) : c = .identity := by
  rw [if_neg hv] at h
  cases o with
  | none => exact (Option.some.inj (run_pure_ok h).1).symm
  | some o =>
    rw [merge, if_neg hv] at h
    cases (run_pure_ok h).1

/-! ## Recording -/

theorem run_record_none {n : NodeId} {a b : FactId} {p : ProcId} {ef : EdgeRef} {s₁ : State D L K}
    (hmerge : (merge A (s.paths.get? n a b)
      (if A.config.computeValues then ef else .identity)).run s = .ok (none, s₁)) :
    (record A n a b p ef).run s = .ok ((), s₁) := by
  unfold record
  rw [run_get_seq, run_seq hmerge]
  rfl

theorem run_record_some (hg : A.graph.Consistent) {n : NodeId} {a b : FactId} {p : ProcId}
    {ef e : EdgeRef} {x : String} {st : EdgeStore L K} (hn : s.HasNode n x) (hx : A.graph.Known x)
    (hmerge : (merge A (s.paths.get? n a b)
      (if A.config.computeValues then ef else .identity)).run s =
        .ok (some e, { s with store := st })) :
    ∃ reached, (record A n a b p ef).run s =
        .ok ((), State.withPath A ⟨n, a, b, e⟩ p reached { s with store := st }) ∧
      (s.paths.get? n a b = none → Reports A x (pack n.val b.val) s.reached reached) ∧
      (s.paths.get? n a b ≠ none → reached = s.reached) := by
  have hend : ∀ u : State D L K, StateT.run (do
      modify fun s => { s with
        stats := s.stats.pathEdgeStored s.alive
        queue := s.queue.push ⟨n, a, b, e⟩ }
      if A.config.gcMode.isEnabled then
        modify fun s => { s with retention := s.retention.retain p } : SolverM D L K Unit) u =
      .ok ((), { u with
        stats := u.stats.pathEdgeStored u.alive
        queue := u.queue.push ⟨n, a, b, e⟩
        retention :=
          if A.config.gcMode.isEnabled then u.retention.retain p else u.retention }) := by
    intro u
    split <;> rfl
  unfold record
  rw [run_get_seq, run_seq hmerge]
  unfold State.withPath
  dsimp only
  cases hold : s.paths.get? n a b with
  | none =>
    obtain ⟨reached, hreach, hreports⟩ := run_reach (s := { s with
      store := st
      paths := (s.paths.insert n a b e).2
      alive := s.alive + 1 }) (d := b) hg hn hx
    refine ⟨reached, ?_, fun _ => hreports, fun hne => absurd rfl hne⟩
    rw [run_modify_seq, if_pos Option.isNone_none, run_modify_seq, run_seq hreach, hend]
    rfl
  | some old =>
    refine ⟨s.reached, ?_, fun hnone => (by cases hnone), fun _ => rfl⟩
    rw [run_modify_seq, if_neg (by simp), hend]
    rfl

end Solver

/-- A path edge was stored on both sides. -/
theorem Mirrors.withPaths (h : Mirrors A m w s t) (hm : m.isEnabled = true)
    (hmode : A.config.gcMode = .disabled) {n : NodeId} {a b : FactId} {p : ProcId}
    {e' e : EdgeRef} {x proc : String} (hx : t.HasNode n x) (hproc : A.graph.procOf x = .ok proc)
    (hp : t.HasProc p proc) (he : Alike A s.store t.store e' e)
    (hplain : A.config.computeValues ≠ true → e = .identity)
    (hold : Option.Rel (Alike A s.store t.store) (s.paths.get? n a b) (t.paths.get? n a b))
    {r' r : Std.TreeSet UInt64}
    (hr' : (s.paths.get? n a b = none →
        Solver.Reports (A.withGc m) x (pack n.val b.val) s.reached r') ∧
      (s.paths.get? n a b ≠ none → r' = s.reached))
    (hr : (t.paths.get? n a b = none → Solver.Reports A x (pack n.val b.val) t.reached r) ∧
      (t.paths.get? n a b ≠ none → r = t.reached)) :
    Mirrors A m w (s.withPath (A.withGc m) ⟨n, a, b, e'⟩ p r') (t.withPath A ⟨n, a, b, e⟩ p r) := by
  have hg : t.Grows (t.withPath A ⟨n, a, b, e⟩ p r) := State.grows_withPath
  have hcand : ∀ i ∈ s.retention.candidates,
      i ∈ (s.withPath (A.withGc m) ⟨n, a, b, e'⟩ p r').retention.candidates := fun i hi => by
    show i ∈ (if m.isEnabled then s.retention.retain p else s.retention).candidates
    rw [if_pos hm]
    exact Retention.mem_candidates_retain.2 (.inr hi)
  -- What is reported on both sides.
  have hreached : ∀ k, (r'.contains k = true ↔ r.contains k = true ∧
      (m.isAggressive = true → Shown A t k)) ∧
      (r.contains k = true → k = pack n.val b.val ∨ t.reached.contains k = true) ∧
      (t.reached.contains k = true → r.contains k = true) ∧
        r.contains (pack n.val b.val) = true := by
    intro k
    generalize s.paths.get? n a b = o' at hold hr'
    cases hold' : t.paths.get? n a b with
    | none =>
      rw [hold'] at hold hr
      cases hold
      have hk' := hr'.1 rfl k
      have hk := hr.1 rfl
      have hoff : A.config.gcMode.isAggressive = true → Solver.keepAt A x true = .ok true := by
        rw [hmode]
        nofun
      refine ⟨?_, fun hin => ?_, fun hin => (hk k).2 (.inl hin), (hk _).2 (.inr ⟨rfl, hoff⟩)⟩
      · have hkeep : m.isAggressive = true → (Solver.keepAt (A.withGc m) x true = .ok true ↔
            Shown A t (pack n.val b.val)) := fun _ => (Shown.pack_iff hx).symm
        rw [hk', hk, h.reached, or_and_right]
        refine or_congr_right ?_
        rw [and_iff_left hoff]
        refine and_congr_right fun hkey => ?_
        rw [hkey]
        exact forall_congr' hkeep
      · exact ((hk k).1 hin).elim .inr fun h => .inl h.1
    | some o =>
      rw [hold'] at hold hr
      cases hold
      obtain rfl := hr'.2 nofun
      obtain rfl := hr.2 nofun
      exact ⟨h.reached k, .inr, id, h.reported n a b o hold'⟩
  exact { h with
    base' := h.base'.congr rfl rfl rfl rfl rfl
    base := h.base.congr rfl rfl rfl rfl rfl
    paths := by
      intro n' a' b'
      rw [State.get?_withPath, State.get?_withPath]
      by_cases hkey : n = n' ∧ a = a' ∧ b = b'
      · rw [if_pos hkey, if_pos hkey]
        exact .inl (.some he)
      · rw [if_neg hkey, if_neg hkey]
        exact (h.paths n' a' b').imp_right (And.imp_right fun hlost => hlost.mono hg)
    order := h.order
    queue := by
      obtain ⟨j, hj, hpad⟩ := h.queue
      refine ⟨j, Nat.le_trans (Nat.add_le_add_left Slack.missing_withPath_le j) hj, ?_⟩
      show Padded _ _ j (s.queue.push _).toList (t.queue.push _).toList
      rw [Worklist.toList_push, Worklist.toList_push]
      exact hpad.push ⟨e', rfl, he⟩
    reached := fun k => (hreached k).1
    met := by
      intro k hk
      rcases (hreached k).2.1 hk with rfl | hk
      · exact ⟨x, by rw [unpack_pack]; exact hx⟩
      · exact h.met k hk
    reported := by
      intro n' a' b' ef hef
      rw [State.get?_withPath] at hef
      split at hef
      · next hkey =>
        obtain ⟨rfl, rfl, rfl⟩ := hkey
        exact (hreached 0).2.2.2
      · exact (hreached _).2.2.1 (h.reported n' a' b' ef hef)
    plain := by
      intro hv n' a' b' ef hef
      rw [State.get?_withPath] at hef
      split at hef
      · exact (Option.some.inj hef).symm.trans (hplain hv)
      · exact h.plain hv n' a' b' ef hef
    placed := by
      intro n' a' b' ef hef
      rw [State.get?_withPath] at hef
      split at hef
      · next hkey =>
        obtain ⟨rfl, rfl, rfl⟩ := hkey
        refine ⟨x, proc, p, hx, hproc, hp, fun _ _ => .inl ?_⟩
        show p.index ∈ (if m.isEnabled then s.retention.retain p else s.retention).candidates
        rw [if_pos hm]
        exact Retention.mem_candidates_retain.2 (.inl rfl)
      · exact (h.placed n' a' b' ef hef).mono (Interner.le_refl _) (Interner.le_refl _) hcand }

/-- A path edge that was dropped is stored again. -/
theorem Mirrors.redoPath (h : Mirrors A m w s t) (hm : m.isEnabled = true)
    (hv : A.config.computeValues ≠ true) (hredo : w.redo) {n : NodeId} {a b : FactId}
    {p : ProcId} {x : String} (hx : t.HasNode n x) (hnone : s.paths.get? n a b = none)
    (hlost : Lost A m w t n a b) {r' : Std.TreeSet UInt64}
    (hr' : Solver.Reports (A.withGc m) x (pack n.val b.val) s.reached r') :
    Mirrors A m w (s.withPath (A.withGc m) ⟨n, a, b, .identity⟩ p r') t := by
  obtain ⟨⟨ef, hef⟩, -, hdropped, -⟩ := hlost
  have hdropped := hdropped hv
  obtain rfl := h.plain hv n a b ef hef
  exact { h with
    base' := h.base'.congr rfl rfl rfl rfl rfl
    paths := by
      intro n' a' b'
      rw [State.get?_withPath]
      split
      · next hkey =>
        obtain ⟨rfl, rfl, rfl⟩ := hkey
        rw [hef]
        exact .inl (.some (.identity h.neat))
      · exact h.paths n' a' b'
    order := h.order
    queue := by
      obtain ⟨j, hj, hpad⟩ := h.queue
      have hlt : w.missing (s.withPath (A.withGc m) ⟨n, a, b, .identity⟩ p r') + 1 ≤ w.missing s :=
        Slack.missing_withPath_lt hdropped hnone
      refine ⟨j + 1, by omega, ?_⟩
      show Padded _ _ (j + 1) (s.queue.push _).toList t.queue.toList
      rw [Worklist.toList_push]
      exact hpad.push_pad ⟨hredo, hdropped⟩
    reached := by
      intro k
      refine (hr' k).trans ?_
      rw [h.reached]
      refine ⟨fun hk => hk.elim id ?_, .inl⟩
      rintro ⟨rfl, hkeep⟩
      exact ⟨h.reported n a b _ hef, fun haggr => (Shown.pack_iff hx).2 (hkeep haggr)⟩
    placed := by
      intro n' a' b' ef' hef'
      refine (h.placed n' a' b' ef' hef').mono (Interner.le_refl _) (Interner.le_refl _)
        fun i hi => ?_
      show i ∈ (if m.isEnabled then s.retention.retain p else s.retention).candidates
      rw [if_pos hm]
      exact Retention.mem_candidates_retain.2 (.inr hi) }

/-- A path edge that may be recorded was lost only if it may be recorded again. -/
theorem Writable.of_lost (hb : Base A t) {n : NodeId} {p : ProcId} {a b : FactId}
    (h : Writable A m w t n p a) (hp : InProc A t n p) (hlost : Lost A m w t n a b) :
    A.config.computeValues ≠ true ∧ w.redo := by
  rcases h with hkept | ⟨hawake, hredo⟩
  · exact absurd hlost hkept.not_lost
  · obtain ⟨-, -, -, hasleep⟩ := hlost
    have hv : A.config.computeValues ≠ true := fun hv => by
      obtain ⟨q, hq, hw⟩ := hasleep hv
      obtain rfl := hp.unique hb.procs hq
      exact hawake hv hw
    exact ⟨hv, hredo hv⟩

namespace Solver

theorem record_follows (hA : Comparable A) (hm : m.isEnabled = true) (h : Mirrors A m w s t)
    {n : NodeId} {a b : FactId} {p : ProcId} {e' e : EdgeRef} (hp : InProc A t n p)
    (hopen : Writable A m w t n p a) (he : Alike A s.store t.store e' e) :
    Follows (record (A.withGc m) n a b p e') s (record A n a b p e) t fun _ _ s' t' =>
      Advances A m w s t s' t' := by
  have hp' := hp
  obtain ⟨x, proc, hx, hproc, hname⟩ := hp
  have hknown : A.graph.Known x := Supergraph.known_of_procOf hproc
  have hlabel : Alike A s.store t.store
      (if (A.withGc m).config.computeValues then e' else .identity)
      (if A.config.computeValues then e else .identity) := by
    by_cases hv : A.config.computeValues = true
    · rw [if_pos hv, if_pos (show (A.withGc m).config.computeValues = true from hv)]
      exact he
    · rw [if_neg hv, if_neg (show ¬ (A.withGc m).config.computeValues = true from hv)]
      exact .identity h.neat
  rcases h.paths n a b with hrel | ⟨hnone, hlost⟩
  · obtain ⟨r', r, st', st, hmerge', hmerge, hr, hadv⟩ := merge_both hA h hrel hlabel
    cases hr with
    | none => exact .of_ok (run_record_none hmerge) (run_record_none hmerge') hadv
    | @some c' c hc =>
      obtain ⟨reached', hrun', hreports'⟩ := run_record_some (A := A.withGc m) (p := p) hA.graph
        (h.hasNode.2 hx) hknown hmerge'
      obtain ⟨reached, hrun, hreports⟩ := run_record_some (p := p) hA.graph hx hknown hmerge
      refine .of_ok hrun hrun' ⟨?_, hadv.left.trans State.grows_withPath,
        hadv.right.trans State.grows_withPath⟩
      refine hadv.mirrors.withPaths hm hA.mode hx hproc hname hc (fun hv => ?_) ?_
        hreports' hreports
      · exact merge_plain hv hmerge
      · exact rel_imp hrel fun _ _ ho => ho.mono hadv.left.store hadv.right.store
  · -- The run without collection has the path edge and drops it again.
    obtain ⟨hv, hredo⟩ := hopen.of_lost h.base hp' hlost
    have hmerge : (merge A (t.paths.get? n a b)
        (if A.config.computeValues then e else .identity)).run t = .ok (none, t) := by
      obtain ⟨⟨ef, hef⟩, -⟩ := hlost
      rw [hef, merge, if_neg hv]
      rfl
    have hmerge' : (merge (A.withGc m) (s.paths.get? n a b)
        (if (A.withGc m).config.computeValues then e' else .identity)).run s =
          .ok (some .identity, { s with store := s.store }) := by
      rw [hnone, if_neg (show ¬ (A.withGc m).config.computeValues = true from hv)]
      rfl
    obtain ⟨reached', hrun', hreports, -⟩ := run_record_some (A := A.withGc m) (p := p) hA.graph
      (h.hasNode.2 hx) hknown hmerge'
    exact .of_ok (run_record_none hmerge) hrun' ⟨h.redoPath hm hv hredo hx hnone hlost
      (hreports hnone), State.grows_withPath, .refl _⟩

end Solver

end Tabulation
