import Tabulation.Proofs.Solver.Answers
import Tabulation.Proofs.Solver.Labels
import Tabulation.Proofs.CallLedger
import Tabulation.Proofs.Retention
import Tabulation.Solver.Facts

/-!
# What holds throughout fact propagation

The tables of a run speak about numbers, the exploded supergraph about names. `Inv` says that
everything in the tables makes sense: numbers stand for names, remembered answers are those of the
client, a path edge lies in a procedure that was entered with its source, a summary leaves through
an exit point, and a recorded call follows a path edge at its call site.

**Exactness.** Where a run is `Precise`, labels are exact: every path edge stands for paths at the
level of its procedure. Where path edges have one edge function each, this is their label,
`Spelled`.

**Growth.** `Grows s s'` says that names, stored functions and path edges stay, which is all that
most facts of this module need to stay true.

**Labels.** The label of a queued path edge may be out of date, and so may that of a summary, but
the table of path edges covers both, `Tabled` and `Backed`. Only a summary that was widened may be
above its path edge.
-/

namespace Tabulation

variable {D L K : Type} [Ord L] [Ord K]

/-! ## Settings -/

section Setting

variable [JoinLattice L] [Payload K L] {A : Analysis D L K}

/-- What is assumed of an analysis while facts are propagated: its graph is consistent, no path
edges are dropped, and stored functions can be found again. Only collection needs seeds at start
points and values that obey the laws. -/
structure Scope (A : Analysis D L K) : Prop where
  graph : A.graph.Consistent
  seeds : A.config.gcMode.isEnabled = true → A.SeedsAtStarts
  mode : A.config.gcMode = .disabled ∨ A.config.gcMode = .enabled ∧ A.Valued
  orders : A.config.computeValues = true → LawfulOrders L K

/-- What is assumed of an analysis: its graph is consistent, no path edges are dropped, and if there
are values, seeds are at start points and values obey the laws. -/
structure Setting (A : Analysis D L K) : Prop where
  graph : A.graph.Consistent
  seeds : A.config.computeValues = true → A.SeedsAtStarts
  mode : A.config.gcMode = .disabled ∨
    A.config.gcMode = .enabled ∧ A.config.computeValues = true
  laws : A.config.computeValues = true → LawfulLabels L K

theorem Setting.valued (hA : Setting A) (hv : A.config.computeValues = true) : A.Valued :=
  ⟨hv, hA.laws hv⟩

theorem Setting.join (hA : Setting A) (hv : A.config.computeValues = true) : LawfulJoin L :=
  (hA.laws hv).join

theorem Setting.scope (hA : Setting A) : Scope A where
  graph := hA.graph
  seeds hgc := by
    rcases hA.mode with hmode | ⟨-, hv⟩
    · rw [hmode] at hgc
      cases hgc
    · exact hA.seeds hv
  mode := hA.mode.imp_right fun ⟨hmode, hv⟩ => ⟨hmode, hA.valued hv⟩
  orders hv := (hA.laws hv).orders

theorem Scope.not_aggressive (hA : Scope A) : A.config.gcMode.isAggressive = false := by
  rcases hA.mode with h | ⟨h, -⟩ <;> rw [h] <;> rfl

theorem Scope.valued_of_isEnabled (hA : Scope A) (hgc : A.config.gcMode.isEnabled = true) :
    A.Valued := by
  refine (hA.mode.resolve_left fun hmode => ?_).2
  rw [hmode] at hgc
  cases hgc

end Setting

/-! ## Names -/

variable [Ord D]

namespace State

/-- There is a path edge, by names. -/
def HasPath (s : State D L K) (node : String) (source target : D) : Prop :=
  ∃ n a b ef, s.HasNode n node ∧ s.HasFact a source ∧ s.HasFact b target ∧
    s.paths.get? n a b = some ef

/-- Names, stored functions, remembered joins and path edges stay. -/
structure Grows (s s' : State D L K) : Prop where
  nodes : s.nodes ≤ s'.nodes
  facts : s.facts ≤ s'.facts
  procs : s.procs ≤ s'.procs
  store : s.store ≤ s'.store
  joins : s.store.KeepsJoins s'.store
  paths : ∀ n a b ef, s.paths.get? n a b = some ef → ∃ ef', s'.paths.get? n a b = some ef'

theorem Grows.refl (s : State D L K) : s.Grows s :=
  ⟨Interner.le_refl _, Interner.le_refl _, Interner.le_refl _, EdgeStore.le_refl _, .refl _,
    fun _ _ _ ef h => ⟨ef, h⟩⟩

theorem Grows.trans {s t u : State D L K} (h : s.Grows t) (k : t.Grows u) : s.Grows u :=
  ⟨Interner.le_trans h.nodes k.nodes, Interner.le_trans h.facts k.facts,
    Interner.le_trans h.procs k.procs, EdgeStore.le_trans h.store k.store, h.joins.trans k.joins,
    fun n a b ef hef => (h.paths n a b ef hef).elim (k.paths n a b)⟩

theorem HasPath.mono {s s' : State D L K} {node : String} {a b : D} (h : s.HasPath node a b)
    (hg : s.Grows s') : s'.HasPath node a b := by
  obtain ⟨n, i, j, ef, hn, hi, hj, hef⟩ := h
  obtain ⟨ef', hef'⟩ := hg.paths n i j ef hef
  exact ⟨n, i, j, ef', hg.nodes _ _ hn, hg.facts _ _ hi, hg.facts _ _ hj, hef'⟩

end State

/-- The number of the procedure of a node. -/
def InProc (A : Analysis D L K) (s : State D L K) (n : NodeId) (p : ProcId) : Prop :=
  ∃ node proc, s.HasNode n node ∧ A.graph.procOf node = .ok proc ∧ s.HasProc p proc

section InProc

variable {A : Analysis D L K} {s s' : State D L K} {n : NodeId} {p : ProcId}

theorem InProc.mono (h : InProc A s n p) (hg : s.Grows s') : InProc A s' n p := by
  obtain ⟨node, proc, hn, hproc, hp⟩ := h
  exact ⟨node, proc, hg.nodes _ _ hn, hproc, hg.procs _ _ hp⟩

theorem InProc.unique (hs : s.procs.Wf) {q : ProcId} (hp : InProc A s n p) (hq : InProc A s n q) :
    p = q := by
  obtain ⟨node, proc, hn, hproc, hp⟩ := hp
  obtain ⟨node', proc', hn', hproc', hq⟩ := hq
  obtain rfl := Option.some.inj (hn.symm.trans hn')
  obtain rfl := Except.ok.inj (hproc.symm.trans hproc')
  exact congrArg ProcId.mk (Interner.get?_inj hs hp hq)

theorem InProc.hasNode (h : InProc A s n p) : ∃ y, s.HasNode n y := h.imp fun _ ⟨_, hn, _⟩ => hn

theorem InProc.hasProc (h : InProc A s n p) : ∃ y, s.HasProc p y := by
  obtain ⟨_, proc, _, _, hp⟩ := h
  exact ⟨proc, hp⟩

end InProc

section Entered

variable [DecidableEq D]

/-- A procedure was entered with a fact: by a seed, or by a call at a path edge. -/
inductive Entered (A : Analysis D L K) (s : State D L K) : String → D → Prop
  | seed {p n : String} {a : D} {u : L} : (n, a, u) ∈ A.problem.seeds.toList →
      A.graph.procOf n = .ok p → Entered A s p a
  | call {p q site sp : String} {a b c : D} {e : EdgeFunction L K} : Entered A s p a →
      A.graph.procOf site = .ok p → s.HasPath site a b → A.Enter site b q c e →
      A.graph.StartOf q sp → Entered A s q c

theorem Entered.imp {A : Analysis D L K} {s s' : State D L K} {p : String} {a : D}
    (h : Entered A s p a) (himp : ∀ n a b, s.HasPath n a b → s'.HasPath n a b) :
    Entered A s' p a := by
  induction h with
  | seed hseed hs => exact .seed hseed hs
  | call _ hp hpath he hs ih => exact .call ih hp (himp _ _ _ hpath) he hs

theorem Entered.mono {A : Analysis D L K} {s s' : State D L K} {p : String} {a : D}
    (h : Entered A s p a) (hg : s.Grows s') : Entered A s' p a :=
  h.imp fun _ _ _ hpath => hpath.mono hg

end Entered

variable [JoinLattice L] [Payload K L]

/-- Labels are kept exact: paths begin at start points, no summary leaves through a call site and,
if values are computed, edges distribute and no join was widened. -/
structure Precise (A : Analysis D L K) (s : State D L K) : Prop where
  seeds : A.SeedsAtStarts
  exits : A.Sealed
  values : A.config.computeValues = true →
    A.Distributive ∧ A.config.gcMode = .disabled ∧ s.store.Unwidened

theorem Precise.of_grows {A : Analysis D L K} {s s' : State D L K} (h : Precise A s')
    (hg : s.Grows s') : Precise A s where
  seeds := h.seeds
  exits := h.exits
  values hv := by
    obtain ⟨hd, hgc, hfits⟩ := h.values hv
    exact ⟨hd, hgc, hfits.of_le hg.store hg.joins⟩

/-! ## Labels of two states -/

/-- The second label covers what the first one stands for. -/
def LabelLe (A : Analysis D L K) (s s' : State D L K) (ef ef' : EdgeRef) : Prop :=
  A.Valued → ∀ ψ, s.store.Means ef ψ → ∃ ψ', s'.store.Means ef' ψ' ∧ ∀ v, Below (ψ v) (ψ' v)

/-- The table has the path edge, with a label that covers its own. -/
def Tabled (A : Analysis D L K) (s : State D L K) (x : PathEdge) : Prop :=
  ∃ ef, s.paths.get? x.node x.source x.target = some ef ∧ LabelLe A s s x.edge ef

/-- The label stands for bottom, which takes more stored functions than a join may have parts. -/
def Widened (A : Analysis D L K) (s : State D L K) (ef : EdgeRef) : Prop :=
  (∀ ψ, s.store.Means ef ψ → ∀ v, ψ v = bottom) ∧
    (A.config.gcMode = .disabled → A.config.joinLimit ≤ s.store.interned)

/-- The path edge at the exit point covers its summary, unless that was widened. -/
def Backed (A : Analysis D L K) (s : State D L K) (x : PathEdge) : Prop :=
  A.Valued → Tabled A s x ∨ Widened A s x.edge

section Labels

variable {A : Analysis D L K} {s t u : State D L K}

theorem LabelLe.trans {e f g : EdgeRef} (h : LabelLe A s t e f) (k : LabelLe A t u f g) :
    LabelLe A s u e g := by
  intro hv ψ hψ
  have := hv.2.join
  obtain ⟨ψ₁, hψ₁, hle₁⟩ := h hv ψ hψ
  obtain ⟨ψ₂, hψ₂, hle₂⟩ := k hv ψ₁ hψ₁
  exact ⟨ψ₂, hψ₂, fun v => (hle₁ v).trans (hle₂ v)⟩

theorem LabelLe.of_keeps {e : EdgeRef} (h : A.Valued → ∀ ψ, s.store.Means e ψ → t.store.Means e ψ) :
    LabelLe A s t e e := by
  intro hv ψ hψ
  have := hv.2.join
  exact ⟨ψ, h hv ψ hψ, fun v => Below.refl _⟩

theorem LabelLe.of_le {e : EdgeRef} (h : s.store ≤ t.store) : LabelLe A s t e e :=
  .of_keeps fun _ _ hψ => hψ.mono h

theorem LabelLe.covers {e f : EdgeRef} {φ : L → L} (h : LabelLe A s t e f)
    (hφ : A.Valued → s.store.Means e φ) : A.Covers t.store f φ :=
  fun hv => h hv φ (hφ hv)

/-- A label that is kept means what it meant. -/
theorem Analysis.Labelled.means_of_keeps {e : EdgeRef} (hl : A.Labelled s.store e) (hv : A.Valued)
    (hkeep : ∀ ψ, s.store.Means e ψ → t.store.Means e ψ) {ψ : L → L} (hψ : t.store.Means e ψ) :
    s.store.Means e ψ := by
  obtain ⟨ψ', hψ'⟩ := hl hv.1
  rwa [hψ.unique (hkeep ψ' hψ')]

theorem Tabled.later {x : PathEdge} (h : Tabled A s x) (hl : A.Labelled s.store x.edge)
    (hkeep : A.Valued → ∀ ψ, s.store.Means x.edge ψ → t.store.Means x.edge ψ)
    (hpaths : ∀ n a b ef, s.paths.get? n a b = some ef →
      ∃ ef', t.paths.get? n a b = some ef' ∧ LabelLe A s t ef ef') : Tabled A t x := by
  obtain ⟨ef, hef, hle⟩ := h
  obtain ⟨ef', hef', hle'⟩ := hpaths _ _ _ ef hef
  refine ⟨ef', hef', fun hv ψ hψ => ?_⟩
  exact (hle.trans hle') hv ψ (hl.means_of_keeps hv (hkeep hv) hψ)

theorem Backed.later {x : PathEdge} (h : Backed A s x) (hl : A.Labelled s.store x.edge)
    (hkeep : A.Valued → ∀ ψ, s.store.Means x.edge ψ → t.store.Means x.edge ψ)
    (hinterned : s.store.interned ≤ t.store.interned)
    (hpaths : ∀ n a b ef, s.paths.get? n a b = some ef →
      ∃ ef', t.paths.get? n a b = some ef' ∧ LabelLe A s t ef ef') : Backed A t x := by
  intro hv
  rcases h hv with htabled | hwide
  · exact .inl (htabled.later hl hkeep hpaths)
  · refine .inr ⟨fun ψ hψ => hwide.1 ψ (hl.means_of_keeps hv (hkeep hv) hψ), fun hgc => ?_⟩
    exact Nat.le_trans (hwide.2 hgc) hinterned

end Labels

variable [DecidableEq D]

/-! ## Entries of the tables -/

/-- What is known about a path edge of a procedure, however it got its label. -/
structure PathKnown (A : Analysis D L K) (s : State D L K) (x : PathEdge) (p : ProcId)
    (node proc : String) (source target : D) : Prop where
  hasNode : s.HasNode x.node node
  hasSource : s.HasFact x.source source
  hasTarget : s.HasFact x.target target
  hasProc : s.HasProc p proc
  procOf : A.graph.procOf node = .ok proc
  entered : Entered A s proc source
  origin : target = source ∨ ∃ m, A.graph.Succ m node
  derives : A.Sealed → A.Derives proc source node target
  labelled : A.Labelled s.store x.edge
  spelled : A.Spelled s.store x.edge fun R => R proc source node target

/-- What is known about a path edge of a procedure. -/
structure PathFacts (A : Analysis D L K) (s : State D L K) (x : PathEdge) (p : ProcId)
    (node proc : String) (source target : D) : Prop
    extends PathKnown A s x p node proc source target where
  exact : Precise A s → A.Exact s.store x.edge (A.SameLevel proc source node target)

/-- The path edge belongs to the procedure. -/
def PathOk (A : Analysis D L K) (s : State D L K) (x : PathEdge) (p : ProcId) : Prop :=
  ∃ node proc source target, PathFacts A s x p node proc source target

theorem PathOk.inProc {A : Analysis D L K} {s : State D L K} {x : PathEdge} {p : ProcId}
    (h : PathOk A s x p) : InProc A s x.node p := by
  obtain ⟨node, proc, _, _, h⟩ := h
  exact ⟨node, proc, h.hasNode, h.procOf, h.hasProc⟩

theorem PathOk.labelled {A : Analysis D L K} {s : State D L K} {x : PathEdge} {p : ProcId}
    (h : PathOk A s x p) : A.Labelled s.store x.edge := by
  obtain ⟨_, _, _, _, h⟩ := h
  exact h.labelled

/-- What is known about a summary, however it got its label. -/
structure SummaryKnown (A : Analysis D L K) (s : State D L K) (p : ProcId) (e : FactId)
    (x : NodeId) (d : FactId) (ef : EdgeRef) (proc exit : String) (entry fact : D) : Prop where
  hasProc : s.HasProc p proc
  hasEntry : s.HasFact e entry
  hasExit : s.HasNode x exit
  hasFact : s.HasFact d fact
  exitOf : A.graph.ExitOf proc exit
  noCall : A.graph.isCallSite exit = .ok false
  derives : A.Sealed → A.Derives proc entry exit fact
  labelled : A.Labelled s.store ef
  spelled : A.Spelled s.store ef fun R => R proc entry exit fact

/-- What is known about a summary. -/
structure SummaryFacts (A : Analysis D L K) (s : State D L K) (p : ProcId) (e : FactId)
    (x : NodeId) (d : FactId) (ef : EdgeRef) (proc exit : String) (entry fact : D) : Prop
    extends SummaryKnown A s p e x d ef proc exit entry fact where
  exact : Precise A s → A.Exact s.store ef (A.SameLevel proc entry exit fact)

/-- The summary leaves its procedure. -/
def SummaryOk (A : Analysis D L K) (s : State D L K) (p : ProcId) (e : FactId) (x : NodeId)
    (d : FactId) (ef : EdgeRef) : Prop :=
  ∃ proc exit entry fact, SummaryFacts A s p e x d ef proc exit entry fact

theorem SummaryOk.labelled {A : Analysis D L K} {s : State D L K} {p : ProcId} {e : FactId}
    {x : NodeId} {d : FactId} {ef : EdgeRef} (h : SummaryOk A s p e x d ef) :
    A.Labelled s.store ef := by
  obtain ⟨_, _, _, _, h⟩ := h
  exact h.labelled

/-- What is known about a recorded call, however it got its label. -/
structure RecordKnown (A : Analysis D L K) (s : State D L K) (c : CallRecord)
    (site caller callee : String) (source entry : D) : Prop where
  hasSite : s.HasNode c.site site
  hasSource : s.HasFact c.source source
  hasCallee : s.HasProc c.callee callee
  hasEntry : s.HasFact c.entry entry
  procOf : A.graph.procOf site = .ok caller
  entered : Entered A s caller source
  enter : ∃ b e, s.HasPath site source b ∧ A.Enter site b callee entry e ∧
    (A.Sealed → A.Derives caller source site b)
  start : ∃ sp, A.graph.StartOf callee sp
  labelled : A.Labelled s.store c.edge
  spelled : A.Spelled s.store c.edge (A.CallLabel caller source site callee entry)

/-- What is known about a recorded call. -/
structure RecordFacts (A : Analysis D L K) (s : State D L K) (c : CallRecord)
    (site caller callee : String) (source entry : D) : Prop
    extends RecordKnown A s c site caller callee source entry where
  exact : Precise A s → A.Exact s.store c.edge (A.CallPath caller source site callee entry)

/-- The call follows a path edge. -/
def RecordOk (A : Analysis D L K) (s : State D L K) (c : CallRecord) : Prop :=
  ∃ site caller callee source entry, RecordFacts A s c site caller callee source entry

section Mono

variable {A : Analysis D L K} {s s' : State D L K}

theorem PathKnown.mono {x : PathEdge} {p : ProcId} {node proc : String} {source target : D}
    (h : PathKnown A s x p node proc source target) (hg : s.Grows s') :
    PathKnown A s' x p node proc source target where
  hasNode := hg.nodes _ _ h.hasNode
  hasSource := hg.facts _ _ h.hasSource
  hasTarget := hg.facts _ _ h.hasTarget
  hasProc := hg.procs _ _ h.hasProc
  procOf := h.procOf
  entered := h.entered.mono hg
  origin := h.origin
  derives := h.derives
  labelled := h.labelled.mono hg.store
  spelled := h.spelled.mono hg.store

theorem PathFacts.mono {x : PathEdge} {p : ProcId} {node proc : String} {source target : D}
    (h : PathFacts A s x p node proc source target) (hg : s.Grows s') :
    PathFacts A s' x p node proc source target :=
  ⟨h.toPathKnown.mono hg, fun hp => (h.exact (hp.of_grows hg)).mono hg.store⟩

theorem PathOk.mono {x : PathEdge} {p : ProcId} (h : PathOk A s x p) (hg : s.Grows s') :
    PathOk A s' x p := by
  obtain ⟨node, proc, source, target, h⟩ := h
  exact ⟨node, proc, source, target, h.mono hg⟩

theorem SummaryKnown.mono {p : ProcId} {e : FactId} {x : NodeId} {d : FactId} {ef : EdgeRef}
    {proc exit : String} {entry fact : D} (h : SummaryKnown A s p e x d ef proc exit entry fact)
    (hg : s.Grows s') : SummaryKnown A s' p e x d ef proc exit entry fact where
  hasProc := hg.procs _ _ h.hasProc
  hasEntry := hg.facts _ _ h.hasEntry
  hasExit := hg.nodes _ _ h.hasExit
  hasFact := hg.facts _ _ h.hasFact
  exitOf := h.exitOf
  noCall := h.noCall
  derives := h.derives
  labelled := h.labelled.mono hg.store
  spelled := h.spelled.mono hg.store

theorem SummaryOk.mono {p : ProcId} {e : FactId} {x : NodeId} {d : FactId} {ef : EdgeRef}
    (h : SummaryOk A s p e x d ef) (hg : s.Grows s') : SummaryOk A s' p e x d ef := by
  obtain ⟨proc, exit, entry, fact, h⟩ := h
  exact ⟨proc, exit, entry, fact, h.toSummaryKnown.mono hg,
    fun hp => (h.exact (hp.of_grows hg)).mono hg.store⟩

theorem RecordKnown.mono {c : CallRecord} {site caller callee : String} {source entry : D}
    (h : RecordKnown A s c site caller callee source entry) (hg : s.Grows s') :
    RecordKnown A s' c site caller callee source entry where
  hasSite := hg.nodes _ _ h.hasSite
  hasSource := hg.facts _ _ h.hasSource
  hasCallee := hg.procs _ _ h.hasCallee
  hasEntry := hg.facts _ _ h.hasEntry
  procOf := h.procOf
  entered := h.entered.mono hg
  enter := by
    obtain ⟨b, e, hpath, he⟩ := h.enter
    exact ⟨b, e, hpath.mono hg, he⟩
  start := h.start
  labelled := h.labelled.mono hg.store
  spelled := h.spelled.mono hg.store

theorem RecordFacts.mono {c : CallRecord} {site caller callee : String} {source entry : D}
    (h : RecordFacts A s c site caller callee source entry) (hg : s.Grows s') :
    RecordFacts A s' c site caller callee source entry :=
  ⟨h.toRecordKnown.mono hg, fun hp => (h.exact (hp.of_grows hg)).mono hg.store⟩

theorem RecordOk.mono {c : CallRecord} (h : RecordOk A s c) (hg : s.Grows s') :
    RecordOk A s' c := by
  obtain ⟨site, caller, callee, source, entry, h⟩ := h
  exact ⟨site, caller, callee, source, entry, h.mono hg⟩

end Mono

/-! ## The invariant -/

variable [DecidableEq L]

/-- Names, answers and stored functions make sense. -/
structure Base (A : Analysis D L K) (s : State D L K) : Prop where
  nodes : s.nodes.Wf
  facts : s.facts.Wf
  procs : s.procs.Wf
  answers : AnswersOk A s
  store : s.store.Regular
  joinLimit : s.store.joinLimit = A.config.joinLimit

/-- Everything in the tables makes sense. -/
structure Inv (A : Analysis D L K) (s : State D L K) : Prop extends Base A s where
  paths : ∀ n a b ef, s.paths.get? n a b = some ef → ∃ p, PathOk A s ⟨n, a, b, ef⟩ p
  queue : ∀ x ∈ s.queue.toList, (∃ p, PathOk A s x p) ∧ Tabled A s x
  summaries : ∀ p e x d ef, s.summaries.get? p e x d = some ef →
    SummaryOk A s p e x d ef ∧ Backed A s ⟨x, e, d, ef⟩
  records : ∀ c ∈ s.ledger, RecordOk A s c
  ledger : s.ledger.Wf
  into : ∀ e p, ∀ c ∈ s.ledger.callsInto e p, c ∈ s.ledger ∧ c.entry = e ∧ c.callee = p
  forward : ∀ a n, ∀ c ∈ s.ledger.callsFrom a n, c ∈ s.ledger ∧ c.source = a ∧ c.site = n
  reached : ∀ n b : UInt32, s.reached.contains (pack n b) = true ↔
    ∃ a ef, s.paths.get? ⟨n⟩ a ⟨b⟩ = some ef
  seeds : ∀ job ∈ s.seeds, ∃ sp a, s.HasNode job.node sp ∧ s.HasFact job.fact a ∧
    (sp, a, job.value) ∈ A.problem.seeds.toList

/-- The caller of a recorded call is numbered. -/
theorem Inv.exists_caller {A : Analysis D L K} {s : State D L K} (h : Inv A s) {c : CallRecord}
    {site caller callee : String} {source entry : D}
    (hc : RecordFacts A s c site caller callee source entry) : ∃ p, s.HasProc p caller := by
  obtain ⟨b, e, ⟨n, i, j, ef, hn, -, -, hef⟩, -⟩ := hc.enter
  obtain ⟨p, node, proc, _, _, hpath⟩ := h.paths n i j ef hef
  obtain rfl := Option.some.inj (hpath.hasNode.symm.trans hn)
  obtain rfl := Except.ok.inj (hpath.procOf.symm.trans hc.procOf)
  exact ⟨p, hpath.hasProc⟩

/-- The call site of a recorded call lies in a procedure. -/
theorem Inv.exists_inProc {A : Analysis D L K} {s : State D L K} (h : Inv A s) {c : CallRecord}
    (hc : c ∈ s.ledger) : ∃ p, InProc A s c.site p := by
  obtain ⟨site, caller, _, _, _, hrec⟩ := h.records c hc
  obtain ⟨p, hp⟩ := h.exists_caller hrec
  exact ⟨p, site, caller, hrec.hasSite, hrec.procOf, hp⟩

/-- A recorded call follows a path edge at its call site. -/
theorem Inv.exists_path {A : Analysis D L K} {s : State D L K} (h : Inv A s) {c : CallRecord}
    (hc : c ∈ s.ledger) : ∃ b ef, s.paths.get? c.site c.source b = some ef := by
  obtain ⟨site, _, _, source, _, hrec⟩ := h.records c hc
  obtain ⟨_, _, ⟨n, i, j, ef, hn, hi, -, hef⟩, -⟩ := hrec.enter
  obtain rfl : n = c.site := congrArg NodeId.mk (Interner.get?_inj h.nodes hn hrec.hasSite)
  obtain rfl : i = c.source := congrArg FactId.mk (Interner.get?_inj h.facts hi hrec.hasSource)
  exact ⟨j, ef, hef⟩

end Tabulation
