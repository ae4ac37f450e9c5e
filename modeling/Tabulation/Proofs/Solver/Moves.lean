import Tabulation.Proofs.Solver.Quiet

/-!
# The moves of fact propagation

Whatever propagation does to the tables, it does by a few kinds of moves, `Move`: it stores and
queues a path edge, queues the key of a summary, stores a summary, records a call, links a recorded
call to the lists in which it waits, or takes down a seed. Invariants are shown of moves, not of
programs.

**Provenance.** A move says why it is justified. The label of a path edge is the old one joined with
a label that the path edge may have, `PathOk`, and path edges are only added to the pairs `Z` of a
procedure and an entry fact that are being worked on, or at a start point.

**Coverage.** `Later` says that labels only grow, so what is `Covered` stays covered.
-/

namespace Tabulation

variable {D L K : Type} [Ord L] [Ord K]

/-! ## Joined labels -/

section Joined

variable [JoinLattice L] [Payload K L] {A : Analysis D L K}

/-- A join that was not widened is exact if its operands are. -/
theorem Analysis.Exact.join {st : EdgeStore L K} {a b c : EdgeRef} {F : (L → L) → Prop}
    (ha : A.Exact st a F) (hb : A.Exact st b F) (hc : A.Labelled st c)
    (hjoined : st.joined.table[EdgeStore.joinKey a b]? = some c)
    (hexact : A.config.computeValues = true → st.Unwidened) : A.Exact st c F := by
  refine ⟨ha.1, fun hv => ?_⟩
  have := hv.2.join
  obtain ⟨φ, hφ, hφm⟩ := ha.2 hv
  obtain ⟨ψ, hψ, hψm⟩ := hb.2 hv
  obtain ⟨χ, hχ⟩ := hc hv.1
  have hjoin := (hexact hv.1).joinKey hjoined hφm hψm hχ
  rw [funext hjoin] at hχ
  exact ⟨_, hφ.more hψ, hχ⟩

variable [DecidableEq D] [DecidableEq L]

/-- Two labels of a path edge that has one edge function are the same, and so they are not
joined. -/
theorem Analysis.Spelled.join {st : EdgeStore L K} {a b c : EdgeRef} {p n : String} {d t : D}
    (hst : st.Regular) (ha : A.Spelled st a fun R => R p d n t)
    (hb : A.Spelled st b fun R => R p d n t) (hne : b ≠ a) :
    A.Spelled st c fun R => R p d n t := by
  intro R hR
  have := hR.shared
  obtain ⟨f, hf, hfa⟩ := ha R hR
  obtain ⟨g, hg, hgb⟩ := hb R hR
  obtain rfl := hR.unique hf hg
  exact absurd (hgb.unique hst hfa) hne

end Joined

variable [Ord D] {A : Analysis D L K} {s t u s' : State D L K}

/-! ## Changes of the tables -/

/-- The node is an exit point of the procedure, and no call site. -/
def LeavesAt (A : Analysis D L K) (s : State D L K) (p : ProcId) (x : NodeId) : Prop :=
  ∃ q exit, s.HasProc p q ∧ s.HasNode x exit ∧ A.graph.ExitOf q exit ∧
    A.graph.isCallSite exit = .ok false

/-- A summary as calls read it. Without the summary table it is a path edge at an exit point, which
counts once it was taken from the queue. -/
inductive Summary (A : Analysis D L K) (s : State D L K) (p : ProcId) (e : FactId) (x : NodeId)
    (d : FactId) (ef : EdgeRef) : Prop
  | table : A.config.useSummaryTable = true → s.summaries.get? p e x d = some ef →
      Summary A s p e x d ef
  | path : A.config.useSummaryTable ≠ true → LeavesAt A s p x → s.paths.get? x e d = some ef →
      ⟨x, e, d, ef⟩ ∉ s.queue.toList → Summary A s p e x d ef

/-- Summaries do not depend on the other tables, and only a queue that shrinks adds some. -/
theorem Summary.congr {p : ProcId} {e : FactId} {x : NodeId} {d : FactId} {ef : EdgeRef}
    (h : Summary A t p e x d ef) (hnodes : t.nodes = s.nodes) (hprocs : t.procs = s.procs)
    (hpaths : t.paths = s.paths) (hsummaries : t.summaries = s.summaries)
    (hqueue : ⟨x, e, d, ef⟩ ∈ s.queue.toList → ⟨x, e, d, ef⟩ ∈ t.queue.toList) :
    Summary A s p e x d ef := by
  cases h with
  | table hu hef => exact .table hu (hsummaries ▸ hef)
  | path hu hl hef hx =>
    refine .path hu ?_ (hpaths ▸ hef) fun hmem => hx (hqueue hmem)
    simpa only [LeavesAt, State.HasProc, State.HasNode, hnodes, hprocs] using hl

/-- A path edge of a procedure was stored and queued. -/
structure StorePath (A : Analysis D L K) (x : PathEdge) (p : ProcId) (s s' : State D L K) :
    Prop where
  nodes : s'.nodes = s.nodes
  facts : s'.facts = s.facts
  procs : s'.procs = s.procs
  store : s'.store = s.store
  answers : s'.answers = s.answers
  paths : s'.paths = (s.paths.insert x.node x.source x.target x.edge).2
  queue : s'.queue = s.queue.push x
  reached : ∀ k, s'.reached.contains k = true ↔
    s.paths.get? x.node x.source x.target = none ∧ k = pack x.node.val x.target.val ∨
      s.reached.contains k = true
  retention : s'.retention =
    if A.config.gcMode.isEnabled then s.retention.retain p else s.retention
  summaries : s'.summaries = s.summaries
  ledger : s'.ledger = s.ledger
  callQueue : s'.callQueue = s.callQueue
  seeds : s'.seeds = s.seeds
  stage : s'.stage = s.stage

theorem StorePath.grows {x : PathEdge} {p : ProcId} (h : StorePath A x p s s') : s.Grows s' where
  nodes := h.nodes ▸ Interner.le_refl _
  facts := h.facts ▸ Interner.le_refl _
  procs := h.procs ▸ Interner.le_refl _
  store := h.store ▸ EdgeStore.le_refl _
  joins := h.store ▸ .refl _
  paths n a b ef hef := by
    rw [h.paths, PathTable.get?_insert]
    split
    · exact ⟨_, rfl⟩
    · exact ⟨ef, hef⟩

variable [JoinLattice L] [Payload K L]

/-! ## Coverage -/

/-- A path edge is there, and its label covers a function. -/
def Covered (A : Analysis D L K) (s : State D L K) (m : String) (a : FactId) (t : D)
    (φ : L → L) : Prop :=
  ∃ n b ef, s.HasNode n m ∧ s.HasFact b t ∧ s.paths.get? n a b = some ef ∧ A.Covers s.store ef φ

/-- Labels only grow. -/
structure Later (A : Analysis D L K) (s s' : State D L K) : Prop where
  nodes : s.nodes ≤ s'.nodes
  facts : s.facts ≤ s'.facts
  procs : s.procs ≤ s'.procs
  paths : ∀ n a b ef, s.paths.get? n a b = some ef →
    ∃ ef', s'.paths.get? n a b = some ef' ∧ LabelLe A s s' ef ef'
  summaries : ∀ p e x d ef, s.summaries.get? p e x d = some ef →
    ∃ ef', s'.summaries.get? p e x d = some ef' ∧ LabelLe A s s' ef ef'
  records : ∀ c ∈ s.ledger, c ∈ s'.ledger ∧
    (A.Valued → ∀ ψ, s.store.Means c.edge ψ → s'.store.Means c.edge ψ)

theorem Later.trans (h : Later A s t) (k : Later A t u) : Later A s u where
  nodes := Interner.le_trans h.nodes k.nodes
  facts := Interner.le_trans h.facts k.facts
  procs := Interner.le_trans h.procs k.procs
  paths n a b ef hef := by
    obtain ⟨ef₁, hef₁, hle₁⟩ := h.paths n a b ef hef
    obtain ⟨ef₂, hef₂, hle₂⟩ := k.paths n a b ef₁ hef₁
    exact ⟨ef₂, hef₂, hle₁.trans hle₂⟩
  summaries p e x d ef hef := by
    obtain ⟨ef₁, hef₁, hle₁⟩ := h.summaries p e x d ef hef
    obtain ⟨ef₂, hef₂, hle₂⟩ := k.summaries p e x d ef₁ hef₁
    exact ⟨ef₂, hef₂, hle₁.trans hle₂⟩
  records c hc := by
    obtain ⟨hc₁, hk₁⟩ := h.records c hc
    obtain ⟨hc₂, hk₂⟩ := k.records c hc₁
    exact ⟨hc₂, fun hv ψ hψ => hk₂ hv ψ (hk₁ hv ψ hψ)⟩

theorem Later.refl (s : State D L K) : Later A s s :=
  ⟨Interner.le_refl _, Interner.le_refl _, Interner.le_refl _,
    fun _ _ _ ef hef => ⟨ef, hef, .of_le (EdgeStore.le_refl _)⟩,
    fun _ _ _ _ ef hef => ⟨ef, hef, .of_le (EdgeStore.le_refl _)⟩,
    fun _ hc => ⟨hc, fun _ _ hψ => hψ⟩⟩

theorem Analysis.Covers.later {e f : EdgeRef} {φ : L → L} (h : A.Covers s.store e φ)
    (hle : LabelLe A s t e f) : A.Covers t.store f φ := by
  intro hv
  have := hv.2.join
  obtain ⟨ψ, hψ, hφ⟩ := h hv
  obtain ⟨ψ', hψ', hle'⟩ := hle hv ψ hψ
  exact ⟨ψ', hψ', fun v => (hφ v).trans (hle' v)⟩

theorem Covered.later {m : String} {a : FactId} {d : D} {φ : L → L} (h : Covered A s m a d φ)
    (hl : Later A s t) : Covered A t m a d φ := by
  obtain ⟨n, b, ef, hn, hb, hef, hcov⟩ := h
  obtain ⟨ef', hef', hle⟩ := hl.paths n a b ef hef
  exact ⟨n, b, ef', hl.nodes _ _ hn, hl.facts _ _ hb, hef', hcov.later hle⟩

/-- A path edge at a call site was taken into a callee that starts at `sp`: the start point is
covered, and the call is recorded. -/
def Called (A : Analysis D L K) (s : State D L K) (x : PathEdge) (ψ : L → L) (q : String) (t : D)
    (e : EdgeFunction L K) (sp : String) : Prop :=
  ∃ c ∈ s.ledger, c.source = x.source ∧ c.site = x.node ∧ s.HasProc c.callee q ∧
    s.HasFact c.entry t ∧ (A.Valued → s.store.Means c.edge (e.apply ∘ ψ)) ∧
    Covered A s sp c.entry t id

theorem Called.later {x : PathEdge} {ψ : L → L} {q sp : String} {d : D}
    {e : EdgeFunction L K} (h : Called A s x ψ q d e sp) (hl : Later A s t) :
    Called A t x ψ q d e sp := by
  obtain ⟨c, hc, hsrc, hsite, hcallee, hentry, hlabel, hcov⟩ := h
  obtain ⟨hc', hkept⟩ := hl.records c hc
  exact ⟨c, hc', hsrc, hsite, hl.procs _ _ hcallee, hl.facts _ _ hentry,
    fun hv => hkept hv _ (hlabel hv), hcov.later hl⟩

/-- A change that leaves summaries and path edges alone and keeps recorded calls. -/
theorem Later.of_grows (hg : s.Grows s') (hpaths : s'.paths = s.paths)
    (hsummaries : s'.summaries = s.summaries) (hledger : ∀ c ∈ s.ledger, c ∈ s'.ledger) :
    Later A s s' where
  nodes := hg.nodes
  facts := hg.facts
  procs := hg.procs
  paths n a b ef hef := ⟨ef, by rw [hpaths, hef], .of_le hg.store⟩
  summaries p e x d ef hef := ⟨ef, by rw [hsummaries, hef], .of_le hg.store⟩
  records c hc := ⟨hledger c hc, fun _ _ hψ => hψ.mono hg.store⟩

/-- A path edge stays tabled, and a summary backed, while labels grow. -/
theorem State.Grows.tabled (hg : s.Grows s')
    (hpaths : ∀ n a b ef, s.paths.get? n a b = some ef →
      ∃ ef', s'.paths.get? n a b = some ef' ∧ LabelLe A s s' ef ef') {x : PathEdge}
    (hl : A.Labelled s.store x.edge) :
    (Tabled A s x → Tabled A s' x) ∧ (Backed A s x → Backed A s' x) :=
  ⟨fun h => h.later hl (fun _ _ hψ => hψ.mono hg.store) hpaths,
    fun h => h.later hl (fun _ _ hψ => hψ.mono hg.store) hg.store.2.2 hpaths⟩

theorem Quiet.paths_le (hq : Quiet s s') (n : NodeId) (a b : FactId) (ef : EdgeRef)
    (hef : s.paths.get? n a b = some ef) :
    ∃ ef', s'.paths.get? n a b = some ef' ∧ LabelLe A s s' ef ef' :=
  ⟨ef, by rw [hq.paths, hef], .of_le hq.store⟩

/-! ## Added labels -/

section Merged

variable [DecidableEq L]

/-- The label that results when `e` is added to an old label, if that changes it. -/
inductive Merged (A : Analysis D L K) (st : EdgeStore L K) (e : EdgeRef) :
    Option EdgeRef → EdgeRef → Prop
  | new : Merged A st e none e
  | join {old ef : EdgeRef} : A.config.computeValues = true → A.Labelled st ef →
      (A.Valued → st.Joins old e ef) → st.joined.table[EdgeStore.joinKey old e]? = some ef →
      ef ≠ old → e ≠ old → Merged A st e (some old) ef

theorem Joins.below_left {st : EdgeStore L K} [LawfulJoin L] {a b c : EdgeRef}
    (hst : st.Regular) (h : st.Joins a b c) {φ : L → L} (hφ : st.Means a φ) :
    ∃ χ, st.Means c χ ∧ ∀ v, Below (φ v) (χ v) := by
  obtain ⟨φ', ψ, χ, hφ', -, hχ, hjoin⟩ := h.means
  obtain rfl := hφ.unique hφ'
  refine ⟨χ, hχ, fun v => ?_⟩
  rcases hjoin with hjoin | ⟨rfl, -⟩
  · rw [hjoin v]
    exact below_join_left _ _
  · rw [hχ.unique hst.means_allBottom]
    exact below_bottom _

theorem Merged.labelLe (hb : Base A s) {e old ef : EdgeRef}
    (h : Merged A s.store e (some old) ef) (hs : s.store ≤ s'.store) : LabelLe A s s' old ef := by
  cases h with
  | join _ _ hjoins _ _ _ =>
    intro hv φ hφ
    have := hv.2.join
    obtain ⟨χ, hχ, hle⟩ := Joins.below_left hb.store (hjoins hv) hφ
    exact ⟨χ, hχ.mono hs, hle⟩

/-- Storing a path edge lets the labels of the table grow. -/
theorem StorePath.paths_le (hb : Base A s) {x : PathEdge} {p : ProcId} {e : EdgeRef}
    (h : StorePath A x p s s')
    (hm : Merged A s.store e (s.paths.get? x.node x.source x.target) x.edge) (n : NodeId)
    (a b : FactId) (ef : EdgeRef) (hef : s.paths.get? n a b = some ef) :
    ∃ ef', s'.paths.get? n a b = some ef' ∧ LabelLe A s s' ef ef' := by
  rw [h.paths, PathTable.get?_insert]
  split
  · next hkey =>
    obtain ⟨rfl, rfl, rfl⟩ := hkey
    rw [hef] at hm
    exact ⟨_, rfl, hm.labelLe hb h.grows.store⟩
  · exact ⟨ef, hef, .of_le h.grows.store⟩

/-- A summary that results from adding a path edge to the table is backed, unless it is widened. -/
theorem Tabled.merged (hb : Base A s) {x : PathEdge} {ef : EdgeRef} {old : Option EdgeRef}
    (h : Tabled A s x) (hold : ∀ ef, old = some ef → Backed A s { x with edge := ef })
    (hm : Merged A s.store x.edge old ef) : Backed A s { x with edge := ef } := by
  intro hv
  cases hm with
  | new => exact .inl h
  | @join old _ _ _ hjoins _ _ _ =>
    have := hv.2.join
    obtain ⟨φ, ψ, χ, hφ, hψ, hχ, hjoin⟩ := (hjoins hv).means
    rcases hjoin with hjoin | ⟨rfl, hwide⟩
    · rcases hold old rfl hv with ⟨ef', hef', hle⟩ | hwide
      · -- The table covers both parts, and so it covers their join.
        obtain ⟨ef'', hef'', hle'⟩ := h
        obtain rfl := Option.some.inj (hef'.symm.trans hef'')
        refine .inl ⟨ef', hef', fun _ χ' hχ' => ?_⟩
        obtain ⟨φ₁, hφ₁, hφle⟩ := hle hv φ hφ
        obtain ⟨ψ₁, hψ₁, hψle⟩ := hle' hv ψ hψ
        obtain rfl := hφ₁.unique hψ₁
        obtain rfl := hχ'.unique hχ
        refine ⟨φ₁, hφ₁, fun v => ?_⟩
        rw [hjoin v]
        exact join_below (hφle v) (hψle v)
      · refine .inr ⟨fun χ' hχ' v => ?_, hwide.2⟩
        rw [hχ'.unique hχ, hjoin v, hwide.1 φ hφ v, bottom_join]
    · refine .inr ⟨fun χ' hχ' v => ?_, fun _ => ?_⟩
      · rw [hχ'.unique hb.store.means_allBottom]
      · have hcard := hb.store.card_parts_le (a := old) (b := x.edge)
        rw [← hb.joinLimit]
        omega

theorem Base.congr (h : Base A s) (hn : s'.nodes = s.nodes) (hf : s'.facts = s.facts)
    (hp : s'.procs = s.procs) (hs : s'.store = s.store) (ha : s'.answers = s.answers) :
    Base A s' where
  nodes := hn ▸ h.nodes
  facts := hf ▸ h.facts
  procs := hp ▸ h.procs
  answers := h.answers.mono (hn ▸ Interner.le_refl _) (hf ▸ Interner.le_refl _)
    (hp ▸ Interner.le_refl _) (hs ▸ EdgeStore.le_refl _) ha
  store := hs ▸ h.store
  joinLimit := hs ▸ h.joinLimit

end Merged

/-! ## Pending work -/

variable [DecidableEq D]

/-- Everything that follows from a path edge at its own node has been done. -/
structure CrossedAs (A : Analysis D L K) (s : State D L K) (x : PathEdge) (node : String) (fact : D)
    (ψ : L → L) : Prop where
  hasNode : s.HasNode x.node node
  hasFact : s.HasFact x.target fact
  succs : ∀ m, A.graph.Succ node m → ∃ n, s.HasNode n m
  callees : ∀ q, A.graph.Calls node q → ∃ p, s.HasProc p q
  label : A.Valued → s.store.Means x.edge ψ
  inside : ∀ m t e, A.Inside node fact m t e → Covered A s m x.source t (e.apply ∘ ψ)
  enter : ∀ q t e sp, A.Enter node fact q t e → A.graph.StartOf q sp → Called A s x ψ q t e sp
  leave : A.config.useSummaryTable = true → ∀ q, A.graph.ExitOf q node →
    A.graph.isCallSite node = .ok false →
    ∃ p ef, s.HasProc p q ∧ s.summaries.get? p x.source x.node x.target = some ef ∧
      A.Covers s.store ef ψ

/-- A path edge that needs no further work. -/
def Crossed (A : Analysis D L K) (s : State D L K) (x : PathEdge) : Prop :=
  ∃ node fact ψ, CrossedAs A s x node fact ψ

/-- A summary was applied to a call. -/
structure AppliedAs (A : Analysis D L K) (s : State D L K) (c : CallRecord) (x : NodeId)
    (d : FactId) (ef : EdgeRef) (site callee exit : String) (fact : D) (χ σ : L → L) : Prop where
  hasSite : s.HasNode c.site site
  hasCallee : s.HasProc c.callee callee
  hasExit : s.HasNode x exit
  hasFact : s.HasFact d fact
  call : A.Valued → s.store.Means c.edge χ
  summary : A.Valued → s.store.Means ef σ
  leave : ∀ ret t e, A.Leave site callee exit fact ret t e →
    Covered A s ret c.source t (e.apply ∘ σ ∘ χ)

/-- All summaries of the callee were applied to a call. -/
def Returned (A : Analysis D L K) (s : State D L K) (c : CallRecord) : Prop :=
  ∀ x d ef, Summary A s c.callee c.entry x d ef →
    ∃ site callee exit fact χ σ, AppliedAs A s c x d ef site callee exit fact χ σ

theorem Crossed.later {x : PathEdge} (h : Crossed A s x) (hl : Later A s t)
    (hkeep : A.Valued → ∀ ψ, s.store.Means x.edge ψ →
      t.store.Means x.edge ψ) : Crossed A t x := by
  obtain ⟨node, fact, ψ, h⟩ := h
  refine ⟨node, fact, ψ, hl.nodes _ _ h.hasNode, hl.facts _ _ h.hasFact,
    fun m hm => (h.succs m hm).imp fun n => hl.nodes n.val m,
    fun q hq => (h.callees q hq).imp fun p => hl.procs p.val q,
    fun hv => hkeep hv ψ (h.label hv), fun m d e he => (h.inside m d e he).later hl,
    fun q d e sp he hs => (h.enter q d e sp he hs).later hl, fun hu q hq hc => ?_⟩
  obtain ⟨p, ef, hp, hef, hcov⟩ := h.leave hu q hq hc
  obtain ⟨ef', hef', hle⟩ := hl.summaries _ _ _ _ _ hef
  exact ⟨p, ef', hl.procs _ _ hp, hef', hcov.later hle⟩

/-- What was returned stays so, as long as the summaries of the callee do not change. -/
theorem Returned.later {c : CallRecord} (h : Returned A s c) (hl : Later A s t)
    (hsame : ∀ x d ef, Summary A t c.callee c.entry x d ef → Summary A s c.callee c.entry x d ef)
    (hcall : A.Valued → ∀ ψ, s.store.Means c.edge ψ →
      t.store.Means c.edge ψ)
    (hkeep : A.Valued → ∀ x d ef, Summary A s c.callee c.entry x d ef →
      ∀ ψ, s.store.Means ef ψ → t.store.Means ef ψ) : Returned A t c := by
  intro x d ef hef
  have hef' := hsame x d ef hef
  obtain ⟨site, callee, exit, fact, χ, σ, h⟩ := h x d ef hef'
  exact ⟨site, callee, exit, fact, χ, σ, hl.nodes _ _ h.hasSite, hl.procs _ _ h.hasCallee,
    hl.nodes _ _ h.hasExit, hl.facts _ _ h.hasFact, fun hv => hcall hv χ (h.call hv),
    fun hv => hkeep hv x d ef hef' σ (h.summary hv),
    fun ret d e he => (h.leave ret d e he).later hl⟩

/-! ## Moves -/

variable [DecidableEq L]

/-- A path edge with which a procedure is entered. -/
structure AtStart (A : Analysis D L K) (s : State D L K) (x : PathEdge) (e : EdgeRef) : Prop where
  diagonal : x.target = x.source
  identity : e = .identity
  start : ∃ sp q, s.HasNode x.node sp ∧ A.graph.StartOf q sp

/-- A procedure was entered with a fact: its start point has the path edge. -/
def Started (A : Analysis D L K) (s : State D L K) (p : ProcId) (a : FactId) : Prop :=
  ∃ q sp n ef, s.HasProc p q ∧ A.graph.StartOf q sp ∧ s.HasNode n sp ∧ s.paths.get? n a a = some ef

/-- What propagation does to the tables while it works on the pairs `Z`. -/
inductive Move (A : Analysis D L K) (Z : ProcId → FactId → Prop) :
    State D L K → State D L K → Prop
  | quiet {s s' : State D L K} : Base A s' → Quiet s s' → Move A Z s s'
  | path {s s' : State D L K} {x : PathEdge} {p : ProcId} {e : EdgeRef} :
      PathOk A s { x with edge := e } p →
      Merged A s.store e (s.paths.get? x.node x.source x.target) x.edge →
      Z p x.source ∨ AtStart A s x e → StorePath A x p s s' → Move A Z s s'
  | key {s : State D L K} {p : ProcId} {a : FactId} : Z p a →
      Move A Z s { s with callQueue := (s.callQueue.insert (pack a.val p.val)).2 }
  | summary {s : State D L K} {p : ProcId} {a : FactId} {x : NodeId} {b : FactId}
      {e ef : EdgeRef} : SummaryOk A s p a x b e → Tabled A s ⟨x, a, b, e⟩ →
      Merged A s.store e (s.summaries.get? p a x b) ef → Z p a →
      pack a.val p.val ∈ s.callQueue.keys →
      Move A Z s { s with summaries := (s.summaries.insert p a x b ef).2 }
  | call {s : State D L K} {c : CallRecord} {p : ProcId} : RecordOk A s c → c ∉ s.ledger →
      s.ledger.Threaded → InProc A s c.site p → Z p c.source → Started A s c.callee c.entry →
      Move A Z s { s with ledger := (s.ledger.insert c).2 }
  | link {s : State D L K} {c : CallRecord} {i : Nat} {t : CallLedger} :
      s.ledger.records[i]? = some c → s.ledger.Linkable i →
      s.ledger.link i A.config.computeValues = .ok t → Returned A s c →
      Move A Z s { s with ledger := t }
  | seed {s : State D L K} {job : ValueJob L} {sp : String} {a : D} : s.HasNode job.node sp →
      s.HasFact job.fact a → (sp, a, job.value) ∈ A.problem.seeds.toList →
      Move A Z s { s with seeds := s.seeds ++ [job] }

/-- Any number of moves. -/
abbrev Moves (A : Analysis D L K) (Z : ProcId → FactId → Prop) :
    State D L K → State D L K → Prop := Relation.ReflTransGen (Move A Z)

variable {Z : ProcId → FactId → Prop}

theorem Move.grows (h : Move A Z s s') : s.Grows s' := by
  cases h with
  | quiet _ hq => exact hq.grows
  | path _ _ _ hstore => exact hstore.grows
  | key _ => exact { State.Grows.refl s with }
  | summary _ _ _ _ _ => exact { State.Grows.refl s with }
  | call _ _ _ _ _ _ => exact { State.Grows.refl s with }
  | link _ _ _ _ => exact { State.Grows.refl s with }
  | seed _ _ _ => exact { State.Grows.refl s with }

theorem Moves.grows (h : Moves A Z s s') : s.Grows s' := by
  induction h with
  | refl => exact .refl s
  | tail _ hm ih => exact ih.trans hm.grows

/-! ## Labels grow along moves -/

theorem Move.later (hb : Base A s) (h : Move A Z s s') : Later A s s' := by
  have hg := h.grows
  cases h with
  | quiet _ hq => exact .of_grows hg hq.paths hq.summaries fun c hc => hq.ledger ▸ hc
  | path _ hm _ hstore =>
    exact ⟨hg.nodes, hg.facts, hg.procs, hstore.paths_le hb hm,
      fun p e x d ef hef => ⟨ef, by rw [hstore.summaries, hef], .of_le hg.store⟩,
      fun c hc => ⟨hstore.ledger ▸ hc, fun _ _ hψ => hψ.mono hg.store⟩⟩
  | key _ => exact .of_grows hg rfl rfl fun c hc => hc
  | @summary p a x b e ef _ _ hm _ _ =>
    refine ⟨hg.nodes, hg.facts, hg.procs, fun n a b ef hef => ⟨ef, hef, .of_le hg.store⟩,
      fun p' a' x' b' old hold => ?_, fun c hc => ⟨hc, fun _ _ hψ => hψ⟩⟩
    show ∃ ef', (s.summaries.insert p a x b ef).2.get? p' a' x' b' = some ef' ∧ _
    rw [SummaryTable.get?_insert]
    split
    · next hkey =>
      obtain ⟨rfl, rfl, rfl, rfl⟩ := hkey
      rw [hold] at hm
      exact ⟨_, rfl, hm.labelLe hb hg.store⟩
    · exact ⟨old, hold, .of_le hg.store⟩
  | call _ _ _ _ _ _ => exact .of_grows hg rfl rfl fun c hc => CallLedger.mem_insert.2 (.inr hc)
  | link hi hfree hlink _ =>
    obtain ⟨-, hknown⟩ := CallLedger.link_records hlink hi
    refine .of_grows hg rfl rfl fun c hc => ?_
    rw [CallLedger.mem_iff] at hc ⊢
    rw [hknown]
    exact hc
  | seed _ _ _ => exact .of_grows hg rfl rfl fun c hc => hc

/-! ## The invariant along moves -/

/-- The label that results from adding a path edge to the table is right. -/
theorem PathOk.merged (hb : Base A s) {x : PathEdge} {p : ProcId} {e : EdgeRef}
    (hpath : PathOk A s { x with edge := e } p)
    (hold : ∀ ef, s.paths.get? x.node x.source x.target = some ef →
      ∃ q, PathOk A s { x with edge := ef } q)
    (hm : Merged A s.store e (s.paths.get? x.node x.source x.target) x.edge) : PathOk A s x p := by
  obtain ⟨node, proc, source, target, h⟩ := hpath
  cases hget : s.paths.get? x.node x.source x.target with
  | none =>
    rw [hget] at hm
    obtain ⟨n, a, b, ef⟩ := x
    cases hm
    exact ⟨node, proc, source, target, h⟩
  | some old =>
    obtain ⟨q, node', proc', source', target', h'⟩ := hold old hget
    rw [hget] at hm
    cases hm with
    | join _ hlabel _ hjoined _ hne =>
      obtain rfl := Option.some.inj (h'.hasNode.symm.trans h.hasNode)
      obtain rfl := Option.some.inj (h'.hasSource.symm.trans h.hasSource)
      obtain rfl := Option.some.inj (h'.hasTarget.symm.trans h.hasTarget)
      obtain rfl := Except.ok.inj (h'.procOf.symm.trans h.procOf)
      exact ⟨node', proc', source', target', { h with
        labelled := hlabel
        exact := fun hp => (h'.exact hp).join (h.exact hp) hlabel hjoined fun hv =>
          (hp.values hv).2.2
        spelled := h'.spelled.join hb.store h.spelled hne }⟩

/-- The label that results from adding a summary to the table is right. -/
theorem SummaryOk.merged (hb : Base A s) {p : ProcId} {a : FactId} {x : NodeId} {b : FactId}
    {e ef : EdgeRef} (hsum : SummaryOk A s p a x b e)
    (hold : ∀ ef, s.summaries.get? p a x b = some ef → SummaryOk A s p a x b ef)
    (hm : Merged A s.store e (s.summaries.get? p a x b) ef) : SummaryOk A s p a x b ef := by
  obtain ⟨proc, exit, entry, fact, h⟩ := hsum
  cases hget : s.summaries.get? p a x b with
  | none =>
    rw [hget] at hm
    cases hm
    exact ⟨proc, exit, entry, fact, h⟩
  | some old =>
    obtain ⟨proc', exit', entry', fact', h'⟩ := hold old hget
    rw [hget] at hm
    cases hm with
    | join _ hlabel _ hjoined _ hne =>
      obtain rfl := Option.some.inj (h'.hasProc.symm.trans h.hasProc)
      obtain rfl := Option.some.inj (h'.hasEntry.symm.trans h.hasEntry)
      obtain rfl := Option.some.inj (h'.hasExit.symm.trans h.hasExit)
      obtain rfl := Option.some.inj (h'.hasFact.symm.trans h.hasFact)
      exact ⟨proc', exit', entry', fact', { h with
        labelled := hlabel
        exact := fun hp => (h'.exact hp).join (h.exact hp) hlabel hjoined fun hv =>
          (hp.values hv).2.2
        spelled := h'.spelled.join hb.store h.spelled hne }⟩

theorem Move.stats (h : Base A s) (stats : Stats) : Move A Z s { s with stats } :=
  .quiet (h.congr rfl rfl rfl rfl rfl) { Quiet.refl s with }

/-- What the tables say stays right while names, stored functions and path edges only grow. -/
theorem Inv.of_quiet (h : Inv A s) (hb : Base A s') (hq : Quiet s s') : Inv A s' := by
  have hg := hq.grows
  refine { hb with
    paths := fun n a b ef hef => ?_
    queue := fun x hx => ?_
    summaries := fun p e x d ef hef => ?_
    records := fun c hc => ?_
    ledger := by rw [hq.ledger]; exact h.ledger
    into := by rw [hq.ledger]; exact h.into
    forward := by rw [hq.ledger]; exact h.forward
    reached := by rw [hq.reached, hq.paths]; exact h.reached
    seeds := fun job hjob => ?_ }
  · rw [hq.paths] at hef
    obtain ⟨p, hp⟩ := h.paths n a b ef hef
    exact ⟨p, hp.mono hg⟩
  · rw [hq.queue] at hx
    obtain ⟨⟨p, hp⟩, hx⟩ := h.queue x hx
    exact ⟨⟨p, hp.mono hg⟩, (hg.tabled hq.paths_le hp.labelled).1 hx⟩
  · rw [hq.summaries] at hef
    obtain ⟨hsum, hback⟩ := h.summaries p e x d ef hef
    exact ⟨hsum.mono hg, (hg.tabled hq.paths_le hsum.labelled).2 hback⟩
  · rw [hq.ledger] at hc
    exact (h.records c hc).mono hg
  · rw [hq.seeds] at hjob
    obtain ⟨sp, a, hsp, ha, hseed⟩ := h.seeds job hjob
    exact ⟨sp, a, hg.nodes _ _ hsp, hg.facts _ _ ha, hseed⟩

theorem Inv.of_storePath (h : Inv A s) {x : PathEdge} {p : ProcId} {e : EdgeRef}
    (hpath : PathOk A s { x with edge := e } p)
    (hm : Merged A s.store e (s.paths.get? x.node x.source x.target) x.edge)
    (hstore : StorePath A x p s s') : Inv A s' := by
  have hg := hstore.grows
  have hpaths := hstore.paths_le h.toBase hm
  have hx : PathOk A s' x p := (hpath.merged h.toBase (h.paths _ _ _) hm).mono hg
  refine { h.toBase.congr hstore.nodes hstore.facts hstore.procs hstore.store hstore.answers with
    paths := fun n a b ef hef => ?_
    queue := fun y hy => ?_
    summaries := fun p e x d ef hef => ?_
    records := fun c hc => ?_
    ledger := by rw [hstore.ledger]; exact h.ledger
    into := by rw [hstore.ledger]; exact h.into
    forward := by rw [hstore.ledger]; exact h.forward
    reached := fun n b => ?_
    seeds := fun job hjob => ?_ }
  · rw [hstore.paths, PathTable.get?_insert] at hef
    split at hef
    · next hkey =>
      obtain ⟨rfl, rfl, rfl⟩ := hkey
      obtain rfl := Option.some.inj hef
      exact ⟨p, hx⟩
    · obtain ⟨q, hq⟩ := h.paths n a b ef hef
      exact ⟨q, hq.mono hg⟩
  · rw [hstore.queue, Worklist.toList_push, List.mem_append, List.mem_singleton] at hy
    rcases hy with hy | rfl
    · obtain ⟨⟨q, hq⟩, hy⟩ := h.queue y hy
      exact ⟨⟨q, hq.mono hg⟩, (hg.tabled hpaths hq.labelled).1 hy⟩
    · refine ⟨⟨p, hx⟩, y.edge, ?_, .of_le (EdgeStore.le_refl _)⟩
      rw [hstore.paths, PathTable.get?_insert, if_pos ⟨rfl, rfl, rfl⟩]
  · rw [hstore.summaries] at hef
    obtain ⟨hsum, hback⟩ := h.summaries p e x d ef hef
    exact ⟨hsum.mono hg, (hg.tabled hpaths hsum.labelled).2 hback⟩
  · rw [hstore.ledger] at hc
    exact (h.records c hc).mono hg
  · rw [hstore.reached, h.reached, pack_inj]
    simp only [hstore.paths, PathTable.get?_insert]
    obtain ⟨⟨i⟩, a, ⟨j⟩, ef⟩ := x
    simp only [NodeId.mk.injEq, FactId.mk.injEq]
    constructor
    · rintro (⟨-, rfl, rfl⟩ | ⟨a', ef', hef'⟩)
      · exact ⟨a, ef, if_pos ⟨rfl, rfl, rfl⟩⟩
      · refine ⟨a', ?_⟩
        split
        · exact ⟨_, rfl⟩
        · exact ⟨ef', hef'⟩
    · rintro ⟨a', ef', hef'⟩
      split at hef'
      · next hkey =>
        obtain ⟨rfl, rfl, rfl⟩ := hkey
        cases hget : s.paths.get? ⟨i⟩ a ⟨j⟩ with
        | none => exact .inl ⟨rfl, rfl, rfl⟩
        | some old => exact .inr ⟨a, old, hget⟩
      · exact .inr ⟨a', ef', hef'⟩
  · rw [hstore.seeds] at hjob
    obtain ⟨sp, a, hsp, ha, hseed⟩ := h.seeds job hjob
    exact ⟨sp, a, hg.nodes _ _ hsp, hg.facts _ _ ha, hseed⟩

/-- The invariant does not speak about what else is pending, and survives changes to summaries and
calls that are right. -/
theorem Inv.withTables (h : Inv A s) {summaries : SummaryTable} {ledger : CallLedger}
    {queue : Worklist PathEdge} {callQueue : CallQueue} {retention : Retention} {stage : Stage}
    {stats : Stats} (hqueue : ∀ x ∈ queue.toList, x ∈ s.queue.toList)
    (hsummaries : ∀ p e x d ef, summaries.get? p e x d = some ef →
      SummaryOk A s p e x d ef ∧ Backed A s ⟨x, e, d, ef⟩)
    (hrecords : ∀ c ∈ ledger, RecordOk A s c) (hledger : ledger.Wf)
    (hinto : ∀ e p, ∀ c ∈ ledger.callsInto e p, c ∈ ledger ∧ c.entry = e ∧ c.callee = p)
    (hforward : ∀ a n, ∀ c ∈ ledger.callsFrom a n, c ∈ ledger ∧ c.source = a ∧ c.site = n) :
    Inv A { s with summaries, ledger, queue, callQueue, retention, stage, stats } := by
  have hg : s.Grows { s with summaries, ledger, queue, callQueue, retention, stage, stats } :=
    { State.Grows.refl s with }
  exact {
    toBase := h.toBase.congr rfl rfl rfl rfl rfl
    paths := fun n a b ef hef => (h.paths n a b ef hef).imp fun _ hp => hp.mono hg
    queue := fun x hx => (h.queue x (hqueue x hx)).imp_left fun hp => hp.imp fun _ hp => hp.mono hg
    summaries := fun p e x d ef hef => by
      obtain ⟨hsum, hback⟩ := hsummaries p e x d ef hef
      exact ⟨hsum.mono hg, hback⟩
    records := fun c hc => (hrecords c hc).mono hg
    ledger := hledger
    into := hinto
    forward := hforward
    reached := h.reached
    seeds := h.seeds }

theorem Move.inv (h : Inv A s) (hmove : Move A Z s s') : Inv A s' := by
  cases hmove with
  | quiet hb hq => exact h.of_quiet hb hq
  | path hpath hm _ hstore => exact h.of_storePath hpath hm hstore
  | key _ =>
    exact h.withTables (fun _ hx => hx) h.summaries h.records h.ledger h.into h.forward
  | summary hsum htabled hm _ _ =>
    refine h.withTables (fun _ hx => hx) (fun q e' x' d ef' hef' => ?_) h.records h.ledger h.into
      h.forward
    rw [SummaryTable.get?_insert] at hef'
    split at hef'
    · next hkey =>
      obtain ⟨rfl, rfl, rfl, rfl⟩ := hkey
      obtain rfl := Option.some.inj hef'
      exact ⟨hsum.merged h.toBase (fun ef hef => (h.summaries _ _ _ _ ef hef).1) hm,
        htabled.merged h.toBase (fun ef hef => (h.summaries _ _ _ _ ef hef).2) hm⟩
    · exact h.summaries q e' x' d ef' hef'
  | call hc _ _ _ _ _ =>
    refine h.withTables (fun _ hx => hx) h.summaries (fun c' hc' => ?_) (h.ledger.insert _)
      (fun e p c' hc' => ?_) (fun a n c' hc' => ?_)
    · rcases CallLedger.mem_insert.1 hc' with rfl | hc'
      · exact hc
      · exact h.records c' hc'
    · rw [CallLedger.callsInto_insert h.ledger.toThreaded] at hc'
      exact (h.into e p c' hc').imp_left fun hk => CallLedger.mem_insert.2 (.inr hk)
    · rw [CallLedger.callsFrom_insert h.ledger.toThreaded] at hc'
      exact (h.forward a n c' hc').imp_left fun hk => CallLedger.mem_insert.2 (.inr hk)
  | @link c i t hi hfree hlink _ =>
    obtain ⟨-, hknown, hinto, hforward⟩ := CallLedger.link_spec hlink hi hfree
    have hmem : ∀ c', c' ∈ t ↔ c' ∈ s.ledger := fun c' => by
      rw [CallLedger.mem_iff, CallLedger.mem_iff, hknown]
    have hc : c ∈ t := (hmem c).2 ((h.ledger.known c).2 (List.mem_of_getElem? (by simpa using hi)))
    refine h.withTables (fun _ hx => hx) h.summaries
      (fun c' hc' => h.records c' ((hmem c').1 hc')) (h.ledger.link hlink hi hfree)
      (fun e p c' hc' => ?_) (fun a n c' hc' => ?_)
    · rcases (hinto e p c').1 hc' with ⟨rfl, he, hp⟩ | hc'
      · exact ⟨hc, he, hp⟩
      · exact (h.into e p c' hc').imp_left (hmem c').2
    · rcases (hforward a n c').1 hc' with ⟨-, rfl, ha, hn⟩ | hc'
      · exact ⟨hc, ha, hn⟩
      · exact (h.forward a n c' hc').imp_left (hmem c').2
  | @seed job sp a hsp ha hseed =>
    have hg : s.Grows { s with seeds := s.seeds ++ [job] } := { State.Grows.refl s with }
    exact {
      toBase := h.toBase.congr rfl rfl rfl rfl rfl
      paths := fun n a b ef hef => (h.paths n a b ef hef).imp fun _ hp => hp.mono hg
      queue := fun x hx => (h.queue x hx).imp_left fun hp => hp.imp fun _ hp => hp.mono hg
      summaries := fun p e x d ef hef => by
        obtain ⟨hsum, hback⟩ := h.summaries p e x d ef hef
        exact ⟨hsum.mono hg, hback⟩
      records := fun c hc => (h.records c hc).mono hg
      ledger := h.ledger
      into := h.into
      forward := h.forward
      reached := h.reached
      seeds := fun job' hjob' => by
        rcases List.mem_append.1 hjob' with hjob' | hjob'
        · exact h.seeds job' hjob'
        · rw [List.mem_singleton.1 hjob']
          exact ⟨sp, a, hsp, ha, hseed⟩ }

theorem Moves.inv (h : Inv A s) (hmoves : Moves A Z s s') : Inv A s' := by
  induction hmoves with
  | refl => exact h
  | tail _ hm ih => exact hm.inv ih

theorem Moves.later (h : Inv A s) (hmoves : Moves A Z s s') : Later A s s' := by
  induction hmoves with
  | refl => exact .refl s
  | tail hms hm ih => exact ih.trans (hm.later (Moves.inv h hms).toBase)

/-! ## Summaries along moves -/

/-- A path edge that was taken from the queue. -/
def Taken (s : State D L K) (x : NodeId) (e d : FactId) (ef : EdgeRef) : Prop :=
  s.paths.get? x e d = some ef ∧ ⟨x, e, d, ef⟩ ∉ s.queue.toList

/-- Moves take nothing from the queue. -/
theorem Move.taken {x : NodeId} {e d : FactId} {ef : EdgeRef} (hmove : Move A Z s s')
    (h : Taken s' x e d ef) : Taken s x e d ef := by
  cases hmove with
  | quiet _ hq => exact ⟨hq.paths ▸ h.1, hq.queue ▸ h.2⟩
  | path _ _ _ hstore =>
    obtain ⟨hef, hx⟩ := h
    rw [hstore.queue, Worklist.toList_push, List.mem_append, List.mem_singleton, not_or] at hx
    rw [hstore.paths, PathTable.get?_insert] at hef
    split at hef
    · next hkey =>
      obtain ⟨rfl, rfl, rfl⟩ := hkey
      obtain rfl := Option.some.inj hef
      exact absurd rfl hx.2
    · exact ⟨hef, hx.1⟩
  | key _ => exact h
  | summary _ _ _ _ _ => exact h
  | call _ _ _ _ _ _ => exact h
  | link _ _ _ _ => exact h
  | seed _ _ _ => exact h

theorem Moves.taken {x : NodeId} {e d : FactId} {ef : EdgeRef} (hmoves : Moves A Z s s')
    (h : Taken s' x e d ef) : Taken s x e d ef := by
  induction hmoves with
  | refl => exact h
  | tail _ hm ih => exact ih (hm.taken h)

/-- Exit points with path edges are known. -/
theorem LeavesAt.of_grows (hA : Scope A) (h : Inv A s) (hs : s'.procs.Wf) (hg : s.Grows s')
    {p : ProcId} {x : NodeId} {e d : FactId} {ef : EdgeRef} (hef : s.paths.get? x e d = some ef)
    (hl : LeavesAt A s' p x) : LeavesAt A s p x := by
  obtain ⟨q, exit, hp, hx, hexit, hno⟩ := hl
  obtain ⟨p', node, proc, _, _, hpath⟩ := h.paths x e d ef hef
  obtain rfl := Option.some.inj ((hg.nodes _ _ hpath.hasNode).symm.trans hx)
  obtain rfl := Except.ok.inj (((Supergraph.exitOf_iff hA.graph).1 hexit).1.symm.trans hpath.procOf)
  obtain rfl : p = p' := congrArg ProcId.mk
    (Interner.get?_inj hs hp (hg.procs _ _ hpath.hasProc))
  exact ⟨q, node, hpath.hasProc, hpath.hasNode, hexit, hno⟩

/-- As long as the summary table stays, moves add no summaries. -/
theorem Moves.summary (hA : Scope A) (h : Inv A s) (hmoves : Moves A Z s s') {p : ProcId}
    {e : FactId} {x : NodeId} {d : FactId} {ef : EdgeRef}
    (hsame : s'.summaries.get? p e x d = some ef → s.summaries.get? p e x d = some ef)
    (hs : Summary A s' p e x d ef) : Summary A s p e x d ef := by
  cases hs with
  | table hu hef => exact .table hu (hsame hef)
  | path hu hl hef hx =>
    obtain ⟨hef', hx'⟩ := hmoves.taken ⟨hef, hx⟩
    exact .path hu (hl.of_grows hA h (Moves.inv h hmoves).procs hmoves.grows hef') hef' hx'

end Tabulation
