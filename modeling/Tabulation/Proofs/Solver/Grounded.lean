import Tabulation.Proofs.EdgeStore.Regular
import Tabulation.Proofs.Solver.LookUp
import Tabulation.Proofs.Solver.Quiet

/-!
# States in which everything is accounted for

`Grounded` says that no table of a run mentions anything that does not exist: numbers stand for
nodes, facts and procedures, and handles of edge functions are alive. In contrast to `Inv`, nothing
is said about what the entries mean, so no law of lattices or payloads is needed, and it holds in
every configuration.

**Facts.** The facts of a run stay in any set `F` that holds the zero fact and the seeds and that
all flow functions keep, `Confined`.

**Effects.** Propagation changes the state by a few kinds of effects, `Effect`: the moves of
propagation without the reasons for them. An invariant is shown once for all effects,
`Effects.grounded`.
-/

namespace Tabulation

variable {D L K : Type} {A : Analysis D L K} {F : D → Prop}

/-! ## Sets of facts -/

section Facts

variable [DecidableEq D]

/-- The function leads from facts in `F` to facts in `F`. -/
def FlowFunction.Keeps (F : D → Prop) (f : FlowFunction D) : Prop :=
  ∀ d, F d → ∀ t ∈ f.targets d, F t

/-- The zero fact and the seeds are in `F`, and no flow function leaves it. -/
structure Analysis.Confined (A : Analysis D L K) (F : D → Prop) : Prop where
  zero : F A.problem.zero
  seeds : ∀ x ∈ A.problem.seeds.toList, F x.2.1
  normalFlow : ∀ node succ, (A.problem.normalFlow node succ).Keeps F
  callFlow : ∀ site callee, (A.problem.callFlow site callee).Keeps F
  returnFlow : ∀ site callee exit ret, (A.problem.returnFlow site callee exit ret).Keeps F
  bypassFlow : ∀ site ret callees, (A.problem.bypassFlow site ret callees).Keeps F
  summaryFlow : ∀ site callee, ∀ f ∈ A.problem.summaryFlow site callee, f.Keeps F

/-- Every set of all facts will do. -/
theorem Analysis.confined_true (A : Analysis D L K) : A.Confined fun _ => True := by
  constructor <;> intros
  case zero => trivial
  case seeds => trivial
  all_goals exact fun _ _ _ _ => trivial

theorem FlowFunction.Keeps.identity (F : D → Prop) : FlowFunction.identity.Keeps F :=
  fun _ hd _ ht => List.mem_singleton.1 ht ▸ hd

/-- Where all flows are the identity, a set with the zero fact and the facts of the seeds will
do. -/
theorem Analysis.confined_of_identity (hzero : F A.problem.zero)
    (hseeds : ∀ x ∈ A.problem.seeds.toList, F x.2.1)
    (hnormal : ∀ node succ, A.problem.normalFlow node succ = .identity)
    (hcall : ∀ site callee, A.problem.callFlow site callee = .identity)
    (hreturn : ∀ site callee exit ret, A.problem.returnFlow site callee exit ret = .identity)
    (hbypass : ∀ site ret callees, A.problem.bypassFlow site ret callees = .identity)
    (hsummary : ∀ site callee, A.problem.summaryFlow site callee = none) : A.Confined F where
  zero := hzero
  seeds := hseeds
  normalFlow node succ := hnormal node succ ▸ .identity F
  callFlow site callee := hcall site callee ▸ .identity F
  returnFlow site callee exit ret := hreturn site callee exit ret ▸ .identity F
  bypassFlow site ret callees := hbypass site ret callees ▸ .identity F
  summaryFlow site callee f hf := by
    rw [hsummary site callee] at hf
    cases hf

theorem Analysis.Confined.targets (h : A.Confined F) {f : FlowFunction D} (hf : f.Keeps F) {d : D}
    (hd : F d) : ∀ t ∈ A.targets f d, F t := by
  intro t ht
  unfold Analysis.targets Answers.targets at ht
  dsimp only at ht
  split at ht
  · rcases List.mem_append.1 ht with ht | ht
    · exact hf d hd t ht
    · rw [List.mem_singleton.1 ht]
      exact h.zero
  · exact hf d hd t ht

end Facts

variable [Ord L] [Ord K]

/-! ## Added labels -/

section Labels

variable [JoinLattice L] [DecidableEq L] [Payload K L]

/-- The label that results when `e` is added to an old label, if that changes it. -/
inductive Relabels (A : Analysis D L K) (st : EdgeStore L K) (e : EdgeRef) :
    Option EdgeRef → EdgeRef → Prop
  | new : Relabels A st e none e
  | join {old ef : EdgeRef} : A.config.computeValues = true → st.Alive old →
      st.Joined (EdgeStore.joinKey old e).1 (EdgeStore.joinKey old e).2 ef → ef ≠ old →
      Relabels A st e (some old) ef

/-- A new label is alive if what is added is. -/
theorem Relabels.alive {st : EdgeStore L K} (hst : st.Regular) {e ef : EdgeRef}
    {old : Option EdgeRef} (h : Relabels A st e old ef) (he : st.Alive e) : st.Alive ef := by
  cases h with
  | new => exact he
  | @join o _ _ ho hj _ =>
    have hkey : st.Alive (EdgeStore.joinKey o e).1 ∧ st.Alive (EdgeStore.joinKey o e).2 := by
      unfold EdgeStore.joinKey
      split
      · exact ⟨ho, he⟩
      · exact ⟨he, ho⟩
    exact hj.alive hst hkey.1 hkey.2

end Labels

/-! ## Numbers in use -/

variable [Ord D] {s s' s'' : State D L K}

/-- The numbers of a path edge are in use, and its handle is alive. -/
structure PathEdge.Grounded (s : State D L K) (x : PathEdge) : Prop where
  node : ∃ y, s.HasNode x.node y
  source : ∃ y, s.HasFact x.source y
  target : ∃ y, s.HasFact x.target y
  edge : s.store.Alive x.edge

theorem PathEdge.Grounded.mono {x : PathEdge} (h : x.Grounded s) (hg : s.Grows s') :
    x.Grounded s' :=
  ⟨h.node.imp fun _ => hg.nodes _ _, h.source.imp fun _ => hg.facts _ _,
    h.target.imp fun _ => hg.facts _ _, h.edge.mono hg.store⟩

/-- The numbers of a recorded call are in use, and its handle is alive. -/
structure CallRecord.Grounded (s : State D L K) (c : CallRecord) : Prop where
  site : ∃ y, s.HasNode c.site y
  callee : ∃ y, s.HasProc c.callee y
  source : ∃ y, s.HasFact c.source y
  entry : ∃ y, s.HasFact c.entry y
  edge : s.store.Alive c.edge

theorem CallRecord.Grounded.mono {c : CallRecord} (h : c.Grounded s) (hg : s.Grows s') :
    c.Grounded s' :=
  ⟨h.site.imp fun _ => hg.nodes _ _, h.callee.imp fun _ => hg.procs _ _,
    h.source.imp fun _ => hg.facts _ _, h.entry.imp fun _ => hg.facts _ _, h.edge.mono hg.store⟩

/-- A packed key of changed summaries names a procedure. -/
def KeyGrounded (s : State D L K) (key : UInt64) : Prop := ∃ y, s.HasProc ⟨(unpack key).2⟩ y

theorem KeyGrounded.mono {key : UInt64} (h : KeyGrounded s key) (hg : s.Grows s') :
    KeyGrounded s' key := h.imp fun _ => hg.procs _ _

/-- The state after a path edge of a procedure was stored and queued. -/
def State.withPath (A : Analysis D L K) (x : PathEdge) (p : ProcId) (reached : Std.TreeSet UInt64)
    (s : State D L K) : State D L K :=
  let alive := if (s.paths.get? x.node x.source x.target).isNone then s.alive + 1 else s.alive
  { s with
    paths := (s.paths.insert x.node x.source x.target x.edge).2
    alive
    reached
    stats := s.stats.pathEdgeStored alive
    queue := s.queue.push x
    retention := if A.config.gcMode.isEnabled then s.retention.retain p else s.retention }

theorem State.grows_withPath {x : PathEdge} {p : ProcId} {reached : Std.TreeSet UInt64} :
    s.Grows (s.withPath A x p reached) := by
  refine { State.Grows.refl s with paths := fun n a b ef hef => ?_ }
  show ∃ ef', (s.paths.insert x.node x.source x.target x.edge).2.get? n a b = some ef'
  rw [PathTable.get?_insert]
  split
  · exact ⟨_, rfl⟩
  · exact ⟨ef, hef⟩

/-! ## Remembered answers -/

variable [DecidableEq D]

/-- Remembered flow functions keep `F`, and remembered handles are alive. -/
structure AnswersGrounded (A : Analysis D L K) (F : D → Prop) (s : State D L K) : Prop where
  zero : s.answers.zero = A.problem.zero
  autoAddZero : s.answers.autoAddZero = A.config.autoAddZero
  normalFlow : s.answers.normalFlows.Holds fun _ f => f.Keeps F
  callFlow : s.answers.callFlows.Holds fun _ f => f.Keeps F
  returnFlow : s.answers.returnFlows.Holds fun _ f => f.Keeps F
  bypassFlow : s.answers.bypassFlows.Holds fun _ f => f.Keeps F
  summaryFlow : s.answers.summaryFlows.Holds fun _ o => ∀ f ∈ o, f.Keeps F
  normalEdge : s.answers.normalEdges.Holds fun _ ef => s.store.Alive ef
  callEdge : s.answers.callEdges.Holds fun _ ef => s.store.Alive ef
  returnEdge : s.answers.returnEdges.Holds fun _ ef => s.store.Alive ef
  bypassEdge : s.answers.bypassEdges.Holds fun _ ef => s.store.Alive ef
  summaryEdge : s.answers.summaryEdges.Holds fun _ ef => s.store.Alive ef

theorem AnswersGrounded.mono (h : AnswersGrounded A F s) (hs : s.store ≤ s'.store)
    (ha : s'.answers = s.answers) : AnswersGrounded A F s' where
  zero := ha ▸ h.zero
  autoAddZero := ha ▸ h.autoAddZero
  normalFlow := ha ▸ h.normalFlow
  callFlow := ha ▸ h.callFlow
  returnFlow := ha ▸ h.returnFlow
  bypassFlow := ha ▸ h.bypassFlow
  summaryFlow := ha ▸ h.summaryFlow
  normalEdge := ha ▸ h.normalEdge.imp fun _ _ he => he.mono hs
  callEdge := ha ▸ h.callEdge.imp fun _ _ he => he.mono hs
  returnEdge := ha ▸ h.returnEdge.imp fun _ _ he => he.mono hs
  bypassEdge := ha ▸ h.bypassEdge.imp fun _ _ he => he.mono hs
  summaryEdge := ha ▸ h.summaryEdge.imp fun _ _ he => he.mono hs

theorem AnswersGrounded.withStore (h : AnswersGrounded A F s) {st : EdgeStore L K}
    (hle : s.store ≤ st) : AnswersGrounded A F { s with store := st } := h.mono hle rfl

/-! ## Grounded states -/

variable [JoinLattice L] [DecidableEq L] [Payload K L]

/-- Names, stored functions and remembered answers are in order. -/
structure Basis (A : Analysis D L K) (F : D → Prop) (s : State D L K) : Prop where
  nodes : s.nodes.Wf
  facts : s.facts.Wf
  procs : s.procs.Wf
  known : ∀ n x, s.HasNode n x → A.graph.Known x
  inside : ∀ d x, s.HasFact d x → F x
  declared : ∀ x, x ∈ A.graph.procNames ↔ ∃ p, s.HasProc p x
  store : s.store.Regular
  joinLimit : s.store.joinLimit = A.config.joinLimit
  answers : AnswersGrounded A F s

/-- Everything that the tables of a run mention exists. -/
structure Grounded (A : Analysis D L K) (F : D → Prop) (s : State D L K) : Prop
    extends Basis A F s where
  paths : ∀ n a b ef, s.paths.get? n a b = some ef → PathEdge.Grounded s ⟨n, a, b, ef⟩
  rows : s.paths.Wf
  queue : ∀ x ∈ s.queue.toList, x.Grounded s
  summaries : ∀ p e x d ef, s.summaries.get? p e x d = some ef →
    (∃ y, s.HasFact d y) ∧ s.store.Alive ef
  ledger : s.ledger.Wf
  records : ∀ c ∈ s.ledger, c.Grounded s
  callsInto : ∀ e p, ∀ c ∈ s.ledger.callsInto e p, c ∈ s.ledger ∧ c.callee = p
  callsFrom : ∀ a n, ∀ c ∈ s.ledger.callsFrom a n, c ∈ s.ledger
  keys : ∀ key ∈ s.callQueue.keys, KeyGrounded s key
  replayed : ∀ keys, s.stage = .replay keys → ∀ key ∈ keys, KeyGrounded s key
  candidates : ∀ i ∈ s.retention.candidates, ∃ p : ProcId, p.index = i ∧ ∃ y, s.HasProc p y

/-- Names, stored functions and answers are all that the basis speaks of. -/
theorem Basis.congr (h : Basis A F s) (hn : s'.nodes = s.nodes) (hd : s'.facts = s.facts)
    (hp : s'.procs = s.procs) (hs : s'.store = s.store) (ha : s'.answers = s.answers) :
    Basis A F s' where
  nodes := hn ▸ h.nodes
  facts := hd ▸ h.facts
  procs := hp ▸ h.procs
  known n x hx := h.known n x (by rwa [State.HasNode, hn] at hx)
  inside d x hx := h.inside d x (by rwa [State.HasFact, hd] at hx)
  declared x := by
    rw [h.declared]
    simp only [State.HasProc, hp]
  store := hs ▸ h.store
  joinLimit := hs ▸ h.joinLimit
  answers := h.answers.mono (hs ▸ EdgeStore.le_refl _) ha

/-- A store that grew in place of the old one. -/
theorem Basis.withStore (hb : Basis A F s) {st : EdgeStore L K} (hst : st.Regular)
    (hle : s.store ≤ st) : Basis A F { s with store := st } :=
  { hb with
    store := hst
    joinLimit := hle.2.1.trans hb.joinLimit
    answers := hb.answers.withStore hle }

/-- What tables mention in a grown state was there before, or is accounted for. -/
theorem Grounded.grow (h : Grounded A F s) (hb : Basis A F s') (hg : s.Grows s')
    (hpaths : ∀ n a b ef, s'.paths.get? n a b = some ef →
      s.paths.get? n a b = some ef ∨ PathEdge.Grounded s' ⟨n, a, b, ef⟩)
    (hrows : s'.paths.Wf)
    (hqueue : ∀ x ∈ s'.queue.toList, x ∈ s.queue.toList ∨ x.Grounded s')
    (hsummaries : ∀ p e x d ef, s'.summaries.get? p e x d = some ef →
      s.summaries.get? p e x d = some ef ∨ (∃ y, s'.HasFact d y) ∧ s'.store.Alive ef)
    (hledger : s'.ledger.Wf) (hrecords : ∀ c ∈ s'.ledger, c ∈ s.ledger ∨ c.Grounded s')
    (hinto : ∀ e p, ∀ c ∈ s'.ledger.callsInto e p, c ∈ s'.ledger ∧ c.callee = p)
    (hfrom : ∀ a n, ∀ c ∈ s'.ledger.callsFrom a n, c ∈ s'.ledger)
    (hkeys : ∀ key ∈ s'.callQueue.keys, key ∈ s.callQueue.keys ∨ KeyGrounded s' key)
    (hstage : ∀ keys, s'.stage = .replay keys → ∀ key ∈ keys, KeyGrounded s' key)
    (hcandidates : ∀ i ∈ s'.retention.candidates, i ∈ s.retention.candidates ∨
      ∃ p : ProcId, p.index = i ∧ ∃ y, s'.HasProc p y) : Grounded A F s' where
  toBasis := hb
  paths n a b ef hef := (hpaths n a b ef hef).elim (fun h' => (h.paths n a b ef h').mono hg) id
  rows := hrows
  queue x hx := (hqueue x hx).elim (fun h' => (h.queue x h').mono hg) id
  summaries p e x d ef hef := by
    rcases hsummaries p e x d ef hef with h' | h'
    · obtain ⟨hd, ha⟩ := h.summaries p e x d ef h'
      exact ⟨hd.imp fun _ => hg.facts _ _, ha.mono hg.store⟩
    · exact h'
  ledger := hledger
  records c hc := (hrecords c hc).elim (fun h' => (h.records c h').mono hg) id
  callsInto := hinto
  callsFrom := hfrom
  keys key hk := (hkeys key hk).elim (fun h' => (h.keys key h').mono hg) id
  replayed := hstage
  candidates i hi := by
    rcases hcandidates i hi with h' | h'
    · obtain ⟨p, hp, y, hy⟩ := h.candidates i h'
      exact ⟨p, hp, y, hg.procs _ _ hy⟩
    · exact h'

/-- A change that leaves the tables alone. -/
theorem Grounded.frame (h : Grounded A F s) (hb : Basis A F s') (hg : s.Grows s')
    (hpaths : s'.paths = s.paths) (hqueue : s'.queue = s.queue)
    (hsummaries : s'.summaries = s.summaries) (hledger : s'.ledger = s.ledger)
    (hkeys : s'.callQueue = s.callQueue) (hstage : s'.stage = s.stage)
    (hcandidates : s'.retention.candidates = s.retention.candidates) : Grounded A F s' := by
  refine h.grow hb hg ?_ ?_ ?_ ?_ ?_ ?_ ?_ ?_ ?_ ?_ ?_
  · rw [hpaths]; exact fun _ _ _ _ hef => .inl hef
  · rw [hpaths]; exact h.rows
  · rw [hqueue]; exact fun _ hx => .inl hx
  · rw [hsummaries]; exact fun _ _ _ _ _ hef => .inl hef
  · rw [hledger]; exact h.ledger
  · rw [hledger]; exact fun _ hc => .inl hc
  · rw [hledger]; exact h.callsInto
  · rw [hledger]; exact h.callsFrom
  · rw [hkeys]; exact fun _ hk => .inl hk
  · rw [hstage]; exact fun keys hks key hk => (h.replayed keys hks key hk).mono hg
  · rw [hcandidates]; exact fun _ hi => .inl hi

/-- Candidates were taken out, and counts changed. -/
theorem Grounded.withRetention (h : Grounded A F s) {r : Retention}
    (hr : ∀ i ∈ r.candidates, i ∈ s.retention.candidates) :
    Grounded A F { s with retention := r } :=
  h.grow (h.toBasis.congr rfl rfl rfl rfl rfl) { State.Grows.refl s with }
    (fun _ _ _ _ hef => .inl hef) h.rows (fun _ hx => .inl hx) (fun _ _ _ _ _ hef => .inl hef)
    h.ledger (fun _ hc => .inl hc) h.callsInto h.callsFrom (fun _ hk => .inl hk) h.replayed
    (fun i hi => .inl (hr i hi))

/-! ## Effects -/

/-- What propagation does to the state. -/
inductive Effect (A : Analysis D L K) (F : D → Prop) : State D L K → State D L K → Prop
  | quiet {s s' : State D L K} : Basis A F s' → Quiet s s' → s'.alive = s.alive →
      s'.stats.pathEdges = s.stats.pathEdges → s'.answers = s.answers ∨ LookUp A s s' →
      Effect A F s s'
  | path {s : State D L K} {x : PathEdge} {p : ProcId} {e : EdgeRef}
      {reached : Std.TreeSet UInt64} : PathEdge.Grounded s { x with edge := e } →
      InProc A s x.node p →
      Relabels A s.store e (s.paths.get? x.node x.source x.target) x.edge →
      (∀ key, reached.contains key = true →
        s.reached.contains key = true ∨ key = pack x.node.val x.target.val) →
      Effect A F s (s.withPath A x p reached)
  | key {s : State D L K} {p : ProcId} {a : FactId} : (∃ y, s.HasProc p y) →
      Effect A F s { s with callQueue := (s.callQueue.insert (pack a.val p.val)).2 }
  | summary {s : State D L K} {p : ProcId} {a : FactId} {x : NodeId} {b : FactId}
      {e ef : EdgeRef} : (∃ y, s.HasFact b y) → s.store.Alive e →
      Relabels A s.store e (s.summaries.get? p a x b) ef →
      Effect A F s { s with summaries := (s.summaries.insert p a x b ef).2 }
  | call {s : State D L K} {c : CallRecord} : c.Grounded s →
      Effect A F s { s with ledger := (s.ledger.insert c).2 }
  | link {s : State D L K} {c : CallRecord} {i : Nat} {t : CallLedger} :
      s.ledger.records[i]? = some c → s.ledger.Linkable i →
      s.ledger.link i A.config.computeValues = .ok t → Effect A F s { s with ledger := t }
  | seed {s : State D L K} {job : ValueJob L} : (∃ y, s.HasNode job.node y) →
      (∃ y, s.HasFact job.fact y) → Effect A F s { s with seeds := s.seeds ++ [job] }

/-- Any number of effects. -/
abbrev Effects (A : Analysis D L K) (F : D → Prop) : State D L K → State D L K → Prop :=
  Relation.ReflTransGen (Effect A F)

theorem Effects.trans (h : Effects A F s s') (k : Effects A F s' s'') : Effects A F s s'' :=
  Relation.ReflTransGen.trans h k

theorem Effect.grows (h : Effect A F s s') : s.Grows s' := by
  cases h with
  | quiet _ hq _ _ _ => exact hq.grows
  | path _ _ _ _ => exact State.grows_withPath
  | key _ => exact { State.Grows.refl s with }
  | summary _ _ _ => exact { State.Grows.refl s with }
  | call _ => exact { State.Grows.refl s with }
  | link _ _ _ => exact { State.Grows.refl s with }
  | seed _ _ => exact { State.Grows.refl s with }

theorem Effects.grows (h : Effects A F s s') : s.Grows s' := by
  induction h with
  | refl => exact .refl s
  | tail _ he ih => exact ih.trans he.grows

theorem Effect.grounded (h : Grounded A F s) (he : Effect A F s s') : Grounded A F s' := by
  have hg := he.grows
  have hreplay : s'.stage = s.stage → ∀ keys, s'.stage = .replay keys →
      ∀ key ∈ keys, KeyGrounded s' key := fun hst keys hks key hk =>
    (h.replayed keys (hst ▸ hks) key hk).mono hg
  cases he with
  | quiet hb hq _ _ _ =>
    exact h.frame hb hg hq.paths hq.queue hq.summaries hq.ledger hq.callQueue hq.stage
      (congrArg _ hq.retention)
  | @path x p e reached hx hp hrel _ =>
    have hx' : x.Grounded s := { hx with edge := hrel.alive h.store hx.edge }
    refine h.grow (h.toBasis.congr rfl rfl rfl rfl rfl) hg (fun n a b ef hef => ?_) h.rows.insert
      (fun y hy => ?_) (fun _ _ _ _ _ hef => .inl hef) h.ledger (fun _ hc => .inl hc) h.callsInto
      h.callsFrom (fun _ hk => .inl hk) (hreplay rfl) (fun i hi => ?_)
    · change (s.paths.insert x.node x.source x.target x.edge).2.get? n a b = some ef at hef
      rw [PathTable.get?_insert] at hef
      split at hef
      · next hkey =>
        obtain ⟨rfl, rfl, rfl⟩ := hkey
        rw [← Option.some.inj hef]
        exact .inr (hx'.mono hg)
      · exact .inl hef
    · change y ∈ (s.queue.push x).toList at hy
      rw [Worklist.toList_push] at hy
      rcases List.mem_append.1 hy with hy | hy
      · exact .inl hy
      · rw [List.mem_singleton.1 hy]
        exact .inr (hx'.mono hg)
    · change i ∈ (if A.config.gcMode.isEnabled then s.retention.retain p
        else s.retention).candidates at hi
      split at hi
      · rcases Retention.mem_candidates_retain.1 hi with rfl | hi
        · exact .inr ⟨p, rfl, hp.hasProc⟩
        · exact .inl hi
      · exact .inl hi
  | @key p a hp =>
    refine h.grow (h.toBasis.congr rfl rfl rfl rfl rfl) hg (fun _ _ _ _ hef => .inl hef)
      h.rows (fun _ hx => .inl hx) (fun _ _ _ _ _ hef => .inl hef) h.ledger (fun _ hc => .inl hc)
      h.callsInto h.callsFrom (fun k hk => ?_) (hreplay rfl) (fun _ hi => .inl hi)
    rcases CallQueue.mem_insert.1 hk with rfl | hk
    · refine .inr (KeyGrounded.mono ?_ hg)
      rw [KeyGrounded, unpack_pack]
      exact hp
    · exact .inl hk
  | @summary p a x b e ef hb he hrel =>
    refine h.grow (h.toBasis.congr rfl rfl rfl rfl rfl) hg (fun _ _ _ _ hef => .inl hef)
      h.rows (fun _ hx => .inl hx) (fun q e' x' d ef' hef => ?_) h.ledger (fun _ hc => .inl hc)
      h.callsInto h.callsFrom (fun _ hk => .inl hk) (hreplay rfl) (fun _ hi => .inl hi)
    change (s.summaries.insert p a x b ef).2.get? q e' x' d = some ef' at hef
    rw [SummaryTable.get?_insert] at hef
    split at hef
    · next hkey =>
      obtain ⟨-, -, -, rfl⟩ := hkey
      rw [← Option.some.inj hef]
      exact .inr ⟨hb, hrel.alive h.store he⟩
    · exact .inl hef
  | @call c hc =>
    have hmem : ∀ c', c' ∈ s.ledger → c' ∈ (s.ledger.insert c).2 := fun c' hc' =>
      CallLedger.mem_insert.2 (.inr hc')
    refine h.grow (h.toBasis.congr rfl rfl rfl rfl rfl) hg (fun _ _ _ _ hef => .inl hef)
      h.rows (fun _ hx => .inl hx) (fun _ _ _ _ _ hef => .inl hef) (h.ledger.insert c)
      (fun c' hc' => ?_) (fun e p c' hc' => ?_) (fun a n c' hc' => ?_) (fun _ hk => .inl hk)
      (hreplay rfl)
      (fun _ hi => .inl hi)
    · rcases CallLedger.mem_insert.1 hc' with rfl | hc'
      · exact .inr (hc.mono hg)
      · exact .inl hc'
    · change c' ∈ (s.ledger.insert c).2.callsInto e p at hc'
      rw [CallLedger.callsInto_insert h.ledger.toThreaded] at hc'
      exact (h.callsInto e p c' hc').imp_left (hmem c')
    · change c' ∈ (s.ledger.insert c).2.callsFrom a n at hc'
      rw [CallLedger.callsFrom_insert h.ledger.toThreaded] at hc'
      exact hmem c' (h.callsFrom a n c' hc')
  | @link c i t hi hfree hlink =>
    obtain ⟨-, hknown, hinto, hfrom⟩ := CallLedger.link_spec hlink hi hfree
    have hmem : ∀ c', c' ∈ t ↔ c' ∈ s.ledger := fun c' => by
      rw [CallLedger.mem_iff, CallLedger.mem_iff, hknown]
    have hc : c ∈ s.ledger := (h.ledger.known c).2 (List.mem_iff_getElem?.2 ⟨i, by simpa using hi⟩)
    refine h.grow (h.toBasis.congr rfl rfl rfl rfl rfl) hg (fun _ _ _ _ hef => .inl hef)
      h.rows (fun _ hx => .inl hx) (fun _ _ _ _ _ hef => .inl hef) (h.ledger.link hlink hi hfree)
      (fun c' hc' => .inl ((hmem c').1 hc')) (fun e p c' hc' => And.imp_left (hmem c').2 ?_)
      (fun a n c' hc' => (hmem c').2 ?_) (fun _ hk => .inl hk) (hreplay rfl) (fun _ hi => .inl hi)
    · rcases (hinto e p c').1 hc' with ⟨rfl, -, hp⟩ | hc'
      · exact ⟨hc, hp⟩
      · exact h.callsInto e p c' hc'
    · rcases (hfrom a n c').1 hc' with ⟨-, rfl, -⟩ | hc'
      · exact hc
      · exact h.callsFrom a n c' hc'
  | seed _ _ => exact h.frame (h.toBasis.congr rfl rfl rfl rfl rfl) hg rfl rfl rfl rfl rfl rfl rfl

theorem Effects.grounded (h : Grounded A F s) (he : Effects A F s s') : Grounded A F s' := by
  induction he with
  | refl => exact h
  | tail _ he ih => exact he.grounded ih

/-- Counters other than that of stored path edges may change. -/
theorem Effects.withStats (hs : Grounded A F s) (he : Effects A F s s') (stats : Stats)
    (hstats : stats.pathEdges = s'.stats.pathEdges) : Effects A F s { s' with stats } :=
  he.trans (.single (.quiet ((he.grounded hs).toBasis.congr rfl rfl rfl rfl rfl)
    { Quiet.refl s' with } rfl hstats (.inl rfl)))

theorem Effects.stage (he : Effects A F s s') : s'.stage = s.stage := by
  induction he with
  | refl => rfl
  | tail _ he ih =>
    cases he with
    | quiet _ hq _ _ _ => exact hq.stage.trans ih
    | _ => exact ih

end Tabulation
