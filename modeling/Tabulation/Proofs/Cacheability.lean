import Tabulation.EdgeFunction.PeakMap
import Tabulation.Proofs.MaskMap
import Tabulation.Proofs.Termination

/-!
# Termination and cacheable payloads

A label has settled when joining something into it gives the same handle again. With finitely many
values and payloads this happens after finitely many changes if all joins of payloads are cacheable,
`terminates_of_cacheable_joins`.

**New handles.** A payload that is not cacheable gets a new handle whenever it is stored, so a label
that is such a payload never settles, even if the payload is its own composition and its own join.

**Loops.** `Whirl` is an edge from a node to itself along which a fact is kept and such a payload is
applied. Once the payload is the label of the fact at that node, every move takes the path edge from
the queue, composes and joins it anew, and puts it back: `run_whirl`.
-/

namespace Tabulation

variable {D L K : Type} [Ord D] [Ord L] [Ord K]

/-- A payload that is not cacheable, and that is its own composition and its own join. -/
structure Scratch (L : Type) {K : Type} [Payload K L] (k : K) : Prop where
  constant : Payload.constant? (L := L) k = none
  cacheable : Payload.cacheable L k = false
  compose : Payload.compose? L k k = some k
  join : Payload.join? L k k = some k

/-! ## Cacheable joins -/

open Solver in
/-- Fact propagation with finitely many facts, values and payloads comes to an end, if joins of
payloads are ordered and the answers of the client to joins are cacheable.

An answer must also not be constantly `top`. It would be stored as the unit of joins, and the next
join would take the label back to where it was. -/
theorem terminates_of_cacheable_joins [Finite L] [Finite K] [DecidableEq D] [JoinLattice L]
    [LawfulJoin L] [DecidableEq L] [Payload K L] [Std.TransOrd D] [Std.LawfulEqOrd D]
    [Std.TransOrd L] [Std.LawfulEqOrd L] [Std.TransOrd K] [Std.LawfulEqOrd K]
    (A : Analysis D L K) (hgraph : A.graph.Built) (hgc : A.config.gcMode = .disabled)
    (hseeds : ∀ x ∈ A.problem.seeds.toList, A.graph.Known x.1) (facts : Finset D)
    (hfacts : A.Confined (· ∈ facts)) (hordered : OrderedJoins L K)
    (hjoin : ∀ {f g k : K}, Payload.constant? (L := L) f = none →
      Payload.constant? (L := L) g = none → Payload.join? L f g = some k →
      Payload.cacheable L k = true ∧ Payload.constant? k ≠ some (top : L))
    {s₀ : State D L K} (hcreate : create A = .ok s₀) : Terminates A facts s₀ := by
  have := Fintype.ofFinite L
  have := Fintype.ofFinite K
  have hG := graded_level (A := A) (Scale.ofFinite hordered hjoin) (two_le_joinLimit hcreate)
  exact hG.terminates hgraph hgc hseeds hfacts hcreate

namespace Capping

/-- A procedure with two ways to its last node, which goes around in it. -/
def graph : Except Fault Supergraph := Supergraph.ofSteps
  [.proc "main" ["a", "b", "c"], .edge "a" "b", .edge "a" "c", .edge "b" "c", .edge "c" "c"]

/-- The direct way to the last node caps at 1, the other one at 2. -/
def problem : Problem Nat Peak PeakMap where
  zero := 0
  seeds := Seeds.empty.add "a" 0 ⟨5⟩
  normalFlow _ _ := .identity
  callFlow _ _ := .identity
  returnFlow _ _ _ _ := .identity
  bypassFlow _ _ _ := .identity
  normalEdge x _ y _ := .custom (.cap (if x = "a" ∧ y = "c" then 1 else 2))

def analysis (g : Supergraph) : Analysis Nat Peak PeakMap := ⟨problem, g, {}⟩

theorem confined (g : Supergraph) : (analysis g).Confined (· ∈ ({0} : Finset Nat)) := by
  refine Analysis.confined_of_identity (Finset.mem_singleton_self 0) (fun x hx => ?_)
    (fun _ _ => rfl) (fun _ _ => rfl) (fun _ _ _ _ => rfl) (fun _ _ _ => rfl) fun _ _ => rfl
  exact List.mem_singleton.1 hx ▸ Finset.mem_singleton_self 0

instance : Finite Peak := .of_injective Peak.val fun a b h => by
  cases a
  cases b
  exact congrArg Peak.mk h

instance : Finite PeakMap := .of_injective (fun m => (m.rank == 0, m.number)) fun a b h => by
  cases a <;> cases b <;> simp_all [PeakMap.rank, PeakMap.number]

theorem toInt_greater (a b : Int64) :
    (PeakMap.greater a b).toInt = max a.toInt b.toInt := by
  simp only [PeakMap.greater, Int64.le_iff_toInt_le]
  split <;> omega

theorem orderedJoins : OrderedJoins Peak PeakMap where
  comm f g := by
    cases f <;> cases g <;> try rfl
    refine congrArg (fun c => some (PeakMap.cap c)) (Int64.toInt_inj.1 ?_)
    rw [toInt_greater, toInt_greater, max_comm]
  assoc {f g h x y} hx hy := by
    cases f <;> cases g <;> cases hx
    cases h <;> cases hy
    refine ⟨_, rfl, congrArg (fun c => some (PeakMap.cap c)) (Int64.toInt_inj.1 ?_)⟩
    simp only [toInt_greater, max_assoc]
  idem {f k} hk := by
    cases f <;> cases hk
    refine congrArg PeakMap.cap (Int64.toInt_inj.1 ?_)
    rw [toInt_greater, max_self]

end Capping

open Solver in
/-- The two caps are joined in the last node. -/
theorem terminates_of_cacheable_joins_capping :
    ∃ g s₀ s, Capping.graph = .ok g ∧ create (Capping.analysis g) = .ok s₀ ∧
      Terminates (Capping.analysis g) {0} s₀ ∧ run (Capping.analysis g) 20 s₀ = .ok s ∧
      s.stats.pathEdges = 4 := by
  have hrun : (do
      let g ← Capping.graph
      let s₀ ← create (Capping.analysis g)
      let s ← run (Capping.analysis g) 20 s₀
      return (g.procOf "a", s.stats.pathEdges)) = .ok (.ok "main", 4) := by
    decide +kernel
  simp only [bind_eq_ok, pure_eq_ok, Prod.mk.injEq] at hrun
  obtain ⟨g, hg, s₀, hcreate, s, hs, hproc, hedges⟩ := hrun
  have hseeds : ∀ x ∈ Capping.problem.seeds.toList, g.Known x.1 := by
    intro x hx
    obtain rfl := List.mem_singleton.1 hx
    exact Supergraph.known_of_procOf hproc
  refine ⟨g, s₀, s, hg, hcreate, ?_, hs, hedges⟩
  exact terminates_of_cacheable_joins (Capping.analysis g) (.ofSteps hg) rfl hseeds {0}
    (Capping.confined g) Capping.orderedJoins (fun _ _ _ => ⟨rfl, Option.some_ne_none _ |>.symm⟩)
    hcreate

/-! ## New handles -/

namespace EdgeStore

variable [JoinLattice L] [DecidableEq L] [Payload K L] {s s' : EdgeStore L K}
  {a b c ef : EdgeRef} {k : K}

/-- The handle is new in `s'` and holds the payload. -/
structure NewPayload (s s' : EdgeStore L K) (k : K) (ef : EdgeRef) : Prop where
  regular : Regular s'
  le : s ≤ s'
  new : ¬ s.Alive ef
  node : s'.node? ef = some (.custom k)

theorem Regular.ne_identity (h : Regular s) (ha : s.node? a = some (.custom k)) :
    a ≠ .identity := by
  rintro rfl
  rw [h.identity] at ha
  cases ha

variable [Std.TransOrd L] [Std.LawfulEqOrd L] [Std.TransOrd K] [Std.LawfulEqOrd K]

theorem Regular.leaf_new (h : Regular s) (hk : Scratch L k) (he : s.leaf (.custom k) = (ef, s')) :
    NewPayload s s' k ef ∧ s'.composed = s.composed ∧ s'.joined = s.joined := by
  obtain ⟨hs', hle, hat⟩ := h.leaf he
  have hnone : s.canon.find? (.custom k) = none := by
    refine Option.eq_none_iff_forall_not_mem.2 fun e hfind => ?_
    have hkind := ((h.canon _ e).1 hfind).2
    simp [kind?, hk.cacheable] at hkind
  simp only [EdgeStore.leaf, hk.constant, EdgeStore.intern, hnone] at he
  cases ha : s.allocate (.custom k) with
  | mk e t =>
  simp only [ha, Prod.mk.injEq] at he
  obtain ⟨rfl, rfl⟩ := he
  obtain ⟨hnew, hnode, -⟩ := allocate_spec h.placed.free h.nodup ha
  obtain ⟨-, hcomposed, hjoined, -⟩ := allocate_frame ha
  refine ⟨⟨hs', hle, fun hold => ?_, ?_⟩, hcomposed, hjoined⟩
  · obtain ⟨node, hn⟩ := hold
    rw [hnew] at hn
    cases hn
  · exact (hnode e).trans (if_pos rfl)

theorem Regular.compose_new (h : Regular s) (hk : Scratch L k) (ha : s.node? a = some (.custom k))
    (hb : s.node? b = some (.custom k)) (hmemo : s.composed.table[(a, b)]? = none) :
    ∃ c s', s.compose a b = .ok (c, s') ∧ NewPayload s s' k c ∧ s'.joined = s.joined := by
  obtain ⟨c, s', hc, hs', hle, -⟩ := h.compose ⟨_, ha⟩ ⟨_, hb⟩
  refine ⟨c, s', hc, ?_⟩
  rw [EdgeStore.compose, EdgeStore.composeTo, if_neg (h.ne_identity ha),
    if_neg (h.ne_identity hb)] at hc
  simp only [Memo.lookup, hmemo] at hc
  generalize hs₁ : ({ s with
    composed := { s.composed with misses := s.composed.misses + 1 } } : EdgeStore L K) = s₁ at hc
  have hle₁ : s ≤ s₁ := hs₁ ▸ le_remember ..
  have h₁ : Regular s₁ := hs₁ ▸ h.remember h.composed h.joined
  rw [isConstant_eq.2 ⟨_, hle₁.1 _ _ hb, rfl⟩, constant?_eq_ok.2 ⟨_, hle₁.1 _ _ ha, rfl⟩,
    node_eq_ok.2 (hle₁.1 _ _ ha), node_eq_ok.2 (hle₁.1 _ _ hb)] at hc
  cases hleaf : s₁.leaf (.custom k) with
  | mk e t =>
  obtain ⟨hnew, -, hjoined⟩ := h₁.leaf_new hk hleaf
  simp only [EdgeNode.constant?, Option.isSome_none, Bool.false_eq_true, if_false, ok_bind,
    foldCompose, hk.compose, hleaf, pure, Except.pure, Except.ok.injEq, Prod.mk.injEq] at hc
  obtain ⟨rfl, rfl⟩ := hc
  refine ⟨⟨hs', hle, fun he => hnew.new (he.mono hle₁), hnew.node⟩, ?_⟩
  rw [hjoined, ← hs₁]

theorem Regular.joinOrdered_new (h : Regular s) (hk : Scratch L k)
    (ha : s.node? a = some (.custom k)) (hb : s.node? b = some (.custom k)) :
    ∃ c s', s.joinOrdered a b = .ok (c, s') ∧ NewPayload s s' k c ∧ s'.composed = s.composed := by
  have hbounds : ∀ {e : EdgeRef}, s.node? e = some (.custom k) → e ≠ .allTop ∧ e ≠ .allBottom := by
    intro e he
    constructor
    · rintro rfl
      rw [h.allTop] at he
      cases he
    · rintro rfl
      rw [h.allBottom] at he
      cases he
  have hbot : ¬ (a = .allBottom ∨ b = .allBottom) :=
    not_or.2 ⟨(hbounds ha).2, (hbounds hb).2⟩
  cases hleaf : s.leaf (.custom k) with
  | mk c s' =>
  obtain ⟨hnew, hcomposed, -⟩ := h.leaf_new hk hleaf
  refine ⟨c, s', ?_, hnew, hcomposed⟩
  rw [EdgeStore.joinOrdered, if_neg (hbounds ha).1, if_neg (hbounds hb).1, if_neg hbot,
    node_eq_ok.2 ha, ok_bind, node_eq_ok.2 hb, ok_bind]
  simp only [foldJoin, hk.join, hleaf]
  rfl

theorem Regular.join_new (h : Regular s) (hk : Scratch L k) (ha : s.node? a = some (.custom k))
    (hb : s.node? b = some (.custom k)) (hne : a ≠ b)
    (hmemo : s.joined.table[joinKey a b]? = none) :
    ∃ c s', s.join a b = .ok (c, s') ∧ NewPayload s s' k c ∧ s'.composed = s.composed := by
  obtain ⟨c, s', hc, hs', hle, -⟩ := h.join ⟨_, ha⟩ ⟨_, hb⟩
  refine ⟨c, s', hc, ?_⟩
  rw [EdgeStore.join, if_neg hne] at hc
  simp only [Memo.lookup, hmemo] at hc
  generalize hs₁ : ({ s with
    joined := { s.joined with misses := s.joined.misses + 1 } } : EdgeStore L K) = s₁ at hc
  have hle₁ : s ≤ s₁ := hs₁ ▸ le_remember ..
  have h₁ : Regular s₁ := hs₁ ▸ h.remember h.composed h.joined
  have hkey : s₁.node? (joinKey a b).1 = some (.custom k) ∧
      s₁.node? (joinKey a b).2 = some (.custom k) := by
    rcases joinKey_eq a b with heq | heq
    · exact heq ▸ ⟨hle₁.1 _ _ ha, hle₁.1 _ _ hb⟩
    · exact heq ▸ ⟨hle₁.1 _ _ hb, hle₁.1 _ _ ha⟩
  obtain ⟨e, t, he, hnew, hcomposed⟩ := h₁.joinOrdered_new hk hkey.1 hkey.2
  simp only [he, ok_bind, pure, Except.pure, Except.ok.injEq, Prod.mk.injEq] at hc
  obtain ⟨rfl, rfl⟩ := hc
  refine ⟨⟨hs', hle, fun he => hnew.new (he.mono hle₁), hnew.node⟩, ?_⟩
  rw [hcomposed, ← hs₁]

end EdgeStore

/-! ## Loops -/

/-- An edge from the node `x` to itself, along which the fact `d` is kept and `k` is applied. -/
structure Whirl [DecidableEq D] [Payload K L] (A : Analysis D L K) (x : String) (d : D) (k : K) :
    Prop where
  succs : A.graph.succs x = .ok [x]
  inner : A.graph.isCallSite x = .ok false ∧ A.graph.isExit x = .ok false
  flow : A.targets (A.problem.normalFlow x x) d = [d]
  edge : A.problem.normalEdge x d x d = .custom k
  payload : Scratch L k
  values : A.config.computeValues = true
  gcMode : A.config.gcMode.isEnabled = false

namespace Solver

/-- The loop is known, and the label of its path edge has not been composed with anything. -/
structure Spins (A : Analysis D L K) (x : String) (d : D) (k : K) (n : NodeId) (i : FactId)
    (ef : EdgeRef) (s : State D L K) : Prop where
  node : s.HasNode n x
  fact : s.HasFact i d
  label : s.paths.get? n i i = some ef
  payload : s.store.node? ef = some (.custom k)
  fresh : ∀ e : EdgeRef, s.store.composed.table[(ef, e)]? = none
  flows : s.answers.normalFlows.Holds fun key f =>
    key = pack n.val n.val → f = A.problem.normalFlow x x
  edges : s.answers.normalEdges.Holds fun key e =>
    key = (pack n.val n.val, factPair i i) → s.store.node? e = some (.custom k)

variable {A : Analysis D L K} {F : D → Prop} {E : Fault → Prop} {s : State D L K} {x : String}
  {d : D} {k : K} {n : NodeId} {i : FactId} {ef : EdgeRef}

/-- Storing more keeps what is known of the loop, as long as nothing is composed. -/
theorem Spins.withStore (h : Spins A x d k n i ef s) {st : EdgeStore L K} (hle : s.store ≤ st)
    (hcomposed : st.composed = s.store.composed) :
    Spins A x d k n i ef { s with store := st } :=
  { h with
    payload := hle.1 _ _ h.payload
    fresh := hcomposed ▸ h.fresh
    edges := h.edges.imp fun _ _ he hkey => hle.1 _ _ (he hkey) }

variable [DecidableEq D]

/-- The flow function of the loop is the client's. -/
theorem Spins.normalFlow (h : Spins A x d k n i ef s) :
    Ensures E (askFlow fun a => a.normalFlow A.problem x x (pack n.val n.val) : SolverM D L K _) s
      fun f t => f = A.problem.normalFlow x x ∧ ∃ a, t = { s with answers := a } ∧
        a.targets f d = s.answers.targets f d ∧ Spins A x d k n i ef t := by
  obtain ⟨hf, hm⟩ := h.flows.getOrAsk (pack n.val n.val) (fun _ => A.problem.normalFlow x x)
    (fun _ => rfl) fun f hf => hf rfl
  exact .get_seq (.modify_seq (.pure ⟨hf, _, rfl, rfl, { h with flows := hm }⟩))

variable [JoinLattice L] [DecidableEq L] [Payload K L]

variable [Std.TransOrd L] [Std.LawfulEqOrd L] [Std.TransOrd K] [Std.LawfulEqOrd K]

/-- The edge function of the loop is the payload. -/
theorem Spins.normalEdge (hw : Whirl A x d k) (h : Spins A x d k n i ef s)
    (hst : s.store.Regular) :
    Ensures E (askEdge fun a st => a.normalEdge A.problem st x d x d
        (pack n.val n.val, factPair i i)) s
      fun e t => ∃ a st, t = { s with answers := a, store := st } ∧ st.Regular ∧
        st.node? e = some (.custom k) ∧ Spins A x d k n i ef t := by
  refine .get_seq ?_
  unfold Answers.normalEdge Answers.getOrAskEdge Memo.lookup
  cases hknown : s.answers.normalEdges.table[(pack n.val n.val, factPair i i)]? with
  | some e =>
    simp only [hknown]
    exact .set_seq (.pure ⟨_, _, rfl, hst, h.edges _ _ hknown rfl, { h with edges := h.edges }⟩)
  | none =>
    cases hleaf : s.store.leaf (.custom k) with
    | mk e st =>
    obtain ⟨hnew, hcomposed, -⟩ := hst.leaf_new hw.payload hleaf
    simp only [hknown, hw.edge, hleaf]
    have hs := h.withStore hnew.le hcomposed
    refine .set_seq (.pure ⟨_, _, rfl, hnew.regular, hnew.node, { hs with edges := ?_ }⟩)
    exact Memo.Holds.insert (m := { s.answers.normalEdges with
      misses := s.answers.normalEdges.misses + 1 }) hs.edges fun _ => hnew.node

/-- Around the loop the label is composed and joined anew, and the path edge is queued. -/
theorem Spins.around (hw : Whirl A x d k) (h : Spins A x d k n i ef s) (hst : s.store.Regular)
    {e : EdgeRef} (he : s.store.node? e = some (.custom k)) (p : ProcId) :
    Ensures E (do record A n i i p (← compose ef e)) s fun _ t => ∃ ef',
      t.stage = s.stage ∧ t.queue = s.queue.push ⟨n, i, i, ef'⟩ ∧ Spins A x d k n i ef' t := by
  obtain ⟨c, st₁, hc, hnew₁, hjoined⟩ := hst.compose_new hw.payload h.payload he (h.fresh e)
  have hef : st₁.node? ef = some (.custom k) := hnew₁.le.1 _ _ h.payload
  have hne : ef ≠ c := by
    rintro rfl
    exact hnew₁.new ⟨_, h.payload⟩
  -- The composition is too new to have been joined with anything.
  have hmemo : st₁.joined.table[EdgeStore.joinKey ef c]? = none := by
    rw [hjoined]
    refine Option.eq_none_iff_forall_not_mem.2 fun b hb => ?_
    obtain ⟨hx, hy, -⟩ :=
      hst.joined (EdgeStore.joinKey ef c).1 (EdgeStore.joinKey ef c).2 b hb
    unfold EdgeStore.joinKey at hx hy
    split at hx <;> simp_all [hnew₁.new]
  obtain ⟨ef', st₂, hj, hnew₂, hcomposed⟩ :=
    hnew₁.regular.join_new hw.payload hef hnew₁.node hne hmemo
  have hne' : ef' ≠ ef := by
    rintro rfl
    exact hnew₂.new ⟨_, hef⟩
  have hspins : Spins A x d k n i ef'
      { s with store := st₂, paths := (s.paths.insert n i i ef').2 } := by
    refine { h with label := ?_, payload := hnew₂.node, fresh := fun y => ?_, edges := ?_ }
    · simp [PathTable.get?_insert]
    · change st₂.composed.table[(ef', y)]? = none
      rw [hcomposed]
      refine Option.eq_none_iff_forall_not_mem.2 fun b hb => ?_
      exact hnew₂.new (hnew₁.regular.composed _ _ b hb).1
    · exact h.edges.imp fun _ _ he hkey => hnew₂.le.1 _ _ (hnew₁.le.1 _ _ (he hkey))
  refine Ensures.seq (P := fun r t => c = r ∧ t = { s with store := st₁ })
    (.get_seq (.ok_seq hc (.modify_seq (.pure ⟨rfl, rfl⟩)))) ?_
  rintro _ _ ⟨rfl, rfl⟩
  refine .get_seq ?_
  dsimp only
  rw [h.label, if_pos hw.values]
  refine Ensures.seq (P := fun r t => r = some ef' ∧ t = { s with store := st₂ }) ?_ ?_
  · unfold merge
    dsimp only
    rw [if_pos hw.values]
    refine Ensures.seq (P := fun r t => r = ef' ∧ t = { s with store := st₂ })
      (.get_seq (.ok_seq hj (.modify_seq (.pure ⟨rfl, rfl⟩)))) ?_
    rintro _ _ ⟨rfl, rfl⟩
    exact .pure ⟨if_neg hne', rfl⟩
  · rintro _ _ ⟨rfl, rfl⟩
    refine .modify_seq ?_
    dsimp only
    rw [if_neg (by simp)]
    refine .modify_seq ?_
    rw [if_neg (by simp [hw.gcMode])]
    exact .pure ⟨ef', rfl, rfl, { hspins with }⟩

/-- A path edge goes around the loop, and comes out with a new label. -/
theorem Spins.propagate (hg : A.graph.Consistent) (hw : Whirl A x d k) (hb : Basis A F s)
    (h : Spins A x d k n i ef s) :
    Ensures E (propagate A ⟨n, i, i, ef⟩) s fun _ t => ∃ ef', t.stage = s.stage ∧
      t.queue = s.queue.push ⟨n, i, i, ef'⟩ ∧ Spins A x d k n i ef' t := by
  obtain ⟨proc, hmem, hproc⟩ := (hb.known _ _ h.node).procOf hg
  have htarget : ∀ f, s.answers.targets f d = A.targets f d := fun f =>
    ((targets_ensures (E := E) hb f d).elim rfl).2.symm
  refine (nodeName_ensures h.node).seq ?_
  rintro _ _ ⟨rfl, rfl⟩
  refine .ok_seq hproc ((procId_ensures hb hmem).seq ?_)
  rintro p _ ⟨rfl, -⟩
  dsimp only
  rw [if_neg (by simp [hw.gcMode])]
  refine .ok_seq hw.inner.1 ?_
  rw [if_neg Bool.false_ne_true]
  refine (factOf_ensures h.fact).seq ?_
  rintro _ _ ⟨rfl, rfl⟩
  refine .ok_seq hw.succs ?_
  refine Ensures.seq (P := fun _ t => ∃ ef', t.stage = s.stage ∧
    t.queue = s.queue.push ⟨n, i, i, ef'⟩ ∧ Spins A x d k n i ef' t) ?_ fun _ t ht => ?_
  · refine .forM_singleton ((nodeId_known hb.nodes h.node).seq ?_)
    rintro _ _ ⟨rfl, rfl⟩
    refine h.normalFlow.seq ?_
    rintro _ _ ⟨rfl, a, rfl, htargets, h₁⟩
    refine Ensures.seq (P := fun ds t => ds = [d] ∧ t = { s with answers := a })
      (.get_seq (.pure ⟨?_, rfl⟩)) ?_
    · rw [← hw.flow, htargets]
      exact htarget _
    rintro _ _ ⟨rfl, rfl⟩
    refine .forM_singleton ((factId_known (s := { s with answers := a }) hb.facts h.fact).seq ?_)
    rintro _ _ ⟨rfl, rfl⟩
    unfold composeWith
    rw [if_pos hw.values, bind_assoc]
    refine (h₁.normalEdge hw hb.store).seq ?_
    rintro e _ ⟨a', st, rfl, hst, he, h₂⟩
    exact h₂.around hw hst he p
  · refine .ok_seq hw.inner.2 ?_
    rw [if_neg Bool.false_ne_true]
    exact .pure ht

/-- A state in which the loop's path edge is all that is queued. -/
structure Stuck (A : Analysis D L K) (F : D → Prop) (x : String) (d : D) (k : K)
    (s : State D L K) : Prop where
  grounded : Grounded A F s
  stage : s.stage = .drain
  loop : ∃ n i ef, s.queue.toList = [⟨n, i, i, ef⟩] ∧ Spins A x d k n i ef s

variable [Std.TransOrd D] [Std.LawfulEqOrd D]

/-- A move takes the path edge from the queue and puts it back. -/
theorem Stuck.move (hP : Premises A F E) (hw : Whirl A x d k) (h : Stuck A F x d k s) :
    Ensures E (step A) s fun _ t => Stuck A F x d k t := by
  obtain ⟨hs, hstage, n, i, ef, hqueue, hspins⟩ := h
  have hloop : Ensures E (step A) s fun _ t => t.stage = .drain ∧
      ∃ ef', t.queue.toList = [⟨n, i, i, ef'⟩] ∧ Spins A x d k n i ef' t := by
    refine .get_seq ?_
    rw [hstage]
    cases hpop : s.queue.pop? with
    | none =>
      rw [(Worklist.pop?_eq_none_iff _).1 hpop] at hqueue
      cases hqueue
    | some r =>
      obtain ⟨job, queue⟩ := r
      have hperm := Worklist.pop?_perm hpop
      rw [hqueue, List.singleton_perm, List.cons.injEq] at hperm
      obtain ⟨rfl, hnil⟩ := hperm
      have hb : Basis A F { s with queue, stage := .drain } := hs.toBasis.congr rfl rfl rfl rfl rfl
      refine .set_seq ((Spins.propagate hP.graph hw hb { hspins with }).imp fun _ t ht => ?_)
      obtain ⟨ef', hst, hq, hspins'⟩ := ht
      refine ⟨hst, ef', ?_, hspins'⟩
      simp [hq, ← hnil]
  refine ((step_ensures hP hs (by simp [hstage])).and hloop).imp fun _ t ht => ?_
  obtain ⟨htrans, hdrain, ef', hq, hspins'⟩ := ht
  exact ⟨htrans.grounded hs, hdrain, n, i, ef', hq, hspins'⟩

/-- **A loop over a payload that is not cacheable never settles.** No number of steps is enough. -/
theorem run_whirl (hP : Premises A F fun _ => False) (hw : Whirl A x d k)
    (h : Stuck A F x d k s) (steps : Nat) : run A steps s = .error .outOfSteps := by
  induction steps generalizing s with
  | zero => simp [run, h.stage]
  | succ steps ih =>
    have hstep := Stuck.move hP hw h
    rw [run, h.stage, if_neg (by simp)]
    cases hrun : (step A).run s with
    | error f => exact (hstep.allowed hrun).elim
    | ok r => exact ih (hstep.elim hrun)

end Solver

/-! ## A loop over masks -/

namespace Marking

/-- A procedure that goes around in its second node and never comes to its exit. -/
def graph : Except Fault Supergraph := Supergraph.ofSteps
  [.proc "main" ["a", "b", "c"], .edge "a" "b", .edge "b" "b"]

/-- Every edge sets the lowest bit, with a map that is not shared. -/
def problem : Problem Nat Mask MaskMap where
  zero := 0
  seeds := Seeds.empty.add "a" 0 ⟨0⟩
  normalFlow _ _ := .identity
  callFlow _ _ := .identity
  returnFlow _ _ _ _ := .identity
  bypassFlow _ _ _ := .identity
  normalEdge _ _ _ _ := .custom (.genKill 1 0 false)

def analysis (g : Supergraph) : Analysis Nat Mask MaskMap := ⟨problem, g, {}⟩

theorem confined (g : Supergraph) : (analysis g).Confined (· ∈ ({0} : Finset Nat)) := by
  refine Analysis.confined_of_identity (Finset.mem_singleton_self 0) (fun x hx => ?_)
    (fun _ _ => rfl) (fun _ _ => rfl) (fun _ _ _ _ => rfl) (fun _ _ _ => rfl) fun _ _ => rfl
  exact List.mem_singleton.1 hx ▸ Finset.mem_singleton_self 0

instance : Finite Mask := .of_injective Mask.bits fun a b h => by
  cases a
  cases b
  exact congrArg Mask.mk h

instance : Finite MaskMap := .of_injective
    (fun | .genKill g k s => (true, g, k, s) | .shiftLeft n => (false, n, 0, true)) fun a b h => by
  cases a <;> cases b <;> simp_all

theorem orderedJoins : OrderedJoins Mask MaskMap where
  comm f g := by
    cases f <;> cases g <;> try rfl
    simp only [Payload.join?, MaskMap.join?, UInt16.or_comm, UInt16.and_comm, Bool.and_comm]
  assoc {f g h x y} hx hy := by
    cases f <;> cases g <;> cases hx
    cases h <;> cases hy
    refine ⟨_, rfl, ?_⟩
    simp only [Payload.join?, MaskMap.join?, UInt16.or_assoc, UInt16.and_assoc, Bool.and_assoc]
  idem {f k} hk := by
    cases f <;> cases hk
    simp

theorem premises {g : Supergraph} (hg : graph = .ok g) (hstart : g.procOf "a" = .ok "main")
    (hsize : g.nodes.size = 3) :
    Premises (analysis g) (· ∈ ({0} : Finset Nat)) fun _ => False where
  graph := (Supergraph.Built.ofSteps hg).consistent
  confined := confined g
  seeds x hx := by
    obtain rfl := List.mem_singleton.1 hx
    exact Supergraph.known_of_procOf hstart
  room := .inr ⟨g.names, {0}, fun _ hx => Supergraph.mem_names.2 hx,
    Nat.lt_of_le_of_lt (g.card_names_le.trans hsize.le) (by decide), fun _ h => h, by decide⟩
  idle := nofun

theorem whirl {g : Supergraph} (hsuccs : g.succs "b" = .ok ["b"])
    (hcall : g.isCallSite "b" = .ok false) (hexit : g.isExit "b" = .ok false) :
    Whirl (analysis g) "b" 0 (.genKill 1 0 false) where
  succs := hsuccs
  inner := ⟨hcall, hexit⟩
  flow := rfl
  edge := rfl
  payload := ⟨rfl, rfl, rfl, rfl⟩
  values := rfl
  gcMode := rfl

/-- What shows that a state is in the loop. -/
def view (s : State Nat Mask MaskMap) :=
  (s.stage, s.queue.toList, s.nodes.get? 1, s.facts.get? 0, s.paths.get? ⟨1⟩ ⟨0⟩ ⟨0⟩,
    s.store.node? ⟨3⟩, s.store.composed.table.toList,
    s.answers.normalFlows.table.toList.map Prod.snd,
    s.answers.normalEdges.table.toList.map Prod.snd)

def inLoop : Stage × List PathEdge × Option String × Option Nat × Option EdgeRef ×
    Option (EdgeNode Mask MaskMap) × List ((EdgeRef × EdgeRef) × EdgeRef) ×
    List (FlowFunction Nat) × List EdgeRef :=
  (.drain, [⟨⟨1⟩, ⟨0⟩, ⟨0⟩, ⟨3⟩⟩], some "b", some 0, some ⟨3⟩,
    some (.custom (.genKill 1 0 false)), [], [.identity], [⟨3⟩])

open Solver in
theorem stuck {g : Supergraph} {s : State Nat Mask MaskMap}
    (hs : Grounded (analysis g) (· ∈ ({0} : Finset Nat)) s) (h : view s = inLoop) :
    Stuck (analysis g) (· ∈ ({0} : Finset Nat)) "b" 0 (.genKill 1 0 false) s := by
  simp only [view, inLoop, Prod.mk.injEq] at h
  obtain ⟨hstage, hqueue, hnode, hfact, hpath, hpayload, hcomposed, hflows, hedges⟩ := h
  refine ⟨hs, hstage, ⟨1⟩, ⟨0⟩, ⟨3⟩, hqueue, ⟨hnode, hfact, hpath, hpayload, fun e => ?_, ?_, ?_⟩⟩
  · refine Option.eq_none_iff_forall_not_mem.2 fun b hb => ?_
    have hmem := Std.TreeMap.mem_toList_iff_getElem?_eq_some.2 hb
    rw [hcomposed] at hmem
    cases hmem
  · intro key f hf _
    have hmem := List.mem_map_of_mem (f := Prod.snd)
      (Std.TreeMap.mem_toList_iff_getElem?_eq_some.2 hf)
    rw [hflows] at hmem
    exact List.mem_singleton.1 hmem
  · intro key e he _
    have hmem := List.mem_map_of_mem (f := Prod.snd)
      (Std.TreeMap.mem_toList_iff_getElem?_eq_some.2 he)
    rw [hedges] at hmem
    obtain rfl : e = ⟨3⟩ := List.mem_singleton.1 hmem
    exact hpayload

end Marking

open Solver in
/-- **Termination rests on cacheability.** Facts, values and payloads are finite, and all that the
client says about payloads is right, but propagation never ends. -/
theorem run_of_unshared_loop : ∃ g s₀, Marking.graph = .ok g ∧
    create (Marking.analysis g) = .ok s₀ ∧ g.Built ∧ g.Known "a" ∧
    (Marking.analysis g).Confined (· ∈ ({0} : Finset Nat)) ∧ Finite Mask ∧ LawfulJoin Mask ∧
    Finite MaskMap ∧ LawfulPayload MaskMap Mask ∧ OrderedJoins Mask MaskMap ∧
    ∀ steps, run (Marking.analysis g) steps s₀ = .error .outOfSteps := by
  have hrun : (do
      let g ← Marking.graph
      let s₀ ← create (Marking.analysis g)
      let r₁ ← (step (Marking.analysis g)).run s₀
      let r₂ ← (step (Marking.analysis g)).run r₁.2
      return (g.procOf "a", g.nodes.size, g.succs "b", g.isCallSite "b", g.isExit "b", r₁.2.stage,
        Marking.view r₂.2)) =
      .ok (.ok "main", 3, .ok ["b"], .ok false, .ok false, .drain, Marking.inLoop) := by
    cbv
  simp only [bind_eq_ok, pure_eq_ok, Prod.mk.injEq] at hrun
  obtain ⟨g, hg, s₀, hcreate, ⟨_, s₁⟩, hstep₀, ⟨_, s₂⟩, hstep₁, hproc, hsize, hsuccs, hcall, hexit,
    hdrain, hview⟩ := hrun
  dsimp only at hstep₁ hdrain hview
  have hP := Marking.premises hg hproc hsize
  have hw := Marking.whirl hsuccs hcall hexit
  obtain ⟨hs₀, hfresh, -⟩ := create_grounded (Marking.confined g) hcreate
  have hs₁ := ((step_ensures hP hs₀ (by simp [hfresh])).elim hstep₀).grounded hs₀
  have hs₂ := ((step_ensures hP hs₁ (by simp [hdrain])).elim hstep₁).grounded hs₁
  have hstuck := Marking.stuck hs₂ hview
  refine ⟨g, s₀, hg, hcreate, .ofSteps hg, Supergraph.known_of_procOf hproc,
    Marking.confined g, inferInstance, inferInstance, inferInstance, inferInstance,
    Marking.orderedJoins, fun steps => ?_⟩
  rcases steps with _ | _ | steps
  · simp [run, hfresh]
  · simp [run, hfresh, hstep₀, hdrain, ok_bind]
  · simp only [run, hfresh, hstep₀, hdrain, hstep₁, ok_bind, reduceCtorEq, if_false]
    exact run_whirl hP hw hstuck steps

end Tabulation
