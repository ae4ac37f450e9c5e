import Tabulation.Proofs.EdgeStore.Level
import Tabulation.Proofs.Solver.Steps

/-!
# How often path edges are stored

A path edge is stored when it is new and again whenever its label changes. `Graded` says that a
label only changes for a higher one; then each path edge is stored at most as often as there are
grades.

**`Logged`.** The path edges that a run stored, in order: those that its moves added to the queue.

**`Tallied`.** What the log has to do with the state. Effects keep it, so moves do, so it holds of
all states of a run without collection. Since all names of path edges are nodes of the graph and
facts of the problem, the length of the log is bounded, `Tallied.length_le`.
-/

namespace Tabulation

variable {D L K : Type} [Ord L] [Ord K] {A : Analysis D L K}

/-! ## Grades -/

section Grades

variable [JoinLattice L] [DecidableEq L] [Payload K L]

/-- A label that changes gets a higher grade, and no grade is above `B`. -/
structure Graded (A : Analysis D L K) (grade : EdgeStore L K → EdgeRef → Nat) (B : Nat) :
    Prop where
  mono : ∀ {st st' : EdgeStore L K} {ef : EdgeRef}, st ≤ st' → st.Alive ef →
    grade st' ef = grade st ef
  lt : ∀ {st : EdgeStore L K} {e old ef : EdgeRef}, st.Regular →
    st.joinLimit = A.config.joinLimit → st.Alive e → Relabels A st e (some old) ef →
    grade st old < grade st ef
  le : ∀ {st : EdgeStore L K} (ef : EdgeRef), st.Regular → st.joinLimit = A.config.joinLimit →
    grade st ef ≤ B

/-- Without values, labels never change. -/
theorem graded_plain (h : A.config.computeValues = false) : Graded A (fun _ _ => 0) 0 where
  mono _ _ := rfl
  lt _ _ _ hrel := by
    cases hrel with
    | join hv _ _ _ =>
      rw [h] at hv
      cases hv
  le _ _ _ := Nat.le_refl 0

/-- With values, labels are joined, and joins go up. -/
theorem graded_level [LawfulJoin L] (S : Scale L K) (hlimit : 2 ≤ A.config.joinLimit) :
    Graded A (EdgeStore.level S) (S.maxHeight + S.maxDepth + A.config.joinLimit) where
  mono hle ha := EdgeStore.level_mono hle ha
  lt {st e old ef} hst hjoin he hrel := by
    cases hrel with
    | join _ hold hj hne =>
      have hlimit' : 2 ≤ st.joinLimit := hjoin ▸ hlimit
      unfold EdgeStore.joinKey at hj
      split at hj
      · exact (hj.level_lt hst hlimit' hold he).1.resolve_left hne
      · exact (hj.level_lt hst hlimit' he hold).2.resolve_left hne
  le ef hst hjoin := hjoin ▸ EdgeStore.level_le hst (hjoin ▸ hlimit) ef

end Grades

/-! ## Stored path edges -/

variable [Ord D] {grade : EdgeStore L K → EdgeRef → Nat} {B : Nat} {s t u : State D L K}
  {js js' log : List PathEdge}

/-- A path edge without its label. -/
structure PathKey where
  node : NodeId
  source : FactId
  target : FactId
  deriving DecidableEq

def PathEdge.key (x : PathEdge) : PathKey := ⟨x.node, x.source, x.target⟩

/-- The label of a path edge. -/
def State.label? (s : State D L K) (k : PathKey) : Option EdgeRef :=
  s.paths.get? k.node k.source k.target

/-- How often a path edge may have been stored: once, and once more for each grade of its label. -/
def State.weight (grade : EdgeStore L K → EdgeRef → Nat) (s : State D L K) (k : PathKey) : Nat :=
  match s.label? k with
  | none => 0
  | some ef => grade s.store ef + 1

/-- From `s` to `t`, the path edges `js` were stored. -/
structure Stores (grade : EdgeStore L K → EdgeRef → Nat) (s : State D L K) (js : List PathEdge)
    (t : State D L K) : Prop where
  queue : t.queue.toList = s.queue.toList ++ js
  pathEdges : t.stats.pathEdges = s.stats.pathEdges + js.length
  weight : ∀ k, s.weight grade k + (js.map PathEdge.key).count k ≤ t.weight grade k
  stored : ∀ k, (t.label? k).isSome = true ↔ (s.label? k).isSome = true ∨ k ∈ js.map PathEdge.key

theorem Stores.of_eq (hpaths : t.paths = s.paths)
    (hweight : ∀ k, s.weight grade k = t.weight grade k) (hqueue : t.queue = s.queue)
    (hstats : t.stats.pathEdges = s.stats.pathEdges) : Stores grade s [] t where
  queue := by rw [hqueue, List.append_nil]
  pathEdges := hstats
  weight k := Nat.le_of_eq (hweight k)
  stored k := by simp [State.label?, hpaths]

theorem Stores.refl (s : State D L K) : Stores grade s [] s := .of_eq rfl (fun _ => rfl) rfl rfl

theorem Stores.trans (h : Stores grade s js t) (h' : Stores grade t js' u) :
    Stores grade s (js ++ js') u where
  queue := by rw [h'.queue, h.queue, List.append_assoc]
  pathEdges := by rw [h'.pathEdges, h.pathEdges, List.length_append, Nat.add_assoc]
  weight k := by
    have := h.weight k
    have := h'.weight k
    rw [List.map_append, List.count_append]
    omega
  stored k := by rw [h'.stored, h.stored, List.map_append, List.mem_append, or_assoc]

/-- The stage, and counters of other things, have no part in it. -/
theorem Stores.withStage (h : Stores grade s js t) {stage : Stage} {stats : Stats}
    (hstats : stats.pathEdges = t.stats.pathEdges) : Stores grade s js { t with stage, stats } where
  queue := h.queue
  pathEdges := hstats.trans h.pathEdges
  weight := h.weight
  stored := h.stored

theorem State.label?_withPath (x : PathEdge) (p : ProcId) (reached : Std.TreeSet UInt64)
    (k : PathKey) : (s.withPath A x p reached).label? k =
      if x.key = k then some x.edge else s.label? k := by
  obtain ⟨n, a, b⟩ := k
  show (s.paths.insert x.node x.source x.target x.edge).2.get? n a b = _
  rw [PathTable.get?_insert]
  simp [PathEdge.key, State.label?]

namespace Solver

/-- The queue with which a move begins: the move of a path edge takes that edge first. -/
def pending (s : State D L K) : List PathEdge :=
  match s.stage, s.queue.pop? with
  | .drain, some (_, queue) => queue.toList
  | _, _ => s.queue.toList

/-- The log holds as many entries as the counter says, and no path edge more often than its label
allows. It holds exactly the path edges that have a label. -/
structure Tallied (grade : EdgeStore L K → EdgeRef → Nat) (log : List PathEdge)
    (s : State D L K) : Prop where
  length : log.length = s.stats.pathEdges
  count : ∀ k, (log.map PathEdge.key).count k ≤ s.weight grade k
  stored : ∀ k, (s.label? k).isSome = true ↔ k ∈ log.map PathEdge.key

theorem Tallied.stores (h : Tallied grade log s) (hjs : Stores grade s js t) :
    Tallied grade (log ++ js) t where
  length := by rw [List.length_append, h.length, hjs.pathEdges]
  count k := by
    have := h.count k
    have := hjs.weight k
    rw [List.map_append, List.count_append]
    omega
  stored k := by rw [hjs.stored, h.stored, List.map_append, List.mem_append]

end Solver

/-! ## Effects -/

variable [DecidableEq D] [JoinLattice L] [DecidableEq L] [Payload K L] {F : D → Prop}

theorem Stores.path (hG : Graded A grade B) (hs : Grounded A F s) {x : PathEdge} {e : EdgeRef}
    (p : ProcId) (reached : Std.TreeSet UInt64) (he : s.store.Alive e)
    (hrel : Relabels A s.store e (s.label? x.key) x.edge) :
    Stores grade s [x] (s.withPath A x p reached) where
  queue := Worklist.toList_push _ _
  pathEdges := rfl
  weight k := by
    unfold State.weight
    rw [State.label?_withPath, List.map_singleton, List.count_singleton]
    change _ ≤ match _ with | none => 0 | some ef => grade s.store ef + 1
    by_cases hk : x.key = k
    · subst hk
      cases hold : s.label? x.key with
      | none => simp
      | some old =>
        have hlt := hG.lt hs.store hs.joinLimit he (hold ▸ hrel)
        simpa using hlt
    · rw [if_neg hk, if_neg (by simpa using hk)]
      exact Nat.le_refl _
  stored k := by
    rw [State.label?_withPath]
    by_cases hk : x.key = k
    · simp [hk]
    · simp [hk, Ne.symm hk]

theorem Effect.stores (hG : Graded A grade B) (hs : Grounded A F s) (h : Effect A F s t) :
    ∃ js, Stores grade s js t := by
  cases h with
  | quiet _ hq _ hstats _ =>
    refine ⟨[], .of_eq hq.paths (fun k => ?_) hq.queue hstats⟩
    unfold State.weight State.label?
    rw [hq.paths]
    cases hk : s.paths.get? k.node k.source k.target with
    | none => rfl
    | some ef => exact congrArg (· + 1) (hG.mono hq.store (hs.paths _ _ _ _ hk).edge).symm
  | path hx _ hrel _ => exact ⟨_, .path hG hs _ _ hx.edge hrel⟩
  | key _ => exact ⟨[], .of_eq rfl (fun _ => rfl) rfl rfl⟩
  | summary _ _ _ => exact ⟨[], .of_eq rfl (fun _ => rfl) rfl rfl⟩
  | call _ => exact ⟨[], .of_eq rfl (fun _ => rfl) rfl rfl⟩
  | link _ _ _ => exact ⟨[], .of_eq rfl (fun _ => rfl) rfl rfl⟩
  | seed _ _ => exact ⟨[], .of_eq rfl (fun _ => rfl) rfl rfl⟩

theorem Effects.stores (hG : Graded A grade B) (hs : Grounded A F s) (h : Effects A F s t) :
    ∃ js, Stores grade s js t := by
  induction h with
  | refl => exact ⟨[], .refl s⟩
  | tail hst he ih =>
    obtain ⟨js, hjs⟩ := ih
    obtain ⟨js', hjs'⟩ := he.stores hG (Effects.grounded hs hst)
    exact ⟨_, hjs.trans hjs'⟩

/-! ## Runs -/

namespace Solver

/-- A state of a run, and the path edges that the run has stored so far. -/
inductive Logged (A : Analysis D L K) : List PathEdge → State D L K → Prop
  | create {s : State D L K} : create A = .ok s → Logged A [] s
  | move {log js : List PathEdge} {s t : State D L K} : Logged A log s → s.stage ≠ .done →
      (step A).run s = .ok ((), t) → t.queue.toList = pending s ++ js → Logged A (log ++ js) t

/-- A move stores what it adds to the queue. -/
theorem Transition.stores (hgc : A.config.gcMode.isEnabled = false) (hG : Graded A grade B)
    (hs : Grounded A F s) (h : Transition A F s t) :
    ∃ js queue, pending s = queue.toList ∧ Stores grade { s with queue } js t := by
  cases h with
  | begin hstage ht hstats =>
    obtain ⟨js, hjs⟩ := ht.stores hG hs
    exact ⟨js, s.queue, by simp [pending, hstage], hjs.withStage hstats⟩
  | @take _ job queue _ _ hstage hpop _ hr ht =>
    obtain ⟨js, hjs⟩ := ht.stores hG (Grounded.withJob hs hpop hr)
    exact ⟨js, queue, by simp [pending, hstage, hpop], hjs.queue, hjs.pathEdges, hjs.weight,
      hjs.stored⟩
  | keys hstage hpop hstats =>
    refine ⟨[], s.queue, by simp [pending, hstage, hpop], ?_⟩
    exact .of_eq rfl (fun _ => rfl) rfl hstats
  | @replay _ key keys hstage ht =>
    have hg : Grounded A F { s with stage := .replay keys } := hs.withStage (hs.rest hstage)
    obtain ⟨js, hjs⟩ := ht.stores hG hg
    exact ⟨js, s.queue, by simp [pending, hstage], hjs.queue, hjs.pathEdges, hjs.weight, hjs.stored⟩
  | stop hstage _ hoff _ =>
    obtain rfl := hoff hgc
    exact ⟨[], _, by simp [pending, hstage], (Stores.refl _).withStage rfl⟩
  | again hstage _ hoff _ hstats =>
    obtain rfl := hoff hgc
    exact ⟨[], _, by simp [pending, hstage], (Stores.refl _).withStage hstats⟩

/-- The log of a run tallies with its state, step by step. -/
theorem Logged.tallied [Std.TransOrd D] [Std.LawfulEqOrd D] [Std.TransOrd L] [Std.LawfulEqOrd L]
    [Std.TransOrd K] [Std.LawfulEqOrd K] {E : Fault → Prop} (hP : Premises A F E)
    (hgc : A.config.gcMode.isEnabled = false) (hG : Graded A grade B) (h : Logged A log s) :
    Grounded A F s ∧ Tallied grade log s := by
  induction h with
  | create hcreate =>
    obtain ⟨hs, -, hpaths, hzero⟩ := create_grounded hP.confined hcreate
    refine ⟨hs, hzero.symm, fun k => Nat.zero_le _, fun k => ?_⟩
    simp [State.label?, hpaths, PathTable.get?_empty]
  | @move log js s t _ hstage hrun hqueue ih =>
    obtain ⟨hs, htally⟩ := ih
    have htrans := (step_ensures hP hs hstage).elim hrun
    obtain ⟨js', queue, hpending, hjs⟩ := htrans.stores hgc hG hs
    have heq : pending s ++ js = pending s ++ js' := by rw [← hqueue, hjs.queue, hpending]
    obtain rfl := List.append_cancel_left heq
    have htally' : Tallied grade log { s with queue } :=
      ⟨htally.length, htally.count, htally.stored⟩
    exact ⟨htrans.grounded hs, htally'.stores hjs⟩

/-! ## The length of the log -/

/-- Labelled path edges have different names, so there are no more of them than names. -/
theorem card_keys_le {facts : Finset D} (hs : Grounded A (· ∈ facts) s) {keys : Finset PathKey}
    (hkeys : ∀ k ∈ keys, (s.label? k).isSome = true) :
    keys.card ≤ A.graph.nodes.size * facts.card * facts.card := by
  classical
  have hpath : ∀ k ∈ keys, ∃ n a b, s.nodes.get? k.node.val = some n ∧
      s.facts.get? k.source.val = some a ∧ s.facts.get? k.target.val = some b := by
    intro k hk
    obtain ⟨ef, hef⟩ := Option.isSome_iff_exists.1 (hkeys k hk)
    have hg := hs.paths _ _ _ _ hef
    obtain ⟨n, hn⟩ := hg.node
    obtain ⟨a, ha⟩ := hg.source
    obtain ⟨b, hb⟩ := hg.target
    exact ⟨n, a, b, hn, ha, hb⟩
  let image := A.graph.names.image some ×ˢ facts.image some ×ˢ facts.image some
  have himage : image.card ≤ A.graph.nodes.size * (facts.card * facts.card) := by
    rw [Finset.card_product, Finset.card_product]
    refine Nat.mul_le_mul (Nat.le_trans Finset.card_image_le A.graph.card_names_le) ?_
    exact Nat.mul_le_mul Finset.card_image_le Finset.card_image_le
  rw [Nat.mul_assoc]
  refine Nat.le_trans (Finset.card_le_card_of_injOn
    (fun k => (s.nodes.get? k.node.val, s.facts.get? k.source.val, s.facts.get? k.target.val))
    ?_ ?_) himage
  · intro k hk
    obtain ⟨n, a, b, hn, ha, hb⟩ := hpath k hk
    have hknown : n ∈ A.graph.names := Supergraph.mem_names.2 (hs.known k.node n hn)
    simp [image, hn, ha, hb, hknown, hs.inside k.source a ha, hs.inside k.target b hb]
  · intro k hk k' hk' heq
    obtain ⟨n, a, b, hn, ha, hb⟩ := hpath k hk
    obtain ⟨hn', hf⟩ := Prod.mk.inj heq
    obtain ⟨ha', hb'⟩ := Prod.mk.inj hf
    cases k
    cases k'
    rw [PathKey.mk.injEq]
    exact ⟨congrArg NodeId.mk (Interner.get?_inj hs.nodes hn (hn'.symm.trans hn)),
      congrArg FactId.mk (Interner.get?_inj hs.facts ha (ha'.symm.trans ha)),
      congrArg FactId.mk (Interner.get?_inj hs.facts hb (hb'.symm.trans hb))⟩

theorem weight_le (hG : Graded A grade B) (hs : Grounded A F s) (k : PathKey) :
    s.weight grade k ≤ B + 1 := by
  unfold State.weight
  split
  · exact Nat.zero_le _
  · exact Nat.succ_le_succ (hG.le _ hs.store hs.joinLimit)

/-- A run stores no more than each path edge with each grade. -/
theorem Tallied.length_le (hG : Graded A grade B) {facts : Finset D}
    (hs : Grounded A (· ∈ facts) s) (h : Tallied grade log s) :
    log.length ≤ A.graph.nodes.size * facts.card * facts.card * (B + 1) := by
  let keys := (log.map PathEdge.key).toFinset
  have hcount : ∀ k ∈ keys, (log.map PathEdge.key).count k ≤ B + 1 := fun k _ =>
    Nat.le_trans (h.count k) (weight_le hG hs k)
  calc log.length
    _ = (log.map PathEdge.key).length := (List.length_map _).symm
    _ = ∑ k ∈ keys, (log.map PathEdge.key).count k := (List.sum_toFinset_count_eq_length _).symm
    _ ≤ keys.card * (B + 1) := Finset.sum_le_card_nsmul keys _ _ hcount
    _ ≤ A.graph.nodes.size * facts.card * facts.card * (B + 1) := by
      refine Nat.mul_le_mul_right _ (card_keys_le hs fun k hk => (h.stored k).2 ?_)
      exact List.mem_toFinset.1 hk

end Solver

end Tabulation
