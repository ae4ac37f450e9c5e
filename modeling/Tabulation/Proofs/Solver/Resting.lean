import Tabulation.Proofs.Solver.Calls

/-!
# Pairs to which nothing new happens

`Resting A W s` says of the pairs `W` of a procedure and an entry fact that nothing new happens to
them:

- no path edge is queued and no key is pending for them,
- calls from them lead to pairs of `W`, so no summary will be new to them, and
- entering them again changes nothing, since the label at the start point `Absorbs` the identity.

If there are values, a procedure is entered with every source of its path edges. The moves of
propagation keep this up as long as they do not work on pairs of `W`, `Moves.resting`.
-/

namespace Tabulation

variable {D L K : Type} [Ord D] [Ord L] [Ord K] {A : Analysis D L K}
  {Z W : ProcId → FactId → Prop} {s s' : State D L K}

/-- A node keeps its procedure. -/
theorem InProc.of_grows (hs : s'.procs.Wf) (hg : s.Grows s') {n : NodeId} {p q : ProcId}
    (hp : InProc A s n p) (hq : InProc A s' n q) : InProc A s n q :=
  (hp.mono hg).unique hs hq ▸ hp

variable [JoinLattice L] [Payload K L]

/-- The summaries of a procedure that was entered with a fact have changed. -/
def PendingKey (s : State D L K) (e : FactId) (q : ProcId) : Prop :=
  pack e.val q.val ∈ s.callQueue.keys ∨ ∃ ks, s.stage = .replay ks ∧ pack e.val q.val ∈ ks

/-- A procedure was entered with a fact, and entering it again changes nothing. -/
def Rooted (A : Analysis D L K) (s : State D L K) (p : ProcId) (a : FactId) : Prop :=
  ∃ q sp n ef, s.HasProc p q ∧ A.graph.StartOf q sp ∧ s.HasNode n sp ∧
    s.paths.get? n a a = some ef ∧ (A.Valued → s.store.Absorbs ef)

/-- Nothing new happens to the pairs `W`. -/
structure Resting (A : Analysis D L K) (W : ProcId → FactId → Prop) (s : State D L K) : Prop where
  rooted : A.config.computeValues = true → ∀ n a b ef p, s.paths.get? n a b = some ef →
    InProc A s n p → Rooted A s p a
  asleep : ∀ p a, W p a → Rooted A s p a
  closed : ∀ c ∈ s.ledger, ∀ p, InProc A s c.site p → W p c.source → W c.callee c.entry
  queue : ∀ x ∈ s.queue.toList, ∀ p, InProc A s x.node p → ¬ W p x.source
  keys : ∀ e q, PendingKey s e q → ¬ W q e

/-- The pairs `Z` may be worked on while those of `W` rest. -/
def Restless (A : Analysis D L K) (Z W : ProcId → FactId → Prop) (s : State D L K) : Prop :=
  ∀ p a, Z p a → (A.config.computeValues = true → Rooted A s p a) ∧ ¬ W p a

theorem Rooted.of_quiet {p : ProcId} {a : FactId} (h : Rooted A s p a) (hg : s.Grows s')
    (hpaths : s'.paths = s.paths) : Rooted A s' p a := by
  obtain ⟨q, sp, n, ef, hq, hsp, hn, hef, habs⟩ := h
  exact ⟨q, sp, n, ef, hg.procs _ _ hq, hsp, hg.nodes _ _ hn, by rw [hpaths, hef],
    fun hv => (habs hv).mono hg.store⟩

theorem Resting.rooted_of_started (h : Resting A W s) (hg : A.graph.Consistent) {p : ProcId}
    {a : FactId} (hs : Started A s p a) : Rooted A s p a := by
  obtain ⟨q, sp, n, ef, hq, hsp, hn, hef⟩ := hs
  by_cases hv : A.config.computeValues = true
  · exact h.rooted hv n a a ef p hef ⟨sp, q, hn, ((Supergraph.startOf_iff hg).1 hsp).1, hq⟩
  · exact ⟨q, sp, n, ef, hq, hsp, hn, hef, fun hvalued => absurd hvalued.1 hv⟩

variable [DecidableEq D]

/-- A procedure that was entered is rooted. -/
theorem AtStart.rooted (hA : Scope A) {x : PathEdge} {p : ProcId} {e : EdgeRef}
    (h : AtStart A s x e) (hpath : PathOk A s { x with edge := e } p)
    (hm : Merged A s.store e (s.paths.get? x.node x.source x.target) x.edge)
    (hstore : StorePath A x p s s') : Rooted A s' p x.source := by
  have hg := hstore.grows
  obtain ⟨sp, q, hsp, hstart⟩ := h.start
  obtain ⟨node, proc, _, _, hpath⟩ := hpath
  obtain rfl := Option.some.inj (hpath.hasNode.symm.trans hsp)
  obtain rfl :=
    Except.ok.inj (((Supergraph.startOf_iff hA.graph).1 hstart).1.symm.trans hpath.procOf)
  refine ⟨q, node, x.node, x.edge, hg.procs _ _ hpath.hasProc, hstart, hg.nodes _ _ hsp, ?_,
    fun hv => ?_⟩
  · rw [hstore.paths, PathTable.get?_insert, if_pos ⟨rfl, rfl, h.diagonal⟩]
  · rw [hstore.store]
    have hid : s.store.Absorbs e := .inl h.identity
    generalize s.paths.get? x.node x.source x.target = old at hm
    generalize x.edge = ef at hm ⊢
    cases hm with
    | new => exact hid
    | join _ _ hjoins _ _ _ => exact (hjoins hv).absorbs (.inr hid)

variable [DecidableEq L]

theorem Rooted.move {p : ProcId} {a : FactId} (h : Rooted A s p a) (hmove : Move A Z s s') :
    Rooted A s' p a := by
  have hg := hmove.grows
  cases hmove with
  | quiet _ hq => exact h.of_quiet hg hq.paths
  | path _ hm _ hstore =>
    obtain ⟨q, sp, n, ef, hq, hsp, hn, hef, habs⟩ := h
    refine ⟨q, sp, n, ?_⟩
    simp only [hstore.paths, PathTable.get?_insert, hstore.store]
    split
    · next hkey =>
      obtain ⟨rfl, rfl, heq⟩ := hkey
      rw [heq, hef] at hm
      cases hm with
      | join _ _ hjoins _ _ _ =>
        exact ⟨_, hg.procs _ _ hq, hsp, hg.nodes _ _ hn, rfl,
          fun hv => (hjoins hv).absorbs (.inl (habs hv))⟩
    · exact ⟨ef, hg.procs _ _ hq, hsp, hg.nodes _ _ hn, hef, habs⟩
  | key _ => exact h.of_quiet hg rfl
  | summary _ _ _ _ _ => exact h.of_quiet hg rfl
  | call _ _ _ _ _ _ => exact h.of_quiet hg rfl
  | link _ _ _ _ => exact h.of_quiet hg rfl
  | seed _ _ _ => exact h.of_quiet hg rfl

/-- Entering a procedure again changes nothing. -/
theorem Rooted.not_entered (hg : A.graph.Consistent)
    (hvalued : A.config.computeValues = true → A.Valued) (hb : Base A s) {x : PathEdge}
    {p : ProcId} {e : EdgeRef} (hroot : Rooted A s p x.source)
    (hpath : PathOk A s { x with edge := e } p)
    (hm : Merged A s.store e (s.paths.get? x.node x.source x.target) x.edge) :
    ¬ AtStart A s x e := by
  intro hstart
  obtain ⟨q, sp, n, ef, hq, hsp, hn, hef, habs⟩ := hroot
  obtain ⟨node, proc, _, _, hpath⟩ := hpath
  obtain ⟨sp', q', hsp', hstart'⟩ := hstart.start
  obtain rfl := Option.some.inj (hpath.hasNode.symm.trans hsp')
  obtain rfl := Option.some.inj (hpath.hasProc.symm.trans hq)
  obtain rfl := Except.ok.inj (((Supergraph.startOf_iff hg).1 hstart').1.symm.trans hpath.procOf)
  obtain rfl := hsp.unique hg hstart'
  obtain rfl : n = x.node := congrArg NodeId.mk (Interner.get?_inj hb.nodes hn hpath.hasNode)
  rw [hstart.diagonal, hef] at hm
  cases hm with
  | join hv _ hjoins _ hne _ =>
    exact hne ((hjoins (hvalued hv)).identity_right hstart.identity (habs (hvalued hv)))

/-- A change that leaves path edges and their queue alone. -/
theorem Resting.of_grows (h : Resting A W s) (hinv : Inv A s) (hs : s'.procs.Wf) (hg : s.Grows s')
    (hpaths : s'.paths = s.paths) (hqueue : s'.queue = s.queue)
    (hledger : ∀ c ∈ s'.ledger, c ∈ s.ledger ∨ ∀ p, InProc A s' c.site p → ¬ W p c.source)
    (hkeys : ∀ e q, PendingKey s' e q → PendingKey s e q ∨ ¬ W q e) : Resting A W s' where
  rooted hv n a b ef p hef hp := by
    rw [hpaths] at hef
    obtain ⟨q, hq⟩ := hinv.paths n a b ef hef
    exact (h.rooted hv n a b ef p hef (hq.inProc.of_grows hs hg hp)).of_quiet hg hpaths
  asleep p a hw := (h.asleep p a hw).of_quiet hg hpaths
  closed c hc p hp hw := by
    rcases hledger c hc with hc | hnot
    · obtain ⟨q, hq⟩ := hinv.exists_inProc hc
      exact h.closed c hc p (hq.of_grows hs hg hp) hw
    · exact absurd hw (hnot p hp)
  queue x hx p hp := by
    rw [hqueue] at hx
    obtain ⟨⟨q, hq⟩, -⟩ := hinv.queue x hx
    exact h.queue x hx p (hq.inProc.of_grows hs hg hp)
  keys e q hk := (hkeys e q hk).elim (h.keys e q) id

theorem Resting.of_storePath (h : Resting A W s) (hA : Scope A)
    (hvalued : A.config.computeValues = true → A.Valued) (hinv : Inv A s) {x : PathEdge}
    {p : ProcId} {e : EdgeRef} (hpath : PathOk A s { x with edge := e } p)
    (hm : Merged A s.store e (s.paths.get? x.node x.source x.target) x.edge)
    (hz : Z p x.source ∨ AtStart A s x e) (hstore : StorePath A x p s s')
    (hZ : Restless A Z W s) : Resting A W s' := by
  have hg := hstore.grows
  have hmove : Move A Z s s' := .path hpath hm hz hstore
  have hinv' := hmove.inv hinv
  have hawake : ¬ W p x.source := fun hw => by
    rcases hz with hz | hz
    · exact (hZ p x.source hz).2 hw
    · exact (h.asleep p _ hw).not_entered hA.graph hvalued hinv.toBase hpath hm hz
  have hx : InProc A s' x.node p := hpath.inProc.mono hg
  refine ⟨fun hv n a b ef q hef hq => ?_, fun q a hw => (h.asleep q a hw).move hmove,
    fun c hc q hq hw => ?_, fun y hy q hq => ?_, fun e q hk => h.keys e q ?_⟩
  · rw [hstore.paths, PathTable.get?_insert] at hef
    split at hef
    · next hkey =>
      obtain ⟨rfl, rfl, rfl⟩ := hkey
      obtain rfl := hx.unique hinv'.procs hq
      rcases hz with hz | hz
      · exact ((hZ p x.source hz).1 hv).move hmove
      · exact hz.rooted hA hpath hm hstore
    · obtain ⟨q', hq'⟩ := hinv.paths n a b ef hef
      exact (h.rooted hv n a b ef q hef (hq'.inProc.of_grows hinv'.procs hg hq)).move hmove
  · rw [hstore.ledger] at hc
    obtain ⟨q', hq'⟩ := hinv.exists_inProc hc
    exact h.closed c hc q (hq'.of_grows hinv'.procs hg hq) hw
  · rw [hstore.queue, Worklist.toList_push, List.mem_append, List.mem_singleton] at hy
    rcases hy with hy | rfl
    · obtain ⟨⟨q', hq'⟩, -⟩ := hinv.queue y hy
      exact h.queue y hy q (hq'.inProc.of_grows hinv'.procs hg hq)
    · exact hx.unique hinv'.procs hq ▸ hawake
  · simpa only [PendingKey, hstore.callQueue, hstore.stage] using hk

theorem Move.resting (h : Resting A W s) (hA : Scope A)
    (hvalued : A.config.computeValues = true → A.Valued) (hinv : Inv A s)
    (hZ : Restless A Z W s) (hmove : Move A Z s s') : Resting A W s' := by
  have hg := hmove.grows
  have hinv' := hmove.inv hinv
  cases hmove with
  | quiet _ hq =>
    refine h.of_grows hinv hinv'.procs hg hq.paths hq.queue
      (fun c hc => .inl (hq.ledger ▸ hc)) fun e q hk => .inl ?_
    simpa only [PendingKey, hq.callQueue, hq.stage] using hk
  | path hpath hm hz hstore => exact h.of_storePath hA hvalued hinv hpath hm hz hstore hZ
  | @key p a hz =>
    refine h.of_grows hinv hinv'.procs hg rfl rfl (fun c hc => .inl hc) fun e q hk => ?_
    rcases hk with hk | hk
    · rcases CallQueue.mem_insert.1 hk with heq | hk
      · obtain ⟨he, hq⟩ := pack_inj.1 heq
        have he : e = a := congrArg FactId.mk he
        have hq : q = p := congrArg ProcId.mk hq
        exact .inr (he ▸ hq ▸ (hZ p a hz).2)
      · exact .inl (.inl hk)
    · exact .inl (.inr hk)
  | summary _ _ _ _ _ =>
    exact h.of_grows hinv hinv'.procs hg rfl rfl (fun c hc => .inl hc) fun e q hk => .inl hk
  | @call c p _ _ _ hp hz _ =>
    refine h.of_grows hinv hinv'.procs hg rfl rfl (fun c' hc' => ?_) fun e q hk => .inl hk
    rcases CallLedger.mem_insert.1 hc' with rfl | hc'
    · refine .inr fun q hq => ?_
      rw [(hp.mono hg).unique hinv'.procs hq] at hz
      exact (hZ q c'.source hz).2
    · exact .inl hc'
  | link hi _ hlink _ =>
    obtain ⟨-, hknown⟩ := CallLedger.link_records hlink hi
    refine h.of_grows hinv hinv'.procs hg rfl rfl (fun c hc => .inl ?_) fun e q hk => .inl hk
    rw [CallLedger.mem_iff] at hc ⊢
    rw [← hknown]
    exact hc
  | seed _ _ _ =>
    exact h.of_grows hinv hinv'.procs hg rfl rfl (fun c hc => .inl hc) fun e q hk => .inl hk

theorem Moves.resting (h : Resting A W s) (hA : Scope A)
    (hvalued : A.config.computeValues = true → A.Valued) (hinv : Inv A s)
    (hZ : Restless A Z W s) (hmoves : Moves A Z s s') :
    Resting A W s' ∧ Restless A Z W s' := by
  induction hmoves with
  | refl => exact ⟨h, hZ⟩
  | tail hms hm ih =>
    exact ⟨hm.resting ih.1 hA hvalued (Moves.inv hinv hms) ih.2,
      fun p a hz => ⟨fun hv => ((ih.2 p a hz).1 hv).move hm, (ih.2 p a hz).2⟩⟩

end Tabulation
