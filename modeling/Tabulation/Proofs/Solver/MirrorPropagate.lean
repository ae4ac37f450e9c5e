import Tabulation.Proofs.Solver.Mirror

/-!
# Propagation side by side

The programs that propagate path edges, run on two states that mirror each other, leave states that
do so again.
-/

namespace Tabulation

variable {D L K : Type} [Ord D] [Ord L] [Ord K] [JoinLattice L] [Payload K L] [DecidableEq L]
  {A : Analysis D L K} {m : GcMode} {w : Slack} {s t : State D L K}

/-- The same key was queued on both sides. -/
theorem Mirrors.withKey (h : Mirrors A m w s t) (key : UInt64) :
    Advances A m w s t { s with callQueue := (s.callQueue.insert key).2 }
      { t with callQueue := (t.callQueue.insert key).2 } := by
  refine ⟨{ h with
    base' := h.base'.congr rfl rfl rfl rfl rfl
    base := h.base.congr rfl rfl rfl rfl rfl
    keys := ?_ }, { State.Grows.refl s with }, { State.Grows.refl t with }⟩
  show (s.callQueue.insert key).2.keys = (t.callQueue.insert key).2.keys
  unfold CallQueue.insert
  rw [h.keys]
  split
  · exact h.keys
  · rfl

/-- A summary was stored on both sides. -/
theorem Mirrors.withSummary (h : Mirrors A m w s t) {p : ProcId} {a : FactId} {x : NodeId}
    {b : FactId} {e' e : EdgeRef} (he : Alike A s.store t.store e' e) :
    Advances A m w s t { s with summaries := (s.summaries.insert p a x b e').2 }
      { t with summaries := (t.summaries.insert p a x b e).2 } := by
  refine ⟨{ h with
    base' := h.base'.congr rfl rfl rfl rfl rfl
    base := h.base.congr rfl rfl rfl rfl rfl
    summaries := fun p' a' x' b' => ?_ }, { State.Grows.refl s with }, { State.Grows.refl t with }⟩
  show Option.Rel _ ((s.summaries.insert p a x b e').2.get? p' a' x' b')
    ((t.summaries.insert p a x b e).2.get? p' a' x' b')
  rw [SummaryTable.get?_insert, SummaryTable.get?_insert]
  split
  · exact .some he
  · exact h.summaries p' a' x' b'

namespace Solver

theorem recordSummary_follows (hA : Comparable A) (h : Mirrors A m w s t) {job' job : PathEdge}
    {p : ProcId} (hjob : PathAlike A s.store t.store job' job) :
    Follows (recordSummary (A.withGc m) job' p) s (recordSummary A job p) t
      fun _ _ s' t' => Advances A m w s t s' t' := by
  obtain ⟨e', rfl, he⟩ := hjob
  refine .modify_seq ?_
  have hadv := h.withKey (pack job.source.val p.val)
  dsimp only
  by_cases hu : A.config.useSummaryTable = true
  · rw [if_pos hu, if_pos (show (A.withGc m).config.useSummaryTable = true from hu)]
    refine .get_seq ?_
    have hsum := h.summaries p job.source job.node job.target
    dsimp only
    generalize s.summaries.get? p job.source job.node job.target = o' at hsum
    generalize t.summaries.get? p job.source job.node job.target = o at hsum
    cases hsum with
    | none =>
      refine .modify_end ?_
      exact (hadv.trans (hadv.mirrors.withSummary he)).trans
        ((hadv.mirrors.withSummary he).mirrors.withStats _ _)
    | @some o' o ho =>
      dsimp only
      by_cases hv : A.config.computeValues = true
      · rw [if_pos hv, if_pos (show (A.withGc m).config.computeValues = true from hv)]
        refine (joinEdges_follows hA hv hadv.mirrors ho he).seq ?_
        rintro c' c s₁ t₁ ⟨hc, hadv₁⟩
        have hiff := hc.eq_iff hadv₁.mirrors.neat (ho.mono hadv₁.left.store hadv₁.right.store)
        by_cases heq : c = o
        · rw [if_neg (not_not_intro heq), if_neg (not_not_intro (hiff.2 heq))]
          exact .pure (hadv.trans hadv₁)
        · rw [if_pos heq, if_pos (mt hiff.1 heq)]
          exact .modify_end ((hadv.trans hadv₁).trans (hadv₁.mirrors.withSummary hc))
      · rw [if_neg hv, if_neg (show ¬ (A.withGc m).config.computeValues = true from hv)]
        exact .pure hadv
  · rw [if_neg hu, if_neg (show ¬ (A.withGc m).config.useSummaryTable = true from hu)]
    exact .pure hadv

variable [DecidableEq D] [Std.TransOrd D] [Std.LawfulEqOrd D]

/-! ## Edges inside a procedure -/

theorem spread_follows (hA : Comparable A) (hm : m.isEnabled = true) (h : Mirrors A m w s t)
    {job' job : PathEdge} {p : ProcId} {n : NodeId} {fact : D} {flow : FlowFunction D}
    {ask : D → UInt64 → Answers D → EdgeStore L K → EdgeRef × Answers D × EdgeStore L K}
    (edge : D → EdgeFunction L K) (hjob : PathAlike A s.store t.store job' job)
    (hp : InProc A t n p) (hopen : Writable A m w t n p job.source)
    (hask' : AsksEdges (A.withGc m) s job.target ask edge)
    (hask : AsksEdges A t job.target ask edge) :
    Follows (spread (A.withGc m) job' p fact n flow ask) s (spread A job p fact n flow ask) t
      fun _ _ s' t' => Advances A m w s t s' t' := by
  obtain ⟨e', rfl, he⟩ := hjob
  refine (targets_follows h flow fact).seq ?_
  rintro _ _ _ _ ⟨rfl, rfl, rfl, rfl⟩
  refine Follows.forM_same (fun s' t' => Advances A m w s t s' t') (.refl h) ?_
  intro target _ s' t' hadv
  refine (factId_follows hadv.mirrors target).seq ?_
  rintro i _ s₁ t₁ ⟨rfl, hi, hadv₁⟩
  replace hadv₁ := hadv.trans hadv₁
  refine (composeWith_follows hA hadv₁.mirrors (he.mono hadv₁.left.store hadv₁.right.store)
    fun hv => ⟨hask' hv s₁ target i hadv₁.left hadv₁.mirrors.base' (hadv₁.mirrors.hasFact.2 hi),
      hask hv t₁ target i hadv₁.right hadv₁.mirrors.base hi⟩).seq ?_
  rintro ef' ef s₂ t₂ ⟨hef, hadv₂, -⟩
  replace hadv₂ := hadv₁.trans hadv₂
  exact (record_follows hA hm hadv₂.mirrors (hp.mono hadv₂.right) (hopen.mono hadv₂.right) hef).imp
    fun _ _ _ _ hadv₃ => hadv₂.trans hadv₃

theorem propagateNormal_follows (hA : Comparable A) (hm : m.isEnabled = true)
    (h : Mirrors A m w s t) {job' job : PathEdge} {node proc : String} {p : ProcId}
    (hjob : PathAlike A s.store t.store job' job) (hnode : t.HasNode job.node node)
    (hproc : A.graph.procOf node = .ok proc) (hp : t.HasProc p proc)
    (hopen : Open A w p job.source) :
    Follows (propagateNormal (A.withGc m) job' node p) s (propagateNormal A job node p) t
      fun _ _ s' t' => Advances A m w s t s' t' := by
  obtain ⟨e', rfl, he⟩ := hjob
  refine (factOf_follows h job.target).seq ?_
  rintro fact _ _ _ ⟨rfl, hfact, rfl, rfl⟩
  refine .lift_seq fun succs hsuccs => ?_
  refine (Follows.forM_same (fun s' t' => Advances A m w s t s' t') (.refl h) ?_).seq ?_
  · intro succ hsucc s₁ t₁ hadv
    refine (nodeId_follows hadv.mirrors succ).seq ?_
    rintro n _ s₂ t₂ ⟨rfl, hn, hadv₂⟩
    replace hadv₂ := hadv.trans hadv₂
    have hnode₂ := hadv₂.right.nodes _ _ hnode
    refine (askFlow_follows hadv₂.mirrors
      (hadv₂.mirrors.base'.answers.ask_normalFlow (hadv₂.mirrors.hasNode.2 hnode₂)
        (hadv₂.mirrors.hasNode.2 hn))
      (hadv₂.mirrors.base.answers.ask_normalFlow hnode₂ hn)).seq ?_
    rintro _ flow s₃ t₃ ⟨rfl, rfl, hadv₃⟩
    have hn₃ := hadv₃.right.nodes _ _ hn
    have hnode₃ := hadv₃.right.nodes _ _ hnode₂
    replace hadv₃ := hadv₂.trans hadv₃
    have hfact₃ := hadv₃.right.facts _ _ hfact
    have hm₃ := hadv₃.mirrors
    refine (spread_follows hA hm hm₃ (A.problem.normalEdge node fact succ)
      ⟨e', rfl, he.mono hadv₃.left.store hadv₃.right.store⟩
      ⟨succ, proc, hn₃, Supergraph.procOf_succ hA.graph ⟨succs, hsuccs, hsucc⟩ hproc,
        hadv₃.right.procs _ _ hp⟩ (.inr hopen)
      (fun hv u target i hg hb hi => ?_) fun hv u target i hg hb hi => ?_).imp
        fun _ _ _ _ hadv₄ => hadv₃.trans hadv₄
    · obtain ⟨_, _, _, _⟩ := (hA.laws hv).orders
      exact asks_normalEdge hb.store hb.answers (hg.nodes _ _ (hm₃.hasNode.2 hnode₃))
        (hg.nodes _ _ (hm₃.hasNode.2 hn₃)) (hg.facts _ _ (hm₃.hasFact.2 hfact₃)) hi
    · obtain ⟨_, _, _, _⟩ := (hA.laws hv).orders
      exact asks_normalEdge hb.store hb.answers (hg.nodes _ _ hnode₃) (hg.nodes _ _ hn₃)
        (hg.facts _ _ hfact₃) hi
  · rintro _ _ s₁ t₁ hadv
    refine .lift_seq fun isExit _ => ?_
    cases isExit with
    | true =>
      exact (recordSummary_follows hA hadv.mirrors
        ⟨e', rfl, he.mono hadv.left.store hadv.right.store⟩).imp fun _ _ _ _ h => hadv.trans h
    | false => exact .pure hadv

end Solver

end Tabulation
