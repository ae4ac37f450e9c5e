import Tabulation.Proofs.Solver.Mirror

/-!
# Work that was done before

Without values, a path edge that was crossed can be propagated again to no effect: everything that
follows from it is there, `propagate_redone`. Only remembered answers and counters change,
`Unmoved`.
-/

namespace Tabulation

variable {D L K : Type} [Ord D] [Ord L] [Ord K] {A : Analysis D L K} {s s' s'' : State D L K}

/-- There is a path edge from `a` to a fact at a node. -/
def Recorded (s : State D L K) (m : String) (a : FactId) (t : D) : Prop :=
  ∃ n b ef, s.HasNode n m ∧ s.HasFact b t ∧ s.paths.get? n a b = some ef

variable [JoinLattice L] [Payload K L]

theorem Covered.recorded {m : String} {a : FactId} {t : D} {φ : L → L} (h : Covered A s m a t φ) :
    Recorded s m a t := by
  obtain ⟨n, b, ef, hn, hb, hef, -⟩ := h
  exact ⟨n, b, ef, hn, hb, hef⟩

/-- What is there when a path edge was crossed. -/
structure Followed [DecidableEq D] (A : Analysis D L K) (s : State D L K) (x : PathEdge)
    (node : String) (fact : D) : Prop where
  succs : ∀ m, A.graph.Succ node m → ∃ n, s.HasNode n m
  callees : ∀ q, A.graph.Calls node q → ∃ p, s.HasProc p q
  inside : ∀ m t e, A.Inside node fact m t e → Recorded s m x.source t
  enter : ∀ q t e sp, A.Enter node fact q t e → A.graph.StartOf q sp →
    ∃ p i, s.HasProc p q ∧ s.HasFact i t ∧ ⟨.identity, x.source, p, x.node, i⟩ ∈ s.ledger ∧
      Recorded s sp i t

/-- A path edge that was crossed is followed by all that follows from it. -/
theorem Crossed.followed [DecidableEq D] (hplain : ∀ c ∈ s.ledger, c.edge = .identity)
    {x : PathEdge} (h : Crossed A s x) :
    ∃ node fact, s.HasNode x.node node ∧ s.HasFact x.target fact ∧
      Followed A s x node fact := by
  obtain ⟨node, fact, ψ, h⟩ := h
  refine ⟨node, fact, h.hasNode, h.hasFact, h.succs, h.callees,
    fun m t e he => (h.inside m t e he).recorded, fun q t e sp he hsp => ?_⟩
  obtain ⟨c, hc, hsource, hsite, hcallee, hentry, -, hcov⟩ := h.enter q t e sp he hsp
  have hedge := hplain c hc
  obtain ⟨_, _, callee, _, entry⟩ := c
  obtain rfl : _ = _ := hsource
  obtain rfl : _ = _ := hsite
  obtain rfl : _ = _ := hedge
  exact ⟨callee, entry, hcallee, hentry, hc, hcov.recorded⟩

variable [DecidableEq L] {E : Fault → Prop}

/-- Only answers and counters changed. -/
def Unmoved (A : Analysis D L K) (s s' : State D L K) : Prop :=
  Base A s' ∧ ∃ answers stats, s' = { s with answers, stats }

theorem Unmoved.refl (hb : Base A s) : Unmoved A s s := ⟨hb, s.answers, s.stats, rfl⟩

theorem Unmoved.trans (h : Unmoved A s s') (k : Unmoved A s' s'') : Unmoved A s s'' := by
  obtain ⟨-, _, _, rfl⟩ := h
  obtain ⟨hb, answers, stats, rfl⟩ := k
  exact ⟨hb, answers, stats, rfl⟩

namespace Solver

/-! ## Names that are known -/

theorem askFlow_redone (hb : Base A s) {α : Type} {ask : Answers D → α × Answers D} {g : α}
    (hask : (ask s.answers).1 = g ∧ AnswersOk A { s with answers := (ask s.answers).2 }) :
    Ensures E (askFlow ask) s fun f s' => g = f ∧ Unmoved A s s' :=
  .of_ok rfl ⟨hask.1.symm, { hb with answers := hask.2 }, _, s.stats, rfl⟩

theorem record_redone (hv : A.config.computeValues ≠ true) {n : NodeId} {a b : FactId} {p : ProcId}
    {e ef : EdgeRef} (hef : s.paths.get? n a b = some ef) :
    Ensures E (record A n a b p e) s fun _ s' => s = s' := by
  refine .of_ok (run_record_none ?_) rfl
  rw [hef, merge, if_neg hv]
  rfl

end Solver

/-! ## Path edges that were crossed -/

variable [DecidableEq D]

theorem Followed.congr {x : PathEdge} {node : String} {fact : D} (h : Followed A s x node fact)
    (hs : Unmoved A s s') : Followed A s' x node fact := by
  obtain ⟨-, _, _, rfl⟩ := hs
  exact ⟨h.succs, h.callees, h.inside, h.enter⟩

namespace Solver

theorem targets_redone (hb : Base A s) (f : FlowFunction D) (d : D) :
    Ensures E (targets f d) s fun ds s' => A.targets f d = ds ∧ s = s' := by
  have hrun : (targets f d).run s = .ok (s.answers.targets f d, s) := rfl
  exact .of_ok hrun ⟨(targets_spec hb hrun).2.symm, rfl⟩

theorem spread_redone (hv : A.config.computeValues ≠ true) (hb : Base A s) {job : PathEdge}
    {p : ProcId} {fact : D} {n : NodeId} {m : String} {flow : FlowFunction D}
    {ask : D → UInt64 → Answers D → EdgeStore L K → EdgeRef × Answers D × EdgeStore L K}
    (hn : s.HasNode n m) (hthere : ∀ t ∈ A.targets flow fact, Recorded s m job.source t) :
    Ensures E (spread A job p fact n flow ask) s fun _ s' => s = s' := by
  refine (targets_redone hb flow fact).seq ?_
  rintro _ _ ⟨rfl, rfl⟩
  refine Ensures.forM (fun s' => s = s') rfl ?_
  rintro t ht _ rfl
  obtain ⟨n', b, ef, hn', hfact, hef⟩ := hthere t ht
  obtain rfl : n = n' := congrArg NodeId.mk (Interner.get?_inj hb.nodes hn hn')
  refine (factId_known hb.facts hfact).seq ?_
  rintro _ _ ⟨rfl, rfl⟩
  rw [composeWith, if_neg hv]
  exact .seq (P := fun _ s' => s = s') (.pure rfl) fun _ _ hs => hs ▸ record_redone hv hef

theorem recordCall_redone (hb : Base A s) {c : CallRecord} (hc : c ∈ s.ledger) (callee : String) :
    Ensures E (recordCall A c callee) s fun _ s' => Unmoved A s s' := by
  unfold recordCall
  refine .get_seq ?_
  rw [CallLedger.insert_of_mem hc]
  exact .modify_seq (.modify_end ⟨hb.congr rfl rfl rfl rfl rfl, s.answers, _, rfl⟩)

theorem propagateNormal_redone (hg : A.graph.Consistent) (hv : A.config.computeValues ≠ true)
    (hb : Base A s) {x : PathEdge} {node : String} {fact : D} {p : ProcId}
    (h : Followed A s x node fact) (hnode : s.HasNode x.node node) (hfact : s.HasFact x.target fact)
    (hknown : A.graph.Known node) (hcall : A.graph.isCallSite node = .ok false)
    (hexit : A.graph.isExit node = .ok false) :
    Ensures E (propagateNormal A x node p) s fun _ s' => Unmoved A s s' := by
  refine (factOf_ensures hfact).seq ?_
  rintro _ _ ⟨rfl, rfl⟩
  obtain ⟨ms, hms, -⟩ := hknown.succs hg
  refine .ok_seq hms ?_
  refine (Ensures.forM (fun s' => Unmoved A s s') (.refl hb) fun m hm s₁ hs₁ => ?_).seq
    fun _ s' hs' => .ok_seq hexit (.pure hs')
  have h₁ := h.congr hs₁
  obtain ⟨hb₁, answers, stats, rfl⟩ := hs₁
  have hsucc : A.graph.Succ node m := ⟨ms, hms, hm⟩
  obtain ⟨n, hn⟩ := h.succs m hsucc
  refine (nodeId_known hb₁.nodes hn).seq ?_
  rintro _ _ ⟨rfl, rfl⟩
  refine (askFlow_redone hb₁ (hb₁.answers.ask_normalFlow hnode hn)).seq ?_
  rintro _ s₂ ⟨rfl, hs₂⟩
  have h₂ := h₁.congr hs₂
  obtain ⟨hb₂, answers, stats, rfl⟩ := hs₂
  refine (spread_redone hv hb₂ hn fun t ht => ?_).imp ?_
  · exact h₂.inside m t _ (.normal hcall hsucc ht)
  · rintro _ _ rfl
    exact ⟨hb₂, answers, stats, rfl⟩

theorem enterCallee_redone (hv : A.config.computeValues ≠ true) (hb : Base A s) {x : PathEdge}
    {site callee : String} {fact : D} {q : ProcId} (h : Followed A s x site fact)
    (hsite : s.HasNode x.node site) (hq : s.HasProc q callee) (hcalls : A.graph.Calls site callee)
    (hnone : A.problem.summaryFlow site callee = none) {starts : List String}
    (hstarts : A.graph.startPoints callee = .ok starts) :
    Ensures E (enterCallee A x site fact callee q (pack x.node.val q.val)) s
      fun _ s' => Unmoved A s s' := by
  refine .ok_seq hstarts ?_
  split
  · exact .pure (.refl hb)
  next hne =>
  obtain ⟨sp₀, hsp₀⟩ := List.exists_mem_of_ne_nil starts (by simpa using hne)
  refine (askFlow_redone hb (hb.answers.ask_callFlow hsite hq)).seq ?_
  rintro _ s₁ ⟨rfl, hs₁⟩
  have h₁ := h.congr hs₁
  obtain ⟨hb₁, answers, stats, rfl⟩ := hs₁
  refine (targets_redone hb₁ _ fact).seq ?_
  rintro _ _ ⟨rfl, rfl⟩
  refine Ensures.forM (fun s' => Unmoved A s s') ⟨hb₁, answers, stats, rfl⟩ fun t ht s₂ hs₂ => ?_
  have henter : A.Enter site fact callee t (A.problem.callEdge site fact callee t) :=
    .intro hcalls hnone ht
  have h₂ := h.congr hs₂
  obtain ⟨hb₂, answers₂, stats₂, rfl⟩ := hs₂
  obtain ⟨p, i, hp, hi, hmem, -⟩ := h₂.enter callee t _ sp₀ henter ⟨starts, hstarts, hsp₀⟩
  obtain rfl : q = p := congrArg ProcId.mk (Interner.get?_inj hb.procs hq hp)
  refine (factId_known hb₂.facts hi).seq ?_
  rintro _ _ ⟨rfl, rfl⟩
  rw [composeWith, if_neg hv]
  refine .seq (P := fun e s' => e = .identity ∧ s' = _) (.pure ⟨rfl, rfl⟩) ?_
  rintro _ _ ⟨rfl, rfl⟩
  refine .seq (P := fun _ s' => _ = s') (Ensures.forM (fun s' => _ = s') rfl ?_) ?_
  · rintro sp hsp _ rfl
    obtain ⟨_, j, _, hj, -, n, b, ef, hn, hb', hef⟩ :=
      h₂.enter callee t _ sp henter ⟨starts, hstarts, hsp⟩
    obtain rfl : i = j := congrArg FactId.mk (Interner.get?_inj hb₂.facts hi hj)
    obtain rfl : i = b := congrArg FactId.mk (Interner.get?_inj hb₂.facts hi hb')
    refine (nodeId_known hb₂.nodes hn).seq ?_
    rintro _ _ ⟨rfl, rfl⟩
    exact record_redone hv hef
  · rintro _ _ rfl
    refine (recordCall_redone hb₂ hmem callee).imp fun _ s' hs' => ?_
    exact Unmoved.trans ⟨hb₂, answers₂, stats₂, rfl⟩ hs'

theorem propagateCall_redone (hg : A.graph.Consistent) (hv : A.config.computeValues ≠ true)
    (hb : Base A s) {x : PathEdge} {site : String} {fact : D} {p : ProcId}
    (h : Followed A s x site fact) (hsite : s.HasNode x.node site) (hfact : s.HasFact x.target fact)
    (hknown : A.graph.Known site) (hcall : A.graph.isCallSite site = .ok true) :
    Ensures E (propagateCall A x site p) s fun _ s' => Unmoved A s s' := by
  refine (factOf_ensures hfact).seq ?_
  rintro _ _ ⟨rfl, rfl⟩
  obtain ⟨callees, hcallees, hdeclared⟩ := hknown.callees hg
  obtain ⟨rets, hrets, -⟩ := hknown.succs hg
  have hne : callees ≠ [] := by
    obtain ⟨q, ps, hps, hq⟩ := Supergraph.isCallSite_iff.1 hcall
    obtain rfl := Except.ok.inj (hps.symm.trans hcallees)
    exact List.ne_nil_of_mem hq
  refine .ok_seq hcallees (.ok_seq hrets ?_)
  refine (Ensures.forM (fun s' => Unmoved A s s') (.refl hb) fun m hm s₁ hs₁ => ?_).seq
    fun _ s₁ hs₁ => Ensures.forM (fun s' => Unmoved A s s') hs₁ fun callee hq s₂ hs₂ => ?_
  · have hsucc : A.graph.Succ site m := ⟨rets, hrets, hm⟩
    have h₁ := h.congr hs₁
    obtain ⟨hb₁, answers, stats, rfl⟩ := hs₁
    obtain ⟨n, hn⟩ := h.succs m hsucc
    refine (nodeId_known hb₁.nodes hn).seq ?_
    rintro _ _ ⟨rfl, rfl⟩
    refine (askFlow_redone hb₁ (hb₁.answers.ask_bypassFlow hsite hn hcallees)).seq ?_
    rintro _ s₂ ⟨rfl, hs₂⟩
    have h₂ := h₁.congr hs₂
    obtain ⟨hb₂, answers, stats, rfl⟩ := hs₂
    refine (spread_redone hv hb₂ hn fun t ht => ?_).imp ?_
    · exact h₂.inside m t _ (.bypass hcallees hne hsucc ht)
    · rintro _ _ rfl
      exact ⟨hb₂, answers, stats, rfl⟩
  · have hcalls : A.graph.Calls site callee := ⟨callees, hcallees, hq⟩
    have h₂ := h.congr hs₂
    obtain ⟨hb₂, answers, stats, rfl⟩ := hs₂
    obtain ⟨q, hq'⟩ := h.callees callee hcalls
    refine (procId_known hb₂.procs hq').seq ?_
    rintro _ _ ⟨rfl, rfl⟩
    refine (askFlow_redone hb₂ (hb₂.answers.ask_summaryFlow hsite hq')).seq ?_
    rintro _ s₃ ⟨rfl, hs₃⟩
    have h₃ := h₂.congr hs₃
    obtain ⟨hb₃, answers₃, stats₃, rfl⟩ := hs₃
    cases hflow : A.problem.summaryFlow site callee with
    | none =>
      obtain ⟨starts, hstarts, -⟩ := Supergraph.startPoints_total hg (hdeclared callee hq)
      refine (enterCallee_redone hv hb₃ h₃ hsite hq' hcalls hflow hstarts).imp fun _ s' hs' => ?_
      exact Unmoved.trans ⟨hb₃, answers₃, stats₃, rfl⟩ hs'
    | some flow =>
      refine Ensures.forM (fun s' => Unmoved A s s') ⟨hb₃, answers₃, stats₃, rfl⟩
        fun m hm s₄ hs₄ => ?_
      have hsucc : A.graph.Succ site m := ⟨rets, hrets, hm⟩
      have h₄ := h.congr hs₄
      obtain ⟨hb₄, answers₄, stats₄, rfl⟩ := hs₄
      obtain ⟨n, hn⟩ := h.succs m hsucc
      refine (nodeId_known hb₄.nodes hn).seq ?_
      rintro _ _ ⟨rfl, rfl⟩
      refine (spread_redone hv hb₄ hn fun t ht => ?_).imp ?_
      · exact h₄.inside m t _ (.summary hcalls hflow hsucc ht)
      · rintro _ _ rfl
        exact ⟨hb₄, answers₄, stats₄, rfl⟩

theorem propagate_redone (hA : Comparable A) (hv : A.config.computeValues ≠ true) (hb : Base A s)
    {x : PathEdge} {p : ProcId} (h : Crossed A s x) (hp : InProc A s x.node p)
    (hplain : ∀ c ∈ s.ledger, c.edge = .identity)
    (hexit : ∀ node, s.HasNode x.node node → A.graph.isExit node = .ok false) :
    Ensures E (propagate A x) s fun _ s' => Unmoved A s s' := by
  obtain ⟨node, fact, hnode, hfact, h⟩ := h.followed hplain
  obtain ⟨node', proc, hnode', hproc, hname⟩ := hp
  obtain rfl := Option.some.inj (hnode.symm.trans hnode')
  have hknown := Supergraph.known_of_procOf hproc
  refine (nodeName_ensures hnode).seq ?_
  rintro _ _ ⟨rfl, rfl⟩
  refine .ok_seq hproc ((procId_known hb.procs hname).seq ?_)
  rintro _ _ ⟨rfl, rfl⟩
  rw [if_neg (by rw [hA.mode]; nofun)]
  obtain ⟨isCall, hcall⟩ := hknown.isCallSite
  refine .ok_seq hcall ?_
  cases isCall with
  | true => exact propagateCall_redone hA.graph hv hb h hnode hfact hknown hcall
  | false =>
    exact propagateNormal_redone hA.graph hv hb h hnode hfact hknown hcall (hexit node hnode)

end Solver

end Tabulation
