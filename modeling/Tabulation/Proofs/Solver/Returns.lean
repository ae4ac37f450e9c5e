import Tabulation.Proofs.Solver.Propagate

/-!
# Returns from calls

`applySummaries` covers the return sites of a recorded call. After a loop over all exit points of
the callee, as in `applyKnownSummaries`, the call is `Returned`.
-/

namespace Tabulation

variable {D L K : Type} [Ord L] [Ord K] [DecidableEq D] [JoinLattice L] [Payload K L]
  {A : Analysis D L K}

theorem Analysis.Exact.across {st st' : EdgeStore L K} {call summary ef : EdgeRef}
    {p q site exit m : String} {a c d t : D} {e : EdgeFunction L K}
    (hcall : A.Exact st call (A.CallPath p a site q c))
    (hsummary : A.Exact st summary (A.SameLevel q c exit d)) (he : A.Leave site q exit d m t e)
    (hd : A.Valued → A.Distributive)
    (hmeans : A.Valued → ∀ χ σ, st.Means call χ → st.Means summary σ →
      st'.Means ef (e.apply ∘ σ ∘ χ)) : A.Exact st' ef (A.SameLevel p a m t) := by
  constructor
  · obtain ⟨χ, ⟨hlevel, he₁⟩⟩ := hcall.1
    obtain ⟨σ, hσ⟩ := hsummary.1
    exact ⟨_, hlevel.across he₁ hσ he⟩
  · intro hv
    obtain ⟨χ, hχ, hχm⟩ := hcall.2 hv
    obtain ⟨σ, hσ, hσm⟩ := hsummary.2 hv
    -- First take the calls through each path of the callee, then all of them back.
    have hthrough : JoinOf (fun θ => ∃ χ σ, A.CallPath p a site q c χ ∧
        A.SameLevel q c exit d σ ∧ θ = σ ∘ χ) (σ ∘ χ) :=
      hσ.precomp fun σ' hσ' => hχ.map (hσ'.distributes (hd hv)) fun χ' hχ' =>
        ⟨χ', σ', hχ', hσ', rfl⟩
    refine ⟨_, hthrough.map (hd hv e he.edgeOf) ?_, hmeans hv χ σ hχm hσm⟩
    rintro _ ⟨χ', σ', ⟨hlevel, he₁⟩, hσ', rfl⟩
    exact hlevel.across he₁ hσ' he

variable [Ord D]

/-- What is known about a fact at an exit point, when it is applied to a call. -/
structure ExitFacts (A : Analysis D L K) (s : State D L K) (d : FactId) (ef : EdgeRef)
    (callee exit : String) (entry fact : D) : Prop where
  hasFact : s.HasFact d fact
  noCall : A.Sealed → A.graph.isCallSite exit = .ok false
  derives : A.Sealed → A.Derives callee entry exit fact
  labelled : A.Labelled s.store ef
  exact : Precise A s → A.Exact s.store ef (A.SameLevel callee entry exit fact)
  spelled : A.Spelled s.store ef fun R => R callee entry exit fact

theorem ExitFacts.mono {s s' : State D L K} {d : FactId} {ef : EdgeRef} {callee exit : String}
    {entry fact : D} (h : ExitFacts A s d ef callee exit entry fact) (hg : s.Grows s') :
    ExitFacts A s' d ef callee exit entry fact where
  hasFact := hg.facts _ _ h.hasFact
  noCall := h.noCall
  derives := h.derives
  labelled := h.labelled.mono hg.store
  exact hp := (h.exact (hp.of_grows hg)).mono hg.store
  spelled := h.spelled.mono hg.store

/-- A call followed by a summary of its callee and an edge back. -/
theorem RecordFacts.across {s s' : State D L K} {c : CallRecord} {y : PathEdge} {p : ProcId}
    {site caller callee exit ret : String} {source entry fact t : D} {d : FactId} {ef : EdgeRef}
    (h : RecordFacts A s c site caller callee source entry)
    (hexit : ExitFacts A s d ef callee exit entry fact) (hg : s.Grows s')
    (hexitOf : A.graph.ExitOf callee exit) (hret : A.graph.Succ site ret)
    (hgraph : A.graph.Consistent)
    (ht : t ∈ A.targets (A.problem.returnFlow site callee exit ret) fact)
    (hsource : y.source = c.source) (hn : s'.HasNode y.node ret) (hb : s'.HasFact y.target t)
    (hp : s'.HasProc p caller) (hl : A.Labelled s'.store y.edge)
    (hmeans : A.Valued → ∀ χ σ, s.store.Means c.edge χ → s.store.Means ef σ →
      s'.store.Means y.edge ((A.problem.returnEdge site callee exit fact ret t).apply ∘ σ ∘ χ))
    (hleaf : A.Valued → ∀ f g j h, s.store.LeafAt f c.edge → s.store.LeafAt g ef →
      f.andThen? g = some j →
      j.andThen? (A.problem.returnEdge site callee exit fact ret t) = some h →
      s'.store.LeafAt h y.edge) : PathFacts A s' y p ret caller source t where
  hasNode := hn
  hasSource := hsource ▸ hg.facts _ _ h.hasSource
  hasTarget := hb
  hasProc := hp
  procOf := Supergraph.procOf_succ hgraph hret h.procOf
  entered := h.entered.mono hg
  origin := .inr ⟨_, hret⟩
  derives hs := by
    obtain ⟨b, e, -, henter, hsite⟩ := h.enter
    obtain ⟨sp, hsp⟩ := h.start
    exact (hsite hs).across henter hsp (hexit.derives hs) (.intro hexitOf (hexit.noCall hs) hret ht)
  labelled := hl
  exact hp := by
    have hp' := hp.of_grows hg
    exact (h.exact hp').across (hexit.exact hp') (.intro hexitOf (hexit.noCall hp.exits) hret ht)
      (fun hv => (hp.values hv.1).1) hmeans
  spelled R hR := by
    obtain ⟨i, ⟨b, f, e, hf, henter, hi⟩, hati⟩ := h.spelled R hR
    obtain ⟨g, hg, hatg⟩ := hexit.spelled R hR
    obtain ⟨j, k, hj, hk, hR'⟩ := hR.across hf henter hi hg
      (.intro hexitOf (hexit.noCall hR.exits) hret ht)
    exact ⟨k, hR', hleaf hR.valued i g j k hati hatg hj hk⟩

/-- A summary, as it was in the first state, was taken to a return site of a call. -/
def TakenBack (A : Analysis D L K) (s t : State D L K) (c : CallRecord)
    (site callee exit ret : String) (d : FactId) (ef : EdgeRef) : Prop :=
  ∀ fact χ σ, s.HasFact d fact → (A.Valued → s.store.Means c.edge χ) →
    (A.Valued → s.store.Means ef σ) →
    ∀ target ∈ A.targets (A.problem.returnFlow site callee exit ret) fact,
      Covered A t ret c.source target
        ((A.problem.returnEdge site callee exit fact ret target).apply ∘ σ ∘ χ)

theorem TakenBack.later {s t t' : State D L K} {c : CallRecord}
    {site callee exit ret : String} {d : FactId} {ef : EdgeRef}
    (h : TakenBack A s t c site callee exit ret d ef) (hl : Later A t t') :
    TakenBack A s t' c site callee exit ret d ef :=
  fun fact χ σ hd hχ hσ target ht => (h fact χ σ hd hχ hσ target ht).later hl

theorem TakenBack.of_grows {s s' t : State D L K} {c : CallRecord} {site callee exit ret : String}
    {d : FactId} {ef : EdgeRef} (h : TakenBack A s' t c site callee exit ret d ef)
    (hg : s.Grows s') : TakenBack A s t c site callee exit ret d ef :=
  fun fact χ σ hf hχ hσ => h fact χ σ (hg.facts _ _ hf) (fun hv => (hχ hv).mono hg.store)
    fun hv => (hσ hv).mono hg.store

variable [DecidableEq L]

theorem Fill.summary (hA : Scope A) {Z : ProcId → FactId → Prop} {s s' : State D L K}
    (h : Inv A s) (hfill : Fill A Z s s') {p : ProcId} {e : FactId} {x : NodeId} {d : FactId}
    {ef : EdgeRef} (hs : Summary A s' p e x d ef) : Summary A s p e x d ef :=
  hfill.moves.summary hA h (fun hef => hfill.summaries ▸ hef) hs

/-- What is known about a summary, wherever it is read from. -/
structure LeavingFacts (A : Analysis D L K) (s : State D L K) (x : NodeId) (d : FactId)
    (ef : EdgeRef) (callee exit : String) (fact : D) : Prop where
  hasExit : s.HasNode x exit
  hasFact : s.HasFact d fact
  exitOf : A.graph.ExitOf callee exit
  labelled : A.Labelled s.store ef

theorem Summary.facts {s : State D L K} (h : Inv A s) {p : ProcId} {e : FactId}
    {x : NodeId} {d : FactId} {ef : EdgeRef} {callee : String} (hs : Summary A s p e x d ef)
    (hp : s.HasProc p callee) : ∃ exit fact, LeavingFacts A s x d ef callee exit fact := by
  cases hs with
  | table _ hef =>
    obtain ⟨⟨proc, exit, _, fact, hsum⟩, -⟩ := h.summaries _ _ _ _ _ hef
    obtain rfl := Option.some.inj (hp.symm.trans hsum.hasProc)
    exact ⟨exit, fact, hsum.hasExit, hsum.hasFact, hsum.exitOf, hsum.labelled⟩
  | path _ hl hef _ =>
    obtain ⟨q, exit, hq, hx, hexit, -⟩ := hl
    obtain rfl := Option.some.inj (hp.symm.trans hq)
    obtain ⟨_, _, _, _, fact, hpath⟩ := h.paths _ _ _ _ hef
    exact ⟨exit, fact, hx, hpath.hasTarget, hexit, hpath.labelled⟩

namespace Solver

variable {Z : ProcId → FactId → Prop} {s s' : State D L K}

theorem summariesAt_spec (hA : Scope A) (entry : D) (h : Inv A s) {p : ProcId} {e : FactId}
    {x : NodeId} {callee exit : String} {l : List (FactId × EdgeRef)} (hp : s.HasProc p callee)
    (hx : s.HasNode x exit) (hexit : A.graph.ExitOf callee exit)
    (hrun : (summariesAt A p e x).run s = .ok (l, s')) :
    s = s' ∧ (s.HasFact e entry → ∀ d ef, (d, ef) ∈ l →
        ∃ fact, ExitFacts A s d ef callee exit entry fact) ∧
      ∀ d ef, Summary A s p e x d ef → (d, ef) ∈ l := by
  obtain ⟨_, _, hget, hrun⟩ := run_bind_ok hrun
  obtain ⟨rfl, rfl⟩ := run_get_ok hget
  obtain ⟨rfl, rfl⟩ := run_pure_ok hrun
  refine ⟨rfl, fun he d ef hd => ?_, fun d ef hef => ?_⟩
  · split at hd
    · obtain ⟨⟨proc, exit', entry', fact, hsum⟩, -⟩ :=
        h.summaries p e x d ef (SummaryTable.mem_leaving.1 hd)
      obtain rfl := Option.some.inj (hp.symm.trans hsum.hasProc)
      obtain rfl := Option.some.inj (he.symm.trans hsum.hasEntry)
      obtain rfl := Option.some.inj (hx.symm.trans hsum.hasExit)
      exact ⟨fact, hsum.hasFact, fun _ => hsum.noCall, hsum.derives, hsum.labelled, hsum.exact,
        hsum.spelled⟩
    · next hu =>
      obtain ⟨q, node, proc, source, fact, hpath⟩ :=
        h.paths x e d ef (PathTable.mem_targetsOf.1 hd)
      obtain rfl := Option.some.inj (hx.symm.trans hpath.hasNode)
      obtain rfl := Option.some.inj (he.symm.trans hpath.hasSource)
      obtain rfl := Except.ok.inj
        (((Supergraph.exitOf_iff hA.graph).1 hexit).1.symm.trans hpath.procOf)
      exact ⟨fact, hpath.hasTarget, fun hs => hs.resolve_left hu _ _ hexit, hpath.derives,
        hpath.labelled, hpath.exact, hpath.spelled⟩
  · cases hef with
    | table hu hef =>
      rw [if_pos hu]
      exact SummaryTable.mem_leaving.2 hef
    | path hu _ hef _ =>
      rw [if_neg hu]
      exact PathTable.mem_targetsOf.2 hef

/-- A loop over the exit points of a procedure that applies the summaries at each of them to some
calls. Afterwards these calls are returned. -/
theorem forExits_spec (hA : Scope A) (h : Inv A s) {cs : List CallRecord} {p : ProcId}
    {e : FactId} {callee : String} {entry : D} {exits : List String} {u : PUnit}
    {apply : String → NodeId → List (FactId × EdgeRef) → SolverM D L K Unit}
    (hp : s.HasProc p callee) (he : cs ≠ [] → s.HasFact e entry)
    (hexits : A.graph.exitPoints callee = .ok exits)
    (hcs : ∀ c ∈ cs, c.callee = p ∧ c.entry = e ∧ RecordOk A s c)
    (happly : ∀ exit x l t t' u, Inv A t → Fill A Z s t → t.HasNode x exit →
      A.graph.ExitOf callee exit →
      (cs ≠ [] → ∀ d ef, (d, ef) ∈ l → ∃ fact, ExitFacts A t d ef callee exit entry fact) →
      (apply exit x l).run t = .ok (u, t') → Fill A Z t t' ∧
        ∀ c ∈ cs, ∀ site, t.HasNode c.site site → ∀ ret, A.graph.Succ site ret → ∀ y ∈ l,
          TakenBack A t t' c site callee exit ret y.1 y.2)
    (hrun : StateT.run (exits.forM fun exit => do
      let exitId ← nodeId exit
      let summaries ← summariesAt A p e exitId
      unless summaries.isEmpty do
        apply exit exitId summaries : SolverM D L K PUnit) s = .ok (u, s')) :
    Fill A Z s s' ∧ ∀ c ∈ cs, Returned A s' c := by
  have hloop := run_forM_rel (I := Inv A) (R := Fill A Z)
    (Q := fun exit t => ∀ x d ef, s.HasNode x exit → Summary A t p e x d ef → ∀ c ∈ cs,
      ∀ site, s.HasNode c.site site → ∀ ret, A.graph.Succ site ret →
      TakenBack A s t c site callee exit ret d ef)
    Fill.refl Fill.trans (fun hI hR hQ x d ef hx hef c hc site hs ret hret =>
      (hQ x d ef hx (hR.summary hA hI hef) c hc site hs ret hret).later
        (hR.moves.later hI)) hrun h ?_
  · refine ⟨hloop.2.1, fun c hc x d ef hef' => ?_⟩
    obtain ⟨rfl, rfl, site, caller, callee', source, entry', hrec⟩ := hcs c hc
    have hg := hloop.2.1.moves.grows
    obtain ⟨exit, fact, hsum⟩ := (hloop.2.1.summary hA h hef').facts h hp
    obtain ⟨ns, hns, hexit⟩ := hsum.exitOf
    obtain rfl := Except.ok.inj (hns.symm.trans hexits)
    obtain ⟨χ, hχ⟩ := hrec.labelled.exists_means
    obtain ⟨σ, hσ⟩ := hsum.labelled.exists_means
    refine ⟨site, callee, exit, fact, χ, σ, hg.nodes _ _ hrec.hasSite, hg.procs _ _ hp,
      hg.nodes _ _ hsum.hasExit, hg.facts _ _ hsum.hasFact, fun hv => (hχ hv).mono hg.store,
      fun hv => (hσ hv).mono hg.store, fun ret target edge he => ?_⟩
    cases he with
    | intro _ _ hret ht =>
      exact hloop.2.2 exit hexit x d ef hsum.hasExit hef' c hc site hrec.hasSite ret hret
        fact χ σ hsum.hasFact hχ hσ target ht
  intro exit hexit t t' ht hfill hrun
  have hg := hfill.moves.grows
  obtain ⟨y, t₁, hnode, hrun⟩ := run_bind_ok hrun
  obtain ⟨hb₁, hq₁, hy⟩ := nodeId_spec ht.toBase hnode
  have hfill₁ : Fill A Z t t₁ := hq₁.fill hb₁
  have ht₁ := Moves.inv ht hfill₁.moves
  have hg₁ := hg.trans hq₁.grows
  obtain ⟨l, _, hat, hrun⟩ := run_bind_ok hrun
  obtain ⟨rfl, hl, hall⟩ := summariesAt_spec hA entry ht₁ (hg₁.procs _ _ hp) hy
    ⟨exits, hexits, hexit⟩ hat
  have hmem : ∀ x d ef, s.HasNode x exit → Summary A t₁ p e x d ef → (d, ef) ∈ l := by
    intro x d ef hx hef
    obtain rfl : x = y := congrArg NodeId.mk
      (Interner.get?_inj hb₁.nodes (hg₁.nodes _ _ hx) hy)
    exact hall d ef hef
  split at hrun
  · next hempty =>
    obtain ⟨-, rfl⟩ := run_pure_ok hrun
    refine ⟨ht₁, hfill₁, fun x d ef hx hef => ?_⟩
    rw [List.isEmpty_iff.1 hempty] at hmem
    exact absurd (hmem x d ef hx hef) (List.not_mem_nil)
  · obtain ⟨hfill₂, hback⟩ := happly exit y l t₁ t' ⟨⟩ ht₁ (hfill.trans hfill₁) hy
      ⟨exits, hexits, hexit⟩ (fun hne => hl (hg₁.facts _ _ (he hne))) hrun
    refine ⟨Moves.inv ht₁ hfill₂.moves, hfill₁.trans hfill₂, ?_⟩
    intro x d ef hx hef c hc site hsite ret hret
    exact (hback c hc site (hg₁.nodes _ _ hsite) ret hret _
      (hmem x d ef hx (hfill₂.summary hA ht₁ hef))).of_grows hg₁

variable [Std.TransOrd D] [Std.LawfulEqOrd D]

/-- A fact at an exit point is taken back to a return site. -/
theorem returnTo_spec (hA : Scope A) (h : Inv A s) {c : CallRecord} {p : ProcId} {x n : NodeId}
    {d : FactId} {ef : EdgeRef} {site caller callee exit ret : String} {source entry fact : D}
    {ds : List D} {u : PUnit}
    (hc : RecordFacts A s c site caller callee source entry)
    (hd : ExitFacts A s d ef callee exit entry fact) (hx : s.HasNode x exit)
    (hexit : A.graph.ExitOf callee exit) (hn : s.HasNode n ret) (hret : A.graph.Succ site ret)
    (hp : s.HasProc p caller) (hz : Z p c.source)
    (hds : ds = A.targets (A.problem.returnFlow site callee exit ret) fact)
    (hrun : StateT.run (ds.forM fun target => do
      let targetId ← factId target
      let e ← composeReturn A c.edge ef fun a s =>
        a.returnEdge A.problem s site callee exit fact ret target
          (pack c.site.val x.val, n, factPair d targetId)
      record A n c.source targetId p e : SolverM D L K PUnit) s = .ok (u, s')) :
    Inv A s' ∧ Fill A Z s s' ∧ TakenBack A s s' c site callee exit ret d ef := by
  have hloop := run_forM_rel (I := Inv A) (R := Fill A Z)
    (Q := fun target t => ∀ χ σ, (A.Valued → s.store.Means c.edge χ) →
      (A.Valued → s.store.Means ef σ) → Covered A t ret c.source target
        ((A.problem.returnEdge site callee exit fact ret target).apply ∘ σ ∘ χ))
    Fill.refl Fill.trans
    (fun hI hR hQ χ σ hχ hσ => (hQ χ σ hχ hσ).later (hR.moves.later hI)) hrun h ?_
  · refine ⟨hloop.1, hloop.2.1, fun fact' χ σ hfact' hχ hσ target ht => ?_⟩
    obtain rfl := Option.some.inj (hd.hasFact.symm.trans hfact')
    exact hloop.2.2 target (hds ▸ ht) χ σ hχ hσ
  intro target htarget t t' ht hfill hrun
  have hg := hfill.moves.grows
  obtain ⟨i, t₁, hfact, hrun⟩ := run_bind_ok hrun
  obtain ⟨hb₁, hq₁, hi⟩ := factId_spec ht.toBase hfact
  obtain ⟨e, t₂, hcomp, hrec⟩ := run_bind_ok hrun
  have hg₁ : s.Grows t₁ := hg.trans hq₁.grows
  obtain ⟨hb₂, hq₂, hl, hmeans, hleaf⟩ := composeReturn_spec hA hb₁ (hc.labelled.mono hg₁.store)
    (hd.labelled.mono hg₁.store) (fun hv => by
      obtain ⟨_, _, _, _⟩ := hA.orders hv
      exact asks_returnEdge hA.graph hb₁.store hb₁.answers (hg₁.nodes _ _ hc.hasSite)
        (hg₁.nodes _ _ hx) (hg₁.nodes _ _ hn) hexit (hg₁.facts _ _ hd.hasFact) hi) hcomp
  have hg₂ : s.Grows t₂ := hg₁.trans hq₂.grows
  have hmeans₂ : A.Valued → ∀ χ σ, s.store.Means c.edge χ →
      s.store.Means ef σ → t₂.store.Means e
        ((A.problem.returnEdge site callee exit fact ret target).apply ∘ σ ∘ χ) :=
    fun hv χ σ hχ hσ => hmeans hv χ σ (hχ.mono hg₁.store) (hσ.mono hg₁.store)
  have hpath : PathFacts A t₂ ⟨n, c.source, i, e⟩ p ret caller source target :=
    hc.across hd hg₂ hexit hret hA.graph (hds ▸ htarget) rfl (hg₂.nodes _ _ hn)
      (hq₂.facts _ _ hi) (hg₂.procs _ _ hp) hl hmeans₂ fun hv f g j h hf hg =>
        hleaf hv f g j h (hf.mono hg₁.store) (hg.mono hg₁.store)
  have hfill₂ : Fill A Z t t₂ := (hq₁.trans hq₂).fill hb₂
  obtain ⟨hfill₃, ef', hef', hle⟩ := record_spec hA (Moves.inv ht hfill₂.moves)
    ⟨_, _, _, _, hpath⟩ (.inl hz) hrec
  have hg₃ := hfill₃.moves.grows
  exact ⟨Moves.inv (Moves.inv ht hfill₂.moves) hfill₃.moves, hfill₂.trans hfill₃,
    fun χ σ hχ hσ => ⟨n, i, ef', hg₃.nodes _ _ hpath.hasNode, hg₃.facts _ _ hpath.hasTarget,
      hef', hle.covers fun hv => hmeans₂ hv χ σ (hχ hv) (hσ hv)⟩⟩

/-- The summaries at an exit point were taken to all return sites of a call. -/
theorem applySummaries_spec (hA : Scope A) (h : Inv A s) {c : CallRecord} {x : NodeId}
    {site caller callee exit : String} {source entry : D} {summaries : List (FactId × EdgeRef)}
    {u : Unit} (hc : RecordFacts A s c site caller callee source entry)
    (hx : s.HasNode x exit) (hexit : A.graph.ExitOf callee exit)
    (hsummaries : ∀ d ef, (d, ef) ∈ summaries →
      ∃ fact, ExitFacts A s d ef callee exit entry fact)
    (hz : ∀ t p, s.Grows t → Base A t → t.HasProc p caller → Z p c.source)
    (hrun : (applySummaries A c exit x summaries).run s = .ok (u, s')) :
    Fill A Z s s' ∧ ∀ ret, A.graph.Succ site ret → ∀ y ∈ summaries,
      TakenBack A s s' c site callee exit ret y.1 y.2 := by
  obtain ⟨_, _, hname, hrun⟩ := run_bind_ok hrun
  obtain ⟨rfl, hsite⟩ := nodeName_spec hname
  obtain rfl := Option.some.inj (hc.hasSite.symm.trans hsite)
  obtain ⟨_, _, hname, hrun⟩ := run_bind_ok hrun
  obtain ⟨rfl, hcallee⟩ := procName_spec hname
  obtain rfl := Option.some.inj (hc.hasCallee.symm.trans hcallee)
  obtain ⟨_, _, hlift, hrun⟩ := run_bind_ok hrun
  obtain ⟨hproc, rfl⟩ := run_lift_ok hlift
  obtain rfl := Except.ok.inj (hc.procOf.symm.trans hproc)
  obtain ⟨p, s₁, hid, hrun⟩ := run_bind_ok hrun
  obtain ⟨hb₁, hq₁, hp⟩ := procId_spec h.toBase hid
  have hfill₁ : Fill A Z s s₁ := hq₁.fill hb₁
  have h₁ := Moves.inv h hfill₁.moves
  have hzp : Z p c.source := hz s₁ p hq₁.grows hb₁ hp
  obtain ⟨rets, _, hlift, hrun⟩ := run_bind_ok hrun
  obtain ⟨hrets, rfl⟩ := run_lift_ok hlift
  have hloop := run_forM_rel (I := Inv A) (R := Fill A Z)
    (Q := fun ret t => ∀ y ∈ summaries, TakenBack A s t c site callee exit ret y.1 y.2)
    Fill.refl Fill.trans (fun hI hR hQ y hy => (hQ y hy).later (hR.moves.later hI))
    hrun h₁ ?_
  · refine ⟨hfill₁.trans hloop.2.1, fun ret hret => ?_⟩
    obtain ⟨ms, hms, hret⟩ := hret
    obtain rfl := Except.ok.inj (hms.symm.trans hrets)
    exact hloop.2.2 ret hret
  intro ret hret t t' ht hfill hrun
  have hsucc : A.graph.Succ site ret := ⟨rets, hrets, hret⟩
  have hg := hq₁.grows.trans hfill.moves.grows
  obtain ⟨n, t₁, hnode, hrun⟩ := run_bind_ok hrun
  obtain ⟨hb₁, hq₁, hn⟩ := nodeId_spec ht.toBase hnode
  have hg₁ := hg.trans hq₁.grows
  obtain ⟨flow, t₂, hflow, hrun⟩ := run_bind_ok hrun
  obtain ⟨hb₂, hq₂, rfl⟩ := askFlow_spec hb₁ (hb₁.answers.ask_returnFlow hA.graph
    (hg₁.nodes _ _ hc.hasSite) (hg₁.nodes _ _ hx) hn hexit) hflow
  have hg₂ := hg₁.trans hq₂.grows
  have hfill₂ : Fill A Z t t₂ := (hq₁.trans hq₂).fill hb₂
  have ht₂ := Moves.inv ht hfill₂.moves
  have hloop := run_forM_rel (I := Inv A) (R := Fill A Z)
    (Q := fun (y : FactId × EdgeRef) t => TakenBack A s t c site callee exit ret y.1 y.2)
    Fill.refl Fill.trans (fun hI hR hQ => hQ.later (hR.moves.later hI)) hrun ht₂ ?_
  · exact ⟨hloop.1, hfill₂.trans hloop.2.1, hloop.2.2⟩
  rintro ⟨d, ef⟩ hy t₃ t₄ ht₃ hfill₃ hrun
  have hg₃ := hg₂.trans hfill₃.moves.grows
  obtain ⟨fact, hd⟩ := hsummaries d ef hy
  obtain ⟨_, _, hfact, hrun⟩ := run_bind_ok hrun
  obtain ⟨rfl, hf⟩ := factOf_spec hfact
  obtain rfl := Option.some.inj ((hg₃.facts _ _ hd.hasFact).symm.trans hf)
  obtain ⟨ds, _, htargets, hrun⟩ := run_bind_ok hrun
  obtain ⟨rfl, hds⟩ := targets_spec ht₃.toBase htargets
  obtain ⟨ht₄, hfill₄, hback⟩ := returnTo_spec hA ht₃ (hc.mono hg₃) (hd.mono hg₃)
    (hg₃.nodes _ _ hx) hexit (hfill₃.moves.grows.nodes _ _ (hq₂.nodes _ _ hn)) hsucc
    ((hfill.moves.grows.trans (hq₁.grows.trans (hq₂.grows.trans hfill₃.moves.grows))).procs _ _ hp)
    hzp hds hrun
  exact ⟨ht₄, hfill₄, hback.of_grows hg₃⟩

theorem applyKnownSummaries_spec (hA : Scope A) (h : Inv A s) {c : CallRecord}
    {site caller callee : String} {source entry : D} {u : Unit}
    (hc : RecordFacts A s c site caller callee source entry)
    (hz : ∀ t p, s.Grows t → Base A t → t.HasProc p caller → Z p c.source)
    (hrun : (applyKnownSummaries A c callee).run s = .ok (u, s')) :
    Fill A Z s s' ∧ Returned A s' c := by
  obtain ⟨exits, _, hlift, hrun⟩ := run_bind_ok hrun
  obtain ⟨hexits, rfl⟩ := run_lift_ok hlift
  have hcs : ∀ c' ∈ [c], c'.callee = c.callee ∧ c'.entry = c.entry ∧ RecordOk A s c' := by
    intro c' hc'
    obtain rfl := List.mem_singleton.1 hc'
    exact ⟨rfl, rfl, _, _, _, _, _, hc⟩
  have hloop := forExits_spec (Z := Z) hA h hc.hasCallee (fun _ => hc.hasEntry) hexits hcs ?_ hrun
  · exact ⟨hloop.1, hloop.2 c (List.mem_singleton.2 rfl)⟩
  intro exit x l t t' _ ht hfill hx hexit hl hrun
  have hg := hfill.moves.grows
  obtain ⟨hfill', hback⟩ := applySummaries_spec hA ht (hc.mono hg) hx hexit (hl (by simp))
    (fun t p ht => hz t p (hg.trans ht)) hrun
  refine ⟨hfill', fun c' hc' site' hsite' ret hret => ?_⟩
  obtain rfl := List.mem_singleton.1 hc'
  obtain rfl := Option.some.inj ((hg.nodes _ _ hc.hasSite).symm.trans hsite')
  exact hback ret hret

end Solver

end Tabulation
