import Tabulation.Proofs.Solver.Record

/-!
# Propagation of path edges

Each program that propagates path edges makes a pass over the tables and covers what follows from
its input: `propagateNormal` and `propagateCall` cover the edges that leave a node, so that the path
edge is `Crossed`, and `applySummaries` covers the return sites of a call.

The pairs `Z` that a pass works on are those of the path edge that is propagated, or of the callers
to which summaries are applied.
-/

namespace Tabulation

variable {D L K : Type} [Ord L] [Ord K] [JoinLattice L] [Payload K L] {A : Analysis D L K}

/-- A label that was extended by an edge function stands for the extended paths. -/
theorem Analysis.Exact.extend {st st' : EdgeStore L K} {ef ef' : EdgeRef} {F G : (L → L) → Prop}
    {e : EdgeFunction L K} (h : A.Exact st ef F)
    (he : A.Valued → Distributes e.apply)
    (hFG : ∀ φ, F φ → G (e.apply ∘ φ))
    (hmeans : A.Valued → ∀ φ, st.Means ef φ →
      st'.Means ef' (e.apply ∘ φ)) : A.Exact st' ef' G := by
  refine ⟨h.1.imp' (e.apply ∘ ·) fun φ hφ => hFG φ hφ, fun hv => ?_⟩
  obtain ⟨ψ, hψ, hm⟩ := h.2 hv
  exact ⟨_, hψ.map (he hv) hFG, hmeans hv ψ hm⟩

variable [Ord D]

theorem Precise.distributes {s : State D L K} (h : Precise A s) {e : EdgeFunction L K}
    (he : A.EdgeOf e) (hv : A.Valued) : Distributes e.apply :=
  (h.values hv.1).1 e he

variable [DecidableEq D]

/-- A path edge at an exit point is a summary of its procedure. -/
theorem PathFacts.summary {s : State D L K} {job : PathEdge} {p : ProcId} {node proc : String}
    {source fact : D} (h : PathFacts A s job p node proc source fact)
    (hexit : A.graph.ExitOf proc node) (hcall : A.graph.isCallSite node = .ok false) :
    SummaryOk A s p job.source job.node job.target job.edge :=
  ⟨proc, node, source, fact, ⟨h.hasProc, h.hasSource, h.hasNode, h.hasTarget, hexit, hcall,
    h.derives, h.labelled, h.spelled⟩, h.exact⟩

/-- A path edge followed by an edge inside its procedure. -/
theorem PathFacts.inside {s s' : State D L K} {x y : PathEdge} {p : ProcId} {node proc m : String}
    {source fact t : D} {e : EdgeFunction L K} (h : PathFacts A s x p node proc source fact)
    (hg : s.Grows s') (hsource : y.source = x.source) (hm : s'.HasNode y.node m)
    (ht : s'.HasFact y.target t) (hproc : A.graph.procOf m = .ok proc)
    (he : A.Inside node fact m t e) (hl : A.Labelled s'.store y.edge)
    (hmeans : A.Valued → ∀ φ, s.store.Means x.edge φ → s'.store.Means y.edge (e.apply ∘ φ))
    (hleaf : A.Valued → ∀ f h, s.store.LeafAt f x.edge → f.andThen? e = some h →
      s'.store.LeafAt h y.edge) : PathFacts A s' y p m proc source t where
  hasNode := hm
  hasSource := hsource ▸ hg.facts _ _ h.hasSource
  hasTarget := ht
  hasProc := hg.procs _ _ h.hasProc
  procOf := hproc
  entered := h.entered.mono hg
  origin := .inr ⟨_, he.succ⟩
  derives hs := (h.derives hs).inside he
  labelled := hl
  exact hp := (h.exact (hp.of_grows hg)).extend (hp.distributes he.edgeOf)
    (fun _ hφ => hφ.inside he) hmeans
  spelled R hR := by
    obtain ⟨f, hf, hat⟩ := h.spelled R hR
    obtain ⟨g, hg, hR'⟩ := hR.inside hf he
    exact ⟨g, hR', hleaf hR.valued f g hat hg⟩

namespace Solver

variable [DecidableEq L] {Z : ProcId → FactId → Prop} {s s' : State D L K}

theorem recordSummary_spec (hA : Scope A) (h : Inv A s) {job : PathEdge} {p : ProcId}
    {node proc : String} {source fact : D} {ψ : L → L} {u : Unit}
    (hjob : PathFacts A s job p node proc source fact)
    (hψ : A.Valued → s.store.Means job.edge ψ) (htab : Tabled A s job) (hz : Z p job.source)
    (hexit : A.graph.ExitOf proc node) (hcall : A.graph.isCallSite node = .ok false)
    (hrun : (recordSummary A job p).run s = .ok (u, s')) :
    Pass A Z s s' ∧ pack job.source.val p.val ∈ s'.callQueue.keys ∧
      (A.config.useSummaryTable = true →
        ∃ ef, s'.summaries.get? p job.source job.node job.target = some ef ∧
          A.Covers s'.store ef ψ) := by
  obtain ⟨_, t, hmod, hrun⟩ := run_bind_ok hrun
  obtain rfl := run_modify_ok hmod
  generalize ht : ({ s with
    callQueue := (s.callQueue.insert (pack job.source.val p.val)).2 } : State D L K) = t at hrun
  have hmove : Move A Z s t := ht ▸ .key hz
  have hkey : pack job.source.val p.val ∈ t.callQueue.keys := by
    rw [← ht]
    exact CallQueue.mem_insert.2 (.inl rfl)
  have hpass : Pass A Z s t := hmove.pass (by rw [← ht])
  have hinv := hmove.inv h
  have hg := hmove.grows
  have hjob' := hjob.mono hg
  have htab' : Tabled A t job := (hg.tabled (hmove.later h.toBase).paths hjob.labelled).1 htab
  split at hrun
  · next hu =>
    obtain ⟨_, _, hget, hrun⟩ := run_bind_ok hrun
    obtain ⟨rfl, rfl⟩ := run_get_ok hget
    cases hold : t.summaries.get? p job.source job.node job.target with
    | none =>
      simp only [hold] at hrun
      obtain rfl := run_modify_ok hrun
      have hmove' : Move A Z t { t with
          summaries := (t.summaries.insert p job.source job.node job.target job.edge).2 } :=
        .summary (hjob'.summary hexit hcall) htab' (by rw [hold]; exact .new) hz hkey
      refine ⟨hpass.trans ((hmove'.pass rfl).trans
        (Move.pass (.stats (hmove'.inv hinv).toBase _) rfl)), hkey,
        fun _ => ⟨job.edge, ?_, fun hv => ?_⟩⟩
      · exact SummaryTable.get?_insert.trans (if_pos ⟨rfl, rfl, rfl, rfl⟩)
      · have := hv.2.join
        exact ⟨ψ, (hψ hv).mono hg.store, fun v => Below.refl _⟩
    | some old =>
      simp only [hold] at hrun
      split at hrun
      · next hv =>
        obtain ⟨joined, t₁, hjoin, hrun⟩ := run_bind_ok hrun
        have hsum := (hinv.summaries _ _ _ _ _ hold).1
        obtain ⟨hb₁, hq₁, hl, hjoins, hsame, hnew⟩ := joinEdges_spec hA hv hinv.toBase
          hsum.labelled hjob'.labelled hjoin
        have hpass₁ : Pass A Z s t₁ := hpass.trans (hq₁.fill hb₁).pass
        have htab₁ := (hq₁.grows.tabled hq₁.paths_le hjob'.labelled).1 htab'
        have hcov : A.Covers t₁.store joined ψ := fun hv => by
          have := hv.2.join
          exact Joins.below_left hb₁.store (hjoins hv).symm
            ((hψ hv).mono (hg.trans hq₁.grows).store)
        split at hrun
        · next hne =>
          obtain rfl := run_modify_ok hrun
          have hmove' : Move A Z t₁ { t₁ with
              summaries := (t₁.summaries.insert p job.source job.node job.target joined).2 } := by
            refine .summary ((hjob'.mono hq₁.grows).summary hexit hcall) htab₁ ?_ hz
              (hq₁.callQueue ▸ hkey)
            rw [hq₁.summaries, hold]
            have hne' : old ≠ job.edge := fun heq => hne (hsame heq)
            exact .join hv hl hjoins (hnew hne') hne hne'.symm
          refine ⟨hpass₁.trans (hmove'.pass rfl), hq₁.callQueue ▸ hkey, fun _ => ⟨joined, ?_, hcov⟩⟩
          exact SummaryTable.get?_insert.trans (if_pos ⟨rfl, rfl, rfl, rfl⟩)
        · next hne =>
          obtain ⟨-, rfl⟩ := run_pure_ok hrun
          have heq : joined = old := Decidable.of_not_not hne
          exact ⟨hpass₁, hq₁.callQueue ▸ hkey,
            fun _ => ⟨old, by rw [hq₁.summaries, hold], heq ▸ hcov⟩⟩
      · next hv =>
        obtain ⟨-, rfl⟩ := run_pure_ok hrun
        exact ⟨hpass, hkey, fun _ => ⟨old, hold, fun hv' => absurd hv'.1 hv⟩⟩
  · next hu =>
    obtain ⟨-, rfl⟩ := run_pure_ok hrun
    exact ⟨hpass, hkey, fun hu' => absurd hu' hu⟩

variable [Std.TransOrd D] [Std.LawfulEqOrd D]

/-! ## Edges inside a procedure -/

/-- The client's edge functions from a fact to the facts after an edge. -/
def AsksEdges (A : Analysis D L K) (s : State D L K) (b : FactId)
    (ask : D → UInt64 → Answers D → EdgeStore L K → EdgeRef × Answers D × EdgeStore L K)
    (edge : D → EdgeFunction L K) : Prop :=
  A.config.computeValues = true → ∀ (t : State D L K) (target : D) (i : FactId), s.Grows t →
    Base A t → t.HasFact i target → Asks A (ask target (factPair b i)) (edge target) t

theorem spread_spec (hA : Scope A) (h : Inv A s) {job : PathEdge} {p : ProcId} {n : NodeId}
    {node proc m : String} {source fact : D} {flow : FlowFunction D} {ψ : L → L} {u : Unit}
    {ask : D → UInt64 → Answers D → EdgeStore L K → EdgeRef × Answers D × EdgeStore L K}
    {edge : D → EdgeFunction L K} (hjob : PathFacts A s job p node proc source fact)
    (hψ : A.Valued → s.store.Means job.edge ψ) (hz : Z p job.source)
    (hn : s.HasNode n m) (hproc : A.graph.procOf m = .ok proc)
    (hinside : ∀ t ∈ A.targets flow fact, A.Inside node fact m t (edge t))
    (hask : AsksEdges A s job.target ask edge)
    (hrun : (spread A job p fact n flow ask).run s = .ok (u, s')) :
    Fill A Z s s' ∧
      ∀ t ∈ A.targets flow fact, Covered A s' m job.source t ((edge t).apply ∘ ψ) := by
  obtain ⟨ds, _, hds, hrun⟩ := run_bind_ok hrun
  obtain ⟨rfl, rfl⟩ := targets_spec h.toBase hds
  have hloop := run_forM_rel (I := Inv A) (R := Fill A Z)
    (Q := fun t s => Covered A s m job.source t ((edge t).apply ∘ ψ)) Fill.refl Fill.trans
    (fun hI hR hQ => hQ.later (hR.moves.later hI)) hrun h ?_
  · exact ⟨hloop.2.1, hloop.2.2⟩
  intro target htarget t t' ht hfill hrun
  obtain ⟨i, t₁, hfact, hrun⟩ := run_bind_ok hrun
  obtain ⟨hb₁, hq₁, hi⟩ := factId_spec ht.toBase hfact
  obtain ⟨ef, t₂, hcomp, hrec⟩ := run_bind_ok hrun
  have hg₁ : s.Grows t₁ := hfill.moves.grows.trans hq₁.grows
  obtain ⟨hb₂, hq₂, hl, hmeans, hleaf⟩ := composeWith_spec hA hb₁ (hjob.labelled.mono hg₁.store)
    (fun hv => hask hv t₁ target i hg₁ hb₁ hi) hcomp
  have hg₂ : s.Grows t₂ := hg₁.trans hq₂.grows
  have hmeans₂ : A.Valued → ∀ φ, s.store.Means job.edge φ →
      t₂.store.Means ef ((edge target).apply ∘ φ) := fun hv φ hφ =>
    hmeans hv φ (hφ.mono hg₁.store)
  have hpath : PathFacts A t₂ ⟨n, job.source, i, ef⟩ p m proc source target :=
    hjob.inside hg₂ rfl (hg₂.nodes _ _ hn) (hq₂.facts _ _ hi) hproc (hinside target htarget) hl
      hmeans₂ fun hv f h hf => hleaf hv f h (hf.mono hg₁.store)
  have hfill₂ : Fill A Z t t₂ := (hq₁.trans hq₂).fill hb₂
  obtain ⟨hfill₃, ef', hef', hle⟩ := record_spec hA (Moves.inv ht hfill₂.moves)
    ⟨_, _, _, _, hpath⟩ (.inl hz) hrec
  have hg₃ := hfill₃.moves.grows
  exact ⟨Moves.inv (Moves.inv ht hfill₂.moves) hfill₃.moves, hfill₂.trans hfill₃,
    n, i, ef', hg₃.nodes _ _ hpath.hasNode, hg₃.facts _ _ hpath.hasTarget, hef',
    hle.covers fun hv => hmeans₂ hv ψ (hψ hv)⟩

theorem propagateNormal_spec (hA : Scope A) (h : Inv A s) {job : PathEdge} {p : ProcId}
    {node proc : String} {source fact : D} {ψ : L → L} {u : Unit}
    (hjob : PathFacts A s job p node proc source fact)
    (hψ : A.Valued → s.store.Means job.edge ψ) (htab : Tabled A s job) (hz : Z p job.source)
    (hcall : A.graph.isCallSite node = .ok false)
    (hrun : (propagateNormal A job node p).run s = .ok (u, s')) :
    Pass A Z s s' ∧ Crossed A s' job ∧
      (A.graph.ExitOf proc node → pack job.source.val p.val ∈ s'.callQueue.keys) := by
  obtain ⟨fact', _, hfact, hrun⟩ := run_bind_ok hrun
  obtain ⟨rfl, hf⟩ := factOf_spec hfact
  obtain rfl := Option.some.inj (hjob.hasTarget.symm.trans hf)
  obtain ⟨succs, _, hlift, hrun⟩ := run_bind_ok hrun
  obtain ⟨hsuccs, rfl⟩ := run_lift_ok hlift
  obtain ⟨_, s₁, hloop, hrun⟩ := run_bind_ok hrun
  obtain ⟨h₁, hfill₁, hcov⟩ := run_forM_rel (I := Inv A) (R := Fill A Z)
    (Q := fun m s => (∃ n, s.HasNode n m) ∧ ∀ t ∈ A.targets (A.problem.normalFlow node m) fact,
      Covered A s m job.source t ((A.problem.normalEdge node fact m t).apply ∘ ψ))
    Fill.refl Fill.trans
    (fun hI hR hQ => ⟨hQ.1.imp fun n => hR.moves.grows.nodes n.val _,
      fun t ht => (hQ.2 t ht).later (hR.moves.later hI)⟩) hloop h (by
      intro m hm t t' ht hfill hrun
      have hg := hfill.moves.grows
      obtain ⟨n, t₁, hnode, hrun⟩ := run_bind_ok hrun
      obtain ⟨hb₁, hq₁, hn⟩ := nodeId_spec ht.toBase hnode
      obtain ⟨flow, t₂, hflow, hrun⟩ := run_bind_ok hrun
      have hg₁ := hg.trans hq₁.grows
      obtain ⟨hb₂, hq₂, rfl⟩ := askFlow_spec hb₁
        (hb₁.answers.ask_normalFlow (hg₁.nodes _ _ hjob.hasNode) hn) hflow
      have hfill₂ : Fill A Z t t₂ := (hq₁.trans hq₂).fill hb₂
      have hg₂ := hg₁.trans hq₂.grows
      have hsucc : A.graph.Succ node m := ⟨succs, hsuccs, hm⟩
      obtain ⟨hfill₃, hcov⟩ := spread_spec hA (Moves.inv ht hfill₂.moves) (hjob.mono hg₂)
        (fun hv => (hψ hv).mono hg₂.store) hz (hq₂.nodes _ _ hn)
        (Supergraph.procOf_succ hA.graph hsucc hjob.procOf)
        (fun t ht => .normal hcall hsucc ht)
        (fun hv t' target i hg hb hi => by
          obtain ⟨_, _, _, _⟩ := hA.orders hv
          exact asks_normalEdge hb.store hb.answers
            (hg.nodes _ _ (hg₂.nodes _ _ hjob.hasNode)) (hg.nodes _ _ (hq₂.nodes _ _ hn))
            (hg.facts _ _ (hg₂.facts _ _ hjob.hasTarget)) hi) hrun
      exact ⟨Moves.inv (Moves.inv ht hfill₂.moves) hfill₃.moves, hfill₂.trans hfill₃,
        ⟨n, hfill₃.moves.grows.nodes _ _ (hq₂.nodes _ _ hn)⟩, hcov⟩)
  have hg₁ := hfill₁.moves.grows
  have hnocall : ∀ q, ¬ A.graph.Calls node q := fun q hq => by
    rw [Supergraph.isCallSite_iff.2 ⟨q, hq⟩] at hcall
    cases hcall
  have hinside : ∀ m t e, A.Inside node fact m t e →
      Covered A s₁ m job.source t (e.apply ∘ ψ) := by
    intro m t e he
    cases he with
    | normal _ hsucc ht =>
      obtain ⟨ms, hms, hm⟩ := hsucc
      obtain rfl := Except.ok.inj (hms.symm.trans hsuccs)
      exact (hcov m hm).2 t ht
    | bypass hps hne _ _ =>
      obtain ⟨q, hq⟩ := List.exists_mem_of_ne_nil _ hne
      exact absurd ⟨_, hps, hq⟩ (hnocall q)
    | summary hq _ _ _ => exact absurd hq (hnocall _)
  obtain ⟨isExit, _, hlift', hrun⟩ := run_bind_ok hrun
  obtain ⟨hexit, rfl⟩ := run_lift_ok hlift'
  have hcrossed : ∀ {t : State D L K}, Pass A Z s₁ t →
      (A.config.useSummaryTable = true → isExit = true →
        ∃ ef, t.summaries.get? p job.source job.node job.target = some ef ∧
          A.Covers t.store ef ψ) → Crossed A t job := by
    intro t hpass hsum
    have hg := hg₁.trans hpass.moves.grows
    refine ⟨node, fact, ψ, hg.nodes _ _ hjob.hasNode, hg.facts _ _ hjob.hasTarget,
      fun m hm => ?_, fun q hq => absurd hq (hnocall q), fun hv => (hψ hv).mono hg.store,
      fun m t e he => (hinside m t e he).later (hpass.moves.later h₁),
      fun q t e sp he _ => ?_, fun hu q hq _ => ?_⟩
    · obtain ⟨ms, hms, hm⟩ := hm
      obtain rfl := Except.ok.inj (hms.symm.trans hsuccs)
      exact (hcov m hm).1.imp fun n => hpass.moves.grows.nodes n.val m
    · cases he with
      | intro hq _ _ => exact absurd hq (hnocall q)
    · obtain ⟨hproc, hexit'⟩ := (Supergraph.exitOf_iff hA.graph).1 hq
      obtain rfl := Except.ok.inj (hjob.procOf.symm.trans hproc)
      obtain ⟨ef, hef, hcov⟩ := hsum hu (Except.ok.inj (hexit.symm.trans hexit'))
      exact ⟨p, ef, hg.procs _ _ hjob.hasProc, hef, hcov⟩
  split at hrun
  · next hexit' =>
    obtain ⟨hpass₂, hkey, hsum⟩ := recordSummary_spec hA h₁ (hjob.mono hg₁)
      (fun hv => (hψ hv).mono hg₁.store)
      ((hg₁.tabled (hfill₁.moves.later h).paths hjob.labelled).1 htab) hz
      ((Supergraph.exitOf_iff hA.graph).2 ⟨hjob.procOf, hexit' ▸ hexit⟩) hcall hrun
    exact ⟨hfill₁.pass.trans hpass₂, hcrossed hpass₂ fun hu _ => hsum hu, fun _ => hkey⟩
  · next hexit' =>
    obtain ⟨-, rfl⟩ := run_pure_ok hrun
    refine ⟨hfill₁.pass, hcrossed (.refl _) fun _ hx => absurd hx hexit', fun hx => ?_⟩
    exact absurd (Except.ok.inj (hexit.symm.trans ((Supergraph.exitOf_iff hA.graph).1 hx).2)) hexit'

end Solver

end Tabulation
