import Tabulation.Proofs.Solver.Invariant

/-!
# Operations that change no table

Numbering names, asking the client and combining stored functions only add names, answers and
stored functions. `Quiet s s'` says that nothing else changed, and each operation comes with what
its result stands for.
-/

namespace Tabulation

variable {D L K : Type} [Ord D] [Ord L] [Ord K]

/-- Only names, answers, stored functions and statistics changed, and the first three only grew. -/
structure Quiet (s s' : State D L K) : Prop where
  nodes : s.nodes ≤ s'.nodes
  facts : s.facts ≤ s'.facts
  procs : s.procs ≤ s'.procs
  store : s.store ≤ s'.store
  joins : s.store.KeepsJoins s'.store
  paths : s'.paths = s.paths
  summaries : s'.summaries = s.summaries
  ledger : s'.ledger = s.ledger
  queue : s'.queue = s.queue
  callQueue : s'.callQueue = s.callQueue
  retention : s'.retention = s.retention
  seeds : s'.seeds = s.seeds
  reached : s'.reached = s.reached
  stage : s'.stage = s.stage

namespace Quiet

theorem refl (s : State D L K) : Quiet s s :=
  ⟨Interner.le_refl _, Interner.le_refl _, Interner.le_refl _, EdgeStore.le_refl _, .refl _, rfl,
    rfl, rfl, rfl, rfl, rfl, rfl, rfl, rfl⟩

theorem trans {s t u : State D L K} (h : Quiet s t) (k : Quiet t u) : Quiet s u where
  nodes := Interner.le_trans h.nodes k.nodes
  facts := Interner.le_trans h.facts k.facts
  procs := Interner.le_trans h.procs k.procs
  store := EdgeStore.le_trans h.store k.store
  joins := h.joins.trans k.joins
  paths := k.paths.trans h.paths
  summaries := k.summaries.trans h.summaries
  ledger := k.ledger.trans h.ledger
  queue := k.queue.trans h.queue
  callQueue := k.callQueue.trans h.callQueue
  retention := k.retention.trans h.retention
  seeds := k.seeds.trans h.seeds
  reached := k.reached.trans h.reached
  stage := k.stage.trans h.stage

theorem grows {s s' : State D L K} (h : Quiet s s') : s.Grows s' :=
  ⟨h.nodes, h.facts, h.procs, h.store, h.joins, fun n a b ef hef => ⟨ef, by rw [h.paths, hef]⟩⟩

end Quiet

/-- Functions were stored. -/
theorem Base.withStore [JoinLattice L] [Payload K L] [DecidableEq L] {A : Analysis D L K}
    {s : State D L K} (hb : Base A s) {st : EdgeStore L K} (hst : st.Regular)
    (hle : s.store ≤ st) (hjoins : s.store.KeepsJoins st) :
    Base A { s with store := st } ∧ Quiet s { s with store := st } :=
  ⟨{ hb with
      answers := hb.answers.withStore hle
      store := hst
      joinLimit := hle.2.1.trans hb.joinLimit },
    { Quiet.refl s with store := hle, joins := hjoins }⟩

namespace Solver

variable {s s' : State D L K}

/-! ## Names -/

/-- The values of a list are numbered, and no others. -/
theorem internAll_spec {α : Type} [Ord α] [Std.TransOrd α] [Std.LawfulEqOrd α] {as : List α}
    {t : Interner α} (h : internAll .empty as = .ok t) :
    t.Wf ∧ ∀ a, a ∈ as ↔ ∃ i, t.get? i = some a := by
  refine foldlM_ok (fun done t => t.Wf ∧ ∀ a, a ∈ done ↔ ∃ i, t.get? i = some a) h
    ⟨Interner.wf_empty, fun a => by simp [Interner.empty, Interner.get?]⟩ ?_
  intro done a t t' _ hdone h
  obtain ⟨ht, hmem⟩ := hdone
  rw [bind_eq_ok] at h
  obtain ⟨⟨i, t₁⟩, hi, h⟩ := h
  obtain rfl := pure_eq_ok.1 h
  obtain ⟨hwf, hle, hget⟩ := Interner.intern_spec ht hi
  refine ⟨hwf, fun b => ?_⟩
  rw [List.mem_append, List.mem_singleton, hmem]
  constructor
  · rintro (⟨j, hj⟩ | rfl)
    · exact ⟨j, hle j b hj⟩
    · exact ⟨i, hget⟩
  · rintro ⟨j, hj⟩
    exact (Interner.get?_of_intern hi hj).imp_left fun hj => ⟨j, hj⟩

theorem nodeName_spec {x : String} {n : NodeId} (h : (nodeName n).run s = .ok (x, s')) :
    s = s' ∧ s.HasNode n x := by
  obtain ⟨_, _, hget, hrun⟩ := run_bind_ok h
  obtain ⟨rfl, rfl⟩ := run_get_ok hget
  obtain ⟨hx, rfl⟩ := run_lift_ok hrun
  exact ⟨rfl, Interner.get_eq_ok.1 hx⟩

theorem factOf_spec {x : D} {d : FactId} (h : (factOf d).run s = .ok (x, s')) :
    s = s' ∧ s.HasFact d x := by
  obtain ⟨_, _, hget, hrun⟩ := run_bind_ok h
  obtain ⟨rfl, rfl⟩ := run_get_ok hget
  obtain ⟨hx, rfl⟩ := run_lift_ok hrun
  exact ⟨rfl, Interner.stored_eq_ok.1 hx⟩

theorem procName_spec {x : String} {p : ProcId} (h : (procName p).run s = .ok (x, s')) :
    s = s' ∧ s.HasProc p x := by
  obtain ⟨_, _, hget, hrun⟩ := run_bind_ok h
  obtain ⟨rfl, rfl⟩ := run_get_ok hget
  obtain ⟨hx, rfl⟩ := run_lift_ok hrun
  exact ⟨rfl, Interner.get_eq_ok.1 hx⟩

variable [JoinLattice L] [Payload K L] [DecidableEq L] {A : Analysis D L K}

theorem nodeId_spec (hb : Base A s) {x : String} {n : NodeId}
    (h : (nodeId x).run s = .ok (n, s')) : Base A s' ∧ Quiet s s' ∧ s'.HasNode n x := by
  obtain ⟨i, t, hi, rfl, rfl⟩ := run_update_ok (f := fun s : State D L K => s.nodes.intern x)
    (g := fun nodes s => { s with nodes }) (r := NodeId.mk) h
  obtain ⟨hwf, hle, hget⟩ := Interner.intern_spec hb.nodes hi
  have hq : Quiet s { s with nodes := t } := { Quiet.refl s with nodes := hle }
  exact ⟨{ hb with
    nodes := hwf
    answers := hb.answers.mono hq.nodes hq.facts hq.procs hq.store rfl }, hq, hget⟩

theorem factId_spec [Std.TransOrd D] [Std.LawfulEqOrd D] (hb : Base A s) {x : D} {d : FactId}
    (h : (factId x).run s = .ok (d, s')) : Base A s' ∧ Quiet s s' ∧ s'.HasFact d x := by
  obtain ⟨i, t, hi, rfl, rfl⟩ := run_update_ok (f := fun s : State D L K => s.facts.intern x)
    (g := fun facts s => { s with facts }) (r := FactId.mk) h
  obtain ⟨hwf, hle, hget⟩ := Interner.intern_spec hb.facts hi
  have hq : Quiet s { s with facts := t } := { Quiet.refl s with facts := hle }
  exact ⟨{ hb with
    facts := hwf
    answers := hb.answers.mono hq.nodes hq.facts hq.procs hq.store rfl }, hq, hget⟩

theorem procId_spec (hb : Base A s) {x : String} {p : ProcId}
    (h : (procId x).run s = .ok (p, s')) : Base A s' ∧ Quiet s s' ∧ s'.HasProc p x := by
  obtain ⟨i, t, hi, rfl, rfl⟩ := run_update_ok (f := fun s : State D L K => s.procs.intern x)
    (g := fun procs s => { s with procs }) (r := ProcId.mk) h
  obtain ⟨hwf, hle, hget⟩ := Interner.intern_spec hb.procs hi
  have hq : Quiet s { s with procs := t } := { Quiet.refl s with procs := hle }
  exact ⟨{ hb with
    procs := hwf
    answers := hb.answers.mono hq.nodes hq.facts hq.procs hq.store rfl }, hq, hget⟩

/-! ## Answers -/

theorem askFlow_spec (hb : Base A s) {α : Type} {ask : Answers D → α × Answers D} {f g : α}
    (hask : (ask s.answers).1 = g ∧ AnswersOk A { s with answers := (ask s.answers).2 })
    (h : (askFlow ask).run s = .ok (f, s')) : Base A s' ∧ Quiet s s' ∧ f = g := by
  obtain ⟨_, _, hget, hrun⟩ := run_bind_ok h
  obtain ⟨rfl, rfl⟩ := run_get_ok hget
  obtain ⟨_, _, hmod, hret⟩ := run_bind_ok hrun
  obtain ⟨rfl, rfl⟩ := run_pure_ok hret
  obtain rfl := run_modify_ok hmod
  exact ⟨{ hb with answers := hask.2 }, { Quiet.refl s with }, hask.1⟩

theorem targets_spec [DecidableEq D] (hb : Base A s) {f : FlowFunction D} {d : D} {ds : List D}
    (h : (targets f d).run s = .ok (ds, s')) : s = s' ∧ ds = A.targets f d := by
  obtain ⟨_, _, hget, hrun⟩ := run_bind_ok h
  obtain ⟨rfl, rfl⟩ := run_get_ok hget
  obtain ⟨rfl, rfl⟩ := run_pure_ok hrun
  refine ⟨rfl, ?_⟩
  unfold Analysis.targets Answers.targets
  rw [hb.answers.zero, hb.answers.autoAddZero]
  rfl

/-! ## Stored functions -/

theorem run_compose_ok {a b c : EdgeRef} (h : (compose a b).run s = .ok (c, s')) :
    ∃ st, s.store.compose a b = .ok (c, st) ∧ s' = { s with store := st } := by
  obtain ⟨_, st, hc, rfl, rfl⟩ := run_update_ok (f := fun s : State D L K => s.store.compose a b)
    (g := fun store s => { s with store }) (r := id) h
  exact ⟨st, hc, rfl⟩

theorem run_joinEdges_ok {a b c : EdgeRef} (h : (joinEdges a b).run s = .ok (c, s')) :
    ∃ st, s.store.join a b = .ok (c, st) ∧ s' = { s with store := st } := by
  obtain ⟨_, st, hc, rfl, rfl⟩ := run_update_ok (f := fun s : State D L K => s.store.join a b)
    (g := fun store s => { s with store }) (r := id) h
  exact ⟨st, hc, rfl⟩

theorem compose_spec (hA : Scope A) (hv : A.config.computeValues = true) (hb : Base A s)
    {a b c : EdgeRef} (ha : A.Labelled s.store a) (hbm : A.Labelled s.store b)
    (h : (compose a b).run s = .ok (c, s')) :
    Base A s' ∧ Quiet s s' ∧ A.Labelled s'.store c ∧ (A.Valued → ∀ φ ψ, s.store.Means a φ →
      s.store.Means b ψ → s'.store.Means c (ψ ∘ φ)) ∧
      ∀ f g h, s.store.LeafAt f a → s.store.LeafAt g b → f.andThen? g = some h →
        s'.store.LeafAt h c := by
  obtain ⟨_, _, _, _⟩ := hA.orders hv
  obtain ⟨st, hcomp, rfl⟩ := run_compose_ok h
  obtain ⟨hst, hle, halive, hmeans, hleaf⟩ :=
    A.compose_spec hb.store (ha.alive hv) (hbm.alive hv) hcomp
  obtain ⟨hb', hq⟩ := hb.withStore hst hle (EdgeStore.keepsJoins_compose hcomp)
  exact ⟨hb', hq, fun _ => hst.means halive, hmeans, hleaf⟩

theorem joinEdges_spec (hA : Scope A) (hv : A.config.computeValues = true) (hb : Base A s)
    {a b c : EdgeRef} (ha : A.Labelled s.store a) (hbm : A.Labelled s.store b)
    (h : (joinEdges a b).run s = .ok (c, s')) :
    Base A s' ∧ Quiet s s' ∧ A.Labelled s'.store c ∧ (A.Valued → s'.store.Joins a b c) ∧
      (a = b → c = a) ∧ (a ≠ b → s'.store.joined.table[EdgeStore.joinKey a b]? = some c) := by
  obtain ⟨_, _, _, _⟩ := hA.orders hv
  obtain ⟨st, hjoin, rfl⟩ := run_joinEdges_ok h
  obtain ⟨hst, hle, halive, hjoins, hsame⟩ :=
    A.join_spec hb.store (ha.alive hv) (hbm.alive hv) hjoin
  obtain ⟨hkept, hnew⟩ := EdgeStore.keepsJoins_join hjoin
  obtain ⟨hb', hq⟩ := hb.withStore hst hle hkept
  exact ⟨hb', hq, fun _ => hst.means halive, hjoins, hsame, hnew⟩

theorem askEdge_spec (hA : Scope A) (hv : A.config.computeValues = true) (hb : Base A s)
    {ef : EdgeRef} {ask : Answers D → EdgeStore L K → EdgeRef × Answers D × EdgeStore L K}
    {e : EdgeFunction L K} (hask : Asks A ask e s) (h : (askEdge ask).run s = .ok (ef, s')) :
    Base A s' ∧ Quiet s s' ∧ A.Labelled s'.store ef ∧ (A.Valued → s'.store.Means ef e.apply) ∧
      s'.store.LeafAt e ef := by
  obtain ⟨_, _, _, _⟩ := hA.orders hv
  obtain ⟨_, _, hget, hrun⟩ := run_bind_ok h
  obtain ⟨rfl, rfl⟩ := run_get_ok hget
  obtain ⟨_, _, hset, hret⟩ := run_bind_ok hrun
  obtain ⟨rfl, rfl⟩ := run_pure_ok hret
  obtain ⟨-, rfl⟩ := run_pure_ok hset
  obtain ⟨-, hle, hat, hans⟩ := hask _ _ _ rfl
  obtain ⟨hst, hjoins⟩ := hask.store hb.store
  refine ⟨{ hb with
      answers := hans
      store := hst
      joinLimit := hle.2.1.trans hb.joinLimit },
    { Quiet.refl s with store := hle, joins := hjoins }, fun _ => hst.means (hat.alive hst),
    fun hv => ?_, hat⟩
  have := hv.2.payload
  exact hst.means_leafAt hat

/-- Appending the client's edge function `e` to a label. -/
theorem composeWith_spec (hA : Scope A) (hb : Base A s) {ef ef' : EdgeRef}
    {ask : Answers D → EdgeStore L K → EdgeRef × Answers D × EdgeStore L K}
    {e : EdgeFunction L K} (hlabel : A.Labelled s.store ef)
    (hask : A.config.computeValues = true → Asks A ask e s)
    (h : (composeWith A ef ask).run s = .ok (ef', s')) :
    Base A s' ∧ Quiet s s' ∧ A.Labelled s'.store ef' ∧ (A.Valued → ∀ φ, s.store.Means ef φ →
      s'.store.Means ef' (e.apply ∘ φ)) ∧ (A.Valued → ∀ f h, s.store.LeafAt f ef →
      f.andThen? e = some h → s'.store.LeafAt h ef') := by
  unfold composeWith at h
  split at h
  · next hv =>
    obtain ⟨back, t, hask₁, hcomp⟩ := run_bind_ok h
    obtain ⟨hb₁, hq₁, hback, he, hat⟩ := askEdge_spec hA hv hb (hask hv) hask₁
    obtain ⟨hb₂, hq₂, hl, hmeans, hleaf⟩ :=
      compose_spec hA hv hb₁ (hlabel.mono hq₁.store) hback hcomp
    exact ⟨hb₂, hq₁.trans hq₂, hl, fun hv φ hφ => hmeans hv φ _ (hφ.mono hq₁.store) (he hv),
      fun _ f h hf hh => hleaf f e h (hf.mono hq₁.store) hat hh⟩
  · next hv =>
    obtain ⟨rfl, rfl⟩ := run_pure_ok h
    exact ⟨hb, Quiet.refl s, fun hv' => absurd hv' hv, fun hv' => absurd hv'.1 hv,
      fun hv' => absurd hv'.1 hv⟩

/-- Appending a summary and the client's edge function `e` to the label of a call. -/
theorem composeReturn_spec (hA : Scope A) (hb : Base A s) {call summary ef : EdgeRef}
    {ask : Answers D → EdgeStore L K → EdgeRef × Answers D × EdgeStore L K}
    {e : EdgeFunction L K} (hcall : A.Labelled s.store call)
    (hsummary : A.Labelled s.store summary)
    (hask : A.config.computeValues = true → Asks A ask e s)
    (h : (composeReturn A call summary ask).run s = .ok (ef, s')) :
    Base A s' ∧ Quiet s s' ∧ A.Labelled s'.store ef ∧ (A.Valued → ∀ χ σ, s.store.Means call χ →
      s.store.Means summary σ → s'.store.Means ef (e.apply ∘ σ ∘ χ)) ∧
      (A.Valued → ∀ f g j h, s.store.LeafAt f call → s.store.LeafAt g summary →
        f.andThen? g = some j → j.andThen? e = some h → s'.store.LeafAt h ef) := by
  unfold composeReturn at h
  split at h
  · next hv =>
    obtain ⟨back, t, hask₁, hrun⟩ := run_bind_ok h
    obtain ⟨hb₁, hq₁, hback, he, hat⟩ := askEdge_spec hA hv hb (hask hv) hask₁
    obtain ⟨through, u, hthrough, hcomp⟩ := run_bind_ok hrun
    obtain ⟨hb₂, hq₂, hl, hmid, hleaf⟩ := compose_spec hA hv hb₁ (hcall.mono hq₁.store)
      (hsummary.mono hq₁.store) hthrough
    obtain ⟨hb₃, hq₃, hl', hmeans, hleaf'⟩ :=
      compose_spec hA hv hb₂ hl (hback.mono hq₂.store) hcomp
    refine ⟨hb₃, (hq₁.trans hq₂).trans hq₃, hl', fun hv χ σ hχ hσ => ?_,
      fun _ f g j h hf hg hj hh => ?_⟩
    · exact hmeans hv _ _ (hmid hv χ σ (hχ.mono hq₁.store) (hσ.mono hq₁.store))
        ((he hv).mono hq₂.store)
    · exact hleaf' j e h (hleaf f g j (hf.mono hq₁.store) (hg.mono hq₁.store) hj)
        (hat.mono hq₂.store) hh
  · next hv =>
    obtain ⟨rfl, rfl⟩ := run_pure_ok h
    exact ⟨hb, Quiet.refl s, fun hv' => absurd hv' hv, fun hv' => absurd hv'.1 hv,
      fun hv' => absurd hv'.1 hv⟩

end Solver

end Tabulation
