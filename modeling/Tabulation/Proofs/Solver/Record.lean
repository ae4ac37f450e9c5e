import Tabulation.Proofs.Solver.Moves
import Tabulation.Solver.Propagate

/-!
# Recording path edges

`record` either stores and queues a path edge, which is a move, or finds that the table covers it
already. Either way the path edge is covered afterwards, `record_spec`. The programs that propagate
path edges are loops around `record`, and their specifications have the same form: from one state to
the next, and what is covered at the end. A `Fill` only records path edges, a `Pass` may also store
summaries and record calls.
-/

namespace Tabulation

variable {D L K : Type} [Ord D] [Ord L] [Ord K] {A : Analysis D L K} {s s' t u : State D L K}

/-! ## Linked calls -/

/-- The call is in the lists of calls that wait for summaries and receive values. -/
def Linked (A : Analysis D L K) (s : State D L K) (c : CallRecord) : Prop :=
  c ∈ s.ledger.callsInto c.entry c.callee ∧
    (A.config.computeValues = true → c ∈ s.ledger.callsFrom c.source c.site)

/-- Records stay where they are, and lists of calls only grow. -/
structure LedgerGrows (s s' : State D L K) : Prop where
  records : ∀ (i : Nat) (c : CallRecord), s.ledger.records[i]? = some c →
    s'.ledger.records[i]? = some c
  into : ∀ e p, ∀ c ∈ s.ledger.callsInto e p, c ∈ s'.ledger.callsInto e p
  forward : ∀ a n, ∀ c ∈ s.ledger.callsFrom a n, c ∈ s'.ledger.callsFrom a n

theorem Linked.mono {c : CallRecord} (h : Linked A s c) (hg : LedgerGrows s t) : Linked A t c :=
  ⟨hg.into _ _ _ h.1, fun hv => hg.forward _ _ _ (h.2 hv)⟩

variable [JoinLattice L] [Payload K L]

/-! ## Parts of recording -/

namespace Solver

theorem reach_spec (hA : Scope A) {n : NodeId} {d : FactId} {u : Unit}
    (h : (reach A n d).run s = .ok (u, s')) :
    ∃ reached, s' = { s with reached } ∧ ∀ k, reached.contains k = true ↔
      k = pack n.val d.val ∨ s.reached.contains k = true := by
  obtain ⟨_, _, hget, hrun⟩ := run_bind_ok h
  obtain ⟨rfl, rfl⟩ := run_get_ok hget
  split at hrun
  · next hmem =>
    obtain ⟨-, rfl⟩ := run_pure_ok hrun
    refine ⟨s.reached, rfl, fun k => ⟨.inr, ?_⟩⟩
    rintro (rfl | hk)
    · exact hmem
    · exact hk
  · rw [if_neg (by rw [hA.not_aggressive]; simp)] at hrun
    obtain ⟨_, _, hkeep, hmod⟩ := run_bind_ok hrun
    obtain ⟨rfl, rfl⟩ := run_pure_ok hkeep
    obtain rfl := run_modify_ok hmod
    exact ⟨_, rfl, fun k => (contains_insert_iff ..).trans (or_congr_left eq_comm)⟩

/-- The part of `record` that stores and queues a path edge. -/
theorem storePath_spec (hA : Scope A) {x : PathEdge} {p : ProcId} {old : Option EdgeRef} {u : Unit}
    (hold : s.paths.get? x.node x.source x.target = old)
    (h : StateT.run (do
      modify fun s => { s with paths := (s.paths.insert x.node x.source x.target x.edge).2 }
      if old.isNone then
        modify fun s => { s with alive := s.alive + 1 }
        reach A x.node x.target
      modify fun s => { s with
        stats := s.stats.pathEdgeStored s.alive
        queue := s.queue.push x }
      if A.config.gcMode.isEnabled then
        modify fun s => { s with retention := s.retention.retain p } : SolverM D L K Unit) s =
      .ok (u, s')) : StorePath A x p s s' := by
  obtain ⟨_, t₁, hmod, hrun⟩ := run_bind_ok h
  obtain rfl := run_modify_ok hmod
  have htail : ∀ {t : State D L K} {u : Unit}, StateT.run (do
      modify fun s => { s with
        stats := s.stats.pathEdgeStored s.alive
        queue := s.queue.push x }
      if A.config.gcMode.isEnabled then
        modify fun s => { s with retention := s.retention.retain p } : SolverM D L K Unit) t =
      .ok (u, s') → ∃ stats, s' = { t with
        stats
        queue := t.queue.push x
        retention :=
          if A.config.gcMode.isEnabled then t.retention.retain p else t.retention } := by
    intro t u h
    obtain ⟨_, t', hpush, hretain⟩ := run_bind_ok h
    obtain rfl := run_modify_ok hpush
    split at hretain
    · next hgc =>
      obtain rfl := run_modify_ok hretain
      exact ⟨_, by rw [if_pos hgc]⟩
    · next hgc =>
      obtain ⟨-, rfl⟩ := run_pure_ok hretain
      exact ⟨_, by rw [if_neg hgc]⟩
  cases hisNone : old.isNone with
  | true =>
    rw [if_pos hisNone] at hrun
    obtain ⟨_, t₂, halive, hrun⟩ := run_bind_ok hrun
    obtain rfl := run_modify_ok halive
    obtain ⟨_, t₃, hreach, hrun⟩ := run_bind_ok hrun
    obtain ⟨reached, rfl, hreached⟩ := reach_spec hA hreach
    obtain ⟨stats, rfl⟩ := htail hrun
    refine ⟨rfl, rfl, rfl, rfl, rfl, rfl, rfl, fun k => ?_, rfl, rfl, rfl, rfl, rfl, rfl⟩
    rw [hold, Option.isNone_iff_eq_none.1 hisNone]
    simpa using hreached k
  | false =>
    rw [if_neg (by simp [hisNone])] at hrun
    obtain ⟨stats, rfl⟩ := htail hrun
    refine ⟨rfl, rfl, rfl, rfl, rfl, rfl, rfl, fun k => ?_, rfl, rfl, rfl, rfl, rfl, rfl⟩
    rw [hold]
    refine ⟨.inr, fun hk => hk.resolve_left fun hn => ?_⟩
    rw [hn.1] at hisNone
    cases hisNone

/-- Adding a label either leaves the old one, which then covers it, or gives the merged label. -/
theorem merge_spec [DecidableEq L] (hA : Scope A) (hb : Base A s) {old r : Option EdgeRef}
    {ef : EdgeRef} (hold : ∀ o, old = some o → A.Labelled s.store o) (hef : A.Labelled s.store ef)
    (h : (merge A old ef).run s = .ok (r, s')) :
    Base A s' ∧ Quiet s s' ∧ (r = none → ∃ o, old = some o ∧ LabelLe A s s' ef o) ∧
      ∀ ef', r = some ef' → Merged A s'.store ef old ef' ∧ LabelLe A s s' ef ef' := by
  unfold merge at h
  cases old with
  | none =>
    obtain ⟨rfl, rfl⟩ := run_pure_ok h
    refine ⟨hb, Quiet.refl s, nofun, fun ef' hef' => ?_⟩
    obtain rfl := Option.some.inj hef'
    exact ⟨.new, .of_le (EdgeStore.le_refl _)⟩
  | some old =>
    simp only at h
    split at h
    · next hv =>
      obtain ⟨joined, t, hjoin, hret⟩ := run_bind_ok h
      obtain ⟨hr, rfl⟩ := run_pure_ok hret
      obtain ⟨hb', hq, hl, hjoins, hsame, hnew⟩ :=
        joinEdges_spec hA hv hb (hold old rfl) hef hjoin
      have hcov : LabelLe A s t ef joined := fun hv φ hφ => by
        have := hv.2.join
        exact Joins.below_left hb'.store (hjoins hv).symm (hφ.mono hq.store)
      refine ⟨hb', hq, fun hnone => ?_, fun ef' hef' => ?_⟩
      · split at hr
        · next heq =>
          subst heq
          exact ⟨joined, rfl, hcov⟩
        · rw [hnone] at hr
          cases hr
      · split at hr
        · rw [hef'] at hr
          cases hr
        · next hne =>
          rw [hef'] at hr
          obtain rfl := Option.some.inj hr
          have hne' : old ≠ ef := fun heq => hne (hsame heq)
          exact ⟨.join hv hl hjoins (hnew hne') hne hne'.symm, hcov⟩
    · next hv =>
      obtain ⟨rfl, rfl⟩ := run_pure_ok h
      exact ⟨hb, Quiet.refl s, fun _ => ⟨old, rfl, fun hv' => absurd hv'.1 hv⟩, nofun⟩

end Solver

variable [DecidableEq D]

/-- Without values, labels say nothing. -/
theorem PathOk.relabel (hv : A.config.computeValues ≠ true) {x : PathEdge} {p : ProcId}
    (h : PathOk A s x p) (e : EdgeRef) : PathOk A s { x with edge := e } p := by
  obtain ⟨node, proc, source, target, h⟩ := h
  exact ⟨node, proc, source, target, { h with
    labelled := fun hv' => absurd hv' hv
    exact := fun hp => ⟨(h.exact hp).1, fun hv' => absurd hv'.1 hv⟩
    spelled := fun _ hR => absurd hR.valued.1 hv }⟩

variable [DecidableEq L] {Z : ProcId → FactId → Prop}

/-! ## Fills and passes -/

/-- Moves that only add names, answers, stored functions and path edges. -/
structure Fill (A : Analysis D L K) (Z : ProcId → FactId → Prop) (s s' : State D L K) : Prop where
  moves : Moves A Z s s'
  summaries : s'.summaries = s.summaries
  ledger : s'.ledger = s.ledger
  callQueue : s'.callQueue = s.callQueue

/-- Moves after which all new calls are linked. -/
structure Pass (A : Analysis D L K) (Z : ProcId → FactId → Prop) (s s' : State D L K) : Prop where
  moves : Moves A Z s s'
  linked : ∀ c ∈ s'.ledger, c ∈ s.ledger ∨ Linked A s' c

theorem Move.ledgerGrows (h : Move A Z s t) : LedgerGrows s t := by
  have hsame : t.ledger = s.ledger → LedgerGrows s t := fun heq => by
    constructor <;> simp [heq]
  cases h with
  | quiet _ hq => exact hsame hq.ledger
  | path _ _ _ hstore => exact hsame hstore.ledger
  | key _ => exact hsame rfl
  | summary _ _ _ _ _ => exact hsame rfl
  | @call c p _ hnew hthreaded _ _ _ =>
    refine ⟨fun i c' hi => ?_, fun e p c' hc' => ?_, fun a n c' hc' => ?_⟩
    · show (s.ledger.insert c).2.records[i]? = some c'
      rw [CallLedger.records_insert hnew, Array.getElem?_push]
      split
      · next heq =>
        rw [heq, Array.getElem?_eq_none (Nat.le_refl _)] at hi
        cases hi
      · exact hi
    · show c' ∈ (s.ledger.insert c).2.callsInto e p
      rw [CallLedger.callsInto_insert hthreaded]
      exact hc'
    · show c' ∈ (s.ledger.insert c).2.callsFrom a n
      rw [CallLedger.callsFrom_insert hthreaded]
      exact hc'
  | link hi hfree hlink _ =>
    obtain ⟨hrecords, -, hinto, hforward⟩ := CallLedger.link_spec hlink hi hfree
    refine ⟨fun i c' hi' => ?_, fun e p c' hc' => (hinto e p c').2 (.inr hc'),
      fun a n c' hc' => (hforward a n c').2 (.inr hc')⟩
    show _ = some c'
    rw [hrecords]
    exact hi'
  | seed _ _ _ => exact hsame rfl

theorem Moves.ledgerGrows (h : Moves A Z s t) : LedgerGrows s t := by
  induction h with
  | refl => exact ⟨fun _ _ h => h, fun _ _ _ h => h, fun _ _ _ h => h⟩
  | tail _ hm ih =>
    have hm := hm.ledgerGrows
    exact ⟨fun i c hc => hm.records i c (ih.records i c hc),
      fun e p c hc => hm.into e p c (ih.into e p c hc),
      fun a n c hc => hm.forward a n c (ih.forward a n c hc)⟩

theorem Pass.refl (s : State D L K) : Pass A Z s s := ⟨.refl, fun _ hc => .inl hc⟩

theorem Pass.trans (h : Pass A Z s t) (k : Pass A Z t u) : Pass A Z s u where
  moves := h.moves.trans k.moves
  linked c hc := by
    rcases k.linked c hc with hc | hc
    · exact (h.linked c hc).imp_right (·.mono k.moves.ledgerGrows)
    · exact .inr hc

/-- A move that records no call. -/
theorem Move.pass (h : Move A Z s t) (hledger : t.ledger = s.ledger) : Pass A Z s t :=
  ⟨.single h, fun _ hc => .inl (hledger ▸ hc)⟩

theorem Fill.refl (s : State D L K) : Fill A Z s s := ⟨.refl, rfl, rfl, rfl⟩

theorem Fill.trans (h : Fill A Z s t) (k : Fill A Z t u) : Fill A Z s u :=
  ⟨h.moves.trans k.moves, k.summaries.trans h.summaries, k.ledger.trans h.ledger,
    k.callQueue.trans h.callQueue⟩

theorem Fill.pass (h : Fill A Z s t) : Pass A Z s t :=
  ⟨h.moves, fun _ hc => .inl (h.ledger ▸ hc)⟩

theorem Quiet.fill (hb : Base A t) (h : Quiet s t) : Fill A Z s t :=
  ⟨.single (.quiet hb h), h.summaries, h.ledger, h.callQueue⟩

namespace Solver

/-! ## Recording -/

/-- A path edge of the procedure was recorded, so it is covered. -/
theorem record_spec (hA : Scope A) (h : Inv A s) {n : NodeId} {a b : FactId} {p : ProcId}
    {ef : EdgeRef} {u : Unit} (hpath : PathOk A s ⟨n, a, b, ef⟩ p)
    (hz : Z p a ∨ AtStart A s ⟨n, a, b, ef⟩ ef)
    (hrun : (record A n a b p ef).run s = .ok (u, s')) :
    Fill A Z s s' ∧ ∃ ef', s'.paths.get? n a b = some ef' ∧ LabelLe A s s' ef ef' := by
  unfold record at hrun
  obtain ⟨_, _, hget, hrun⟩ := run_bind_ok hrun
  obtain ⟨rfl, rfl⟩ := run_get_ok hget
  -- Only the label depends on whether values are computed.
  generalize hef : (if A.config.computeValues = true then ef else .identity) = e at hrun
  have hpath' : PathOk A s ⟨n, a, b, e⟩ p := by
    split at hef
    · exact hef ▸ hpath
    · next hv => exact hpath.relabel hv e
  have hz' : Z p a ∨ AtStart A s ⟨n, a, b, e⟩ e := hz.imp_right fun hs => by
    have he : e = .identity := by
      rw [← hef, hs.identity]
      split <;> rfl
    exact ⟨hs.diagonal, he, hs.start⟩
  have hle : ∀ {t : State D L K} {o : EdgeRef}, LabelLe A s t e o → LabelLe A s t ef o :=
    fun hle hv => by
      rw [if_pos hv.1] at hef
      exact hef ▸ hle hv
  obtain ⟨r, t, hmerge, hrun⟩ := run_bind_ok hrun
  have hold : ∀ o, s.paths.get? n a b = some o → A.Labelled s.store o := fun o ho => by
    obtain ⟨q, hq⟩ := h.paths n a b o ho
    exact hq.labelled
  obtain ⟨hb, hq, hnone, hsome⟩ := merge_spec hA h.toBase hold hpath'.labelled hmerge
  cases r with
  | none =>
    obtain ⟨-, rfl⟩ := run_pure_ok hrun
    obtain ⟨o, ho, hcov⟩ := hnone rfl
    exact ⟨hq.fill hb, o, by rw [hq.paths, ho], hle hcov⟩
  | some ef' =>
    obtain ⟨hm, hcov⟩ := hsome ef' rfl
    have hstore : StorePath A ⟨n, a, b, ef'⟩ p t s' := storePath_spec hA (by rw [hq.paths]) hrun
    have hpath'' : PathOk A t ⟨n, a, b, e⟩ p := hpath'.mono hq.grows
    have hz'' : Z p a ∨ AtStart A t ⟨n, a, b, ef'⟩ e := hz'.imp_right fun hs => by
      obtain ⟨sp, q, hsp, hstart⟩ := hs.start
      exact ⟨hs.diagonal, hs.identity, sp, q, hq.nodes _ _ hsp, hstart⟩
    refine ⟨(hq.fill hb).trans ⟨.single (.path hpath'' ?_ hz'' hstore), hstore.summaries,
      hstore.ledger, hstore.callQueue⟩, ef', ?_, ?_⟩
    · rw [hq.paths]
      exact hm
    · rw [hstore.paths, PathTable.get?_insert, if_pos ⟨rfl, rfl, rfl⟩]
    · refine hle fun hv ψ hψ => ?_
      rw [hstore.store]
      exact hcov hv ψ hψ

end Solver

end Tabulation
