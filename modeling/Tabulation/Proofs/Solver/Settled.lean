import Tabulation.Proofs.Solver.Dormant

/-!
# What is done and what is pending

Everything that the tables of a run imply is either done or pending: a path edge is crossed or
queued, and a call has its summaries applied or the key of its callee is pending. Moves keep this
up, `Settled.pass`; when nothing is pending any more, everything is done.
-/

namespace Tabulation

variable {D L K : Type} [Ord D] [Ord L] [Ord K] [JoinLattice L] [Payload K L]
  {A : Analysis D L K} {Z W : ProcId → FactId → Prop} {E : PathEdge → Prop}
  {F : FactId → ProcId → Prop} {s s' : State D L K}

/-- A seed was submitted. -/
def Submitted (A : Analysis D L K) (s : State D L K) (sp : String) (a : D) (v : L) : Prop :=
  ∃ job ∈ s.seeds, s.HasNode job.node sp ∧ s.HasFact job.fact a ∧ job.value = v ∧
    Covered A s sp job.fact a id

theorem Submitted.later {sp : String} {a : D} {v : L} (h : Submitted A s sp a v)
    (hl : Later A s s') (hseeds : ∀ job ∈ s.seeds, job ∈ s'.seeds) : Submitted A s' sp a v := by
  obtain ⟨job, hjob, hsp, ha, hv, hcov⟩ := h
  exact ⟨job, hseeds job hjob, hl.nodes _ _ hsp, hl.facts _ _ ha, hv, hcov.later hl⟩

variable [DecidableEq D]

/-- All path edges but those in `E` are queued or crossed. -/
def PathsDone (A : Analysis D L K) (E : PathEdge → Prop) (s : State D L K) : Prop :=
  ∀ n a b ef, s.paths.get? n a b = some ef →
    E ⟨n, a, b, ef⟩ ∨ ⟨n, a, b, ef⟩ ∈ s.queue.toList ∨ Crossed A s ⟨n, a, b, ef⟩

/-- All waiting calls but those under the keys `F` are returned, or their key is pending. -/
def CallsDone (A : Analysis D L K) (F : FactId → ProcId → Prop) (s : State D L K) : Prop :=
  ∀ e q, ∀ c ∈ s.ledger.callsInto e q, F e q ∨ PendingKey s e q ∨ Returned A s c

/-- The call receives values, and summaries as long as there will be any. -/
def Attached (A : Analysis D L K) (W : ProcId → FactId → Prop) (s : State D L K)
    (c : CallRecord) : Prop :=
  (A.config.computeValues = true → c ∈ s.ledger.callsFrom c.source c.site) ∧
    (c ∈ s.ledger.callsInto c.entry c.callee ∨ W c.callee c.entry ∧ Returned A s c)

variable [DecidableEq L]

theorem Move.queue (h : Move A Z s s') {x : PathEdge} (hx : x ∈ s.queue.toList) :
    x ∈ s'.queue.toList := by
  cases h with
  | quiet _ hq => rw [hq.queue]; exact hx
  | path _ _ _ hstore =>
    rw [hstore.queue, Worklist.toList_push]
    exact List.mem_append_left _ hx
  | key _ => exact hx
  | summary _ _ _ _ _ => exact hx
  | call _ _ _ _ _ _ => exact hx
  | link _ _ _ _ => exact hx
  | seed _ _ _ => exact hx

theorem Crossed.move (hb : Base A s) {x : PathEdge} (h : Crossed A s x)
    (hmove : Move A Z s s') : Crossed A s' x :=
  h.later (hmove.later hb) fun _ _ hψ => hψ.mono hmove.grows.store

theorem Move.pathsDone (hb : Base A s) (h : PathsDone A E s)
    (hmove : Move A Z s s') : PathsDone A E s' := by
  intro n a b ef hef
  have hsame : s'.paths = s.paths →
      E ⟨n, a, b, ef⟩ ∨ ⟨n, a, b, ef⟩ ∈ s'.queue.toList ∨ Crossed A s' ⟨n, a, b, ef⟩ := by
    intro heq
    rw [heq] at hef
    exact (h n a b ef hef).imp_right (Or.imp hmove.queue fun hx => hx.move hb hmove)
  cases hmove with
  | quiet _ hq => exact hsame hq.paths
  | path hpath hm hz hstore =>
    have hmove : Move A Z s s' := .path hpath hm hz hstore
    rw [hstore.paths, PathTable.get?_insert] at hef
    split at hef
    · next hkey =>
      obtain ⟨rfl, rfl, rfl⟩ := hkey
      obtain rfl := Option.some.inj hef
      refine .inr (.inl ?_)
      rw [hstore.queue, Worklist.toList_push]
      exact List.mem_append_right _ (List.mem_singleton.2 rfl)
    · exact (h n a b ef hef).imp_right (Or.imp hmove.queue fun hx => hx.move hb hmove)
  | key _ => exact hsame rfl
  | summary _ _ _ _ _ => exact hsame rfl
  | call _ _ _ _ _ _ => exact hsame rfl
  | link _ _ _ _ => exact hsame rfl
  | seed _ _ _ => exact hsame rfl

/-- A call stays returned, unless a summary of its callee was stored. -/
theorem Move.returned (hA : Scope A) (hinv : Inv A s) {c : CallRecord} (h : Returned A s c)
    (hmove : Move A Z s s') : Returned A s' c ∨
      Z c.callee c.entry ∧ pack c.entry.val c.callee.val ∈ s'.callQueue.keys := by
  have hl := hmove.later hinv.toBase
  have hg := hmove.grows
  have hsame : (∀ x d ef, s'.summaries.get? c.callee c.entry x d = some ef →
      s.summaries.get? c.callee c.entry x d = some ef) → Returned A s' c := fun hsame =>
    h.later hl (fun x d ef => Moves.summary hA hinv (.single hmove) (hsame x d ef))
      (fun _ _ hψ => hψ.mono hg.store) fun _ _ _ _ _ _ hψ => hψ.mono hg.store
  cases hmove with
  | quiet _ hq => exact .inl (hsame fun x d ef hef => hq.summaries ▸ hef)
  | path _ _ _ hstore => exact .inl (hsame fun x d ef hef => hstore.summaries ▸ hef)
  | key _ => exact .inl (hsame fun _ _ _ hef => hef)
  | @summary p a x b e ef _ _ _ hz hkey =>
    by_cases hpair : p = c.callee ∧ a = c.entry
    · obtain ⟨rfl, rfl⟩ := hpair
      exact .inr ⟨hz, hkey⟩
    · refine .inl (hsame fun x' d ef' hef' => ?_)
      rwa [SummaryTable.get?_insert, if_neg fun hkey => hpair ⟨hkey.1, hkey.2.1⟩] at hef'
  | call _ _ _ _ _ _ => exact .inl (hsame fun _ _ _ hef => hef)
  | link _ _ _ _ => exact .inl (hsame fun _ _ _ hef => hef)
  | seed _ _ _ => exact .inl (hsame fun _ _ _ hef => hef)

theorem Move.pendingKey (hmove : Move A Z s s') {e : FactId} {q : ProcId} (h : PendingKey s e q) :
    PendingKey s' e q := by
  cases hmove with
  | quiet _ hq => simpa only [PendingKey, hq.callQueue, hq.stage] using h
  | path _ _ _ hstore => simpa only [PendingKey, hstore.callQueue, hstore.stage] using h
  | key _ => exact h.imp_left fun hk => CallQueue.mem_insert.2 (.inr hk)
  | summary _ _ _ _ _ => exact h
  | call _ _ _ _ _ _ => exact h
  | link _ _ _ _ => exact h
  | seed _ _ _ => exact h

theorem Move.callsDone (hA : Scope A) (hinv : Inv A s) (h : CallsDone A F s)
    (hmove : Move A Z s s') : CallsDone A F s' := by
  have hkeep : ∀ e q, ∀ c ∈ s.ledger.callsInto e q,
      F e q ∨ PendingKey s' e q ∨ Returned A s' c := by
    intro e q c hc
    rcases h e q c hc with hF | hk | hret
    · exact .inl hF
    · exact .inr (.inl (hmove.pendingKey hk))
    · rcases hmove.returned hA hinv hret with hret | ⟨-, hk⟩
      · exact .inr (.inr hret)
      · obtain ⟨-, rfl, rfl⟩ := hinv.into e q c hc
        exact .inr (.inl (.inl hk))
  intro e q c hc
  cases hmove with
  | quiet _ hq => exact hkeep e q c (hq.ledger ▸ hc)
  | path _ _ _ hstore => exact hkeep e q c (hstore.ledger ▸ hc)
  | key _ => exact hkeep e q c hc
  | summary _ _ _ _ _ => exact hkeep e q c hc
  | call _ _ _ _ _ _ =>
    rw [CallLedger.callsInto_insert hinv.ledger.toThreaded] at hc
    exact hkeep e q c hc
  | link hi hfree hlink hret =>
    have hmove : Move A Z s _ := .link hi hfree hlink hret
    obtain ⟨-, -, hinto, -⟩ := CallLedger.link_spec hlink hi hfree
    rcases (hinto e q c).1 hc with ⟨rfl, rfl, rfl⟩ | hc
    · rcases hmove.returned hA hinv hret with hret | ⟨-, hk⟩
      · exact .inr (.inr hret)
      · exact .inr (.inl (.inl hk))
    · exact hkeep e q c hc
  | seed _ _ _ => exact hkeep e q c hc

theorem Move.attached (hA : Scope A) (hinv : Inv A s) (hZ : ∀ p a, Z p a → ¬ W p a)
    {c : CallRecord} (h : Attached A W s c) (hmove : Move A Z s s') : Attached A W s' c := by
  have hl := hmove.ledgerGrows
  refine ⟨fun hv => hl.forward _ _ _ (h.1 hv), ?_⟩
  rcases h.2 with hc | ⟨hw, hret⟩
  · exact .inl (hl.into _ _ _ hc)
  · rcases hmove.returned hA hinv hret with hret | ⟨hz, -⟩
    · exact .inr ⟨hw, hret⟩
    · exact absurd hw (hZ _ _ hz)

theorem Move.seeds (h : Move A Z s s') : ∀ job ∈ s.seeds, job ∈ s'.seeds := by
  intro job hjob
  cases h with
  | quiet _ hq => exact hq.seeds ▸ hjob
  | path _ _ _ hstore => exact hstore.seeds ▸ hjob
  | key _ => exact hjob
  | summary _ _ _ _ _ => exact hjob
  | call _ _ _ _ _ _ => exact hjob
  | link _ _ _ _ => exact hjob
  | seed _ _ _ => exact List.mem_append_left _ hjob

theorem Moves.seeds (h : Moves A Z s s') : ∀ job ∈ s.seeds, job ∈ s'.seeds := by
  induction h with
  | refl => exact fun _ hjob => hjob
  | tail _ hm ih => exact fun job hjob => hm.seeds job (ih job hjob)

theorem Move.stage (h : Move A Z s s') : s'.stage = s.stage := by
  cases h with
  | quiet _ hq => exact hq.stage
  | path _ _ _ hstore => exact hstore.stage
  | key _ => rfl
  | summary _ _ _ _ _ => rfl
  | call _ _ _ _ _ _ => rfl
  | link _ _ _ _ => rfl
  | seed _ _ _ => rfl

theorem Moves.stage (h : Moves A Z s s') : s'.stage = s.stage := by
  induction h with
  | refl => rfl
  | tail _ hm ih => exact hm.stage.trans ih

/-! ## Settled states -/

/-- Everything but the path edges `E` and the keys `F` is done or pending. -/
structure Settled (A : Analysis D L K) (W : ProcId → FactId → Prop) (E : PathEdge → Prop)
    (F : FactId → ProcId → Prop) (s : State D L K) : Prop where
  inv : Inv A s
  dormant : Dormant A W s
  paths : PathsDone A E s
  calls : CallsDone A F s
  attached : ∀ c ∈ s.ledger, Attached A W s c

theorem Moves.settled (hA : Scope A) (h : Settled A W E F s)
    (hZ : Awake A Z W s) (hmoves : Moves A Z s s') :
    PathsDone A E s' ∧ CallsDone A F s' ∧ ∀ c ∈ s.ledger, Attached A W s' c := by
  induction hmoves with
  | refl => exact ⟨h.paths, h.calls, h.attached⟩
  | tail hms hm ih =>
    have hinv := Moves.inv h.inv hms
    obtain ⟨hpaths, hcalls, hattached⟩ := ih
    exact ⟨hm.pathsDone hinv.toBase hpaths, hm.callsDone hA hinv hcalls,
      fun c hc => hm.attached hA hinv (fun p a hz => (hZ p a hz).2) (hattached c hc)⟩

theorem Pass.settled (hA : Scope A) (h : Settled A W E F s)
    (hZ : Awake A Z W s) (hpass : Pass A Z s s') :
    Settled A W E F s' := by
  obtain ⟨hpaths, hcalls, hattached⟩ := hpass.moves.settled hA h hZ
  refine ⟨Moves.inv h.inv hpass.moves, (Moves.dormant h.dormant hA h.inv hZ hpass.moves).1, hpaths,
    hcalls, fun c hc => ?_⟩
  rcases hpass.linked c hc with hc | hc
  · exact hattached c hc
  · exact ⟨hc.2, .inl hc.1⟩

end Tabulation
