import Tabulation.Proofs.Solver.Resting

/-!
# Procedures that are not reached again

When a procedure is collected, its calls no longer wait for summaries. That loses nothing as long as
nothing new ever happens to the facts with which it was entered so far. `Dormant A W s` says that
this is so for the pairs `W` of a procedure and an entry fact: they are `Resting`, and the counts of
pending work tell which procedures are still busy.

Without collection no pair is dormant, and then labels at start points need not absorb anything:
seeds may be anywhere, and values need not obey the laws.
-/

namespace Tabulation

variable {D L K : Type} [Ord D] [Ord L] [Ord K] {A : Analysis D L K}
  {Z W : ProcId → FactId → Prop} {s s' : State D L K}

theorem Started.mono {p : ProcId} {a : FactId} (h : Started A s p a) (hg : s.Grows s') :
    Started A s' p a := by
  obtain ⟨q, sp, n, ef, hq, hsp, hn, hef⟩ := h
  obtain ⟨ef', hef'⟩ := hg.paths _ _ _ ef hef
  exact ⟨q, sp, n, ef', hg.procs _ _ hq, hsp, hg.nodes _ _ hn, hef'⟩

/-! ## Queued path edges -/

/-- How many path edges of a procedure are queued. -/
noncomputable def queuedIn (A : Analysis D L K) (s : State D L K) (p : ProcId) : Nat :=
  open Classical in s.queue.toList.countP fun x => InProc A s x.node p

open Classical in
/-- Queued path edges keep their procedures. -/
theorem countP_inProc (h : ∀ x ∈ s.queue.toList, ∃ q, InProc A s x.node q) (hs : s'.procs.Wf)
    (hg : s.Grows s') (p : ProcId) :
    (s.queue.toList.countP fun x => InProc A s' x.node p) = queuedIn A s p := by
  refine List.countP_congr fun x hx => ?_
  obtain ⟨q, hq⟩ := h x hx
  simpa using ⟨fun hp => hq.of_grows hs hg hp, fun hp => hp.mono hg⟩

theorem queuedIn_of_grows (h : ∀ x ∈ s.queue.toList, ∃ q, InProc A s x.node q) (hs : s'.procs.Wf)
    (hg : s.Grows s') (hqueue : s'.queue = s.queue) (p : ProcId) :
    queuedIn A s' p = queuedIn A s p := by
  rw [queuedIn, hqueue, countP_inProc h hs hg]

open Classical in
theorem countP_inProc_singleton (hs : s.procs.Wf) {x : PathEdge} {p : ProcId}
    (hp : InProc A s x.node p) (q : ProcId) :
    ([x].countP fun y => InProc A s y.node q) = if p = q then 1 else 0 := by
  rw [List.countP_singleton]
  by_cases hq : p = q
  · rw [if_pos (by simpa using hq ▸ hp), if_pos hq]
  · rw [if_neg (by simpa using fun hin => hq (hp.unique hs hin)), if_neg hq]

/-- One more path edge is queued. -/
theorem queuedIn_push (h : ∀ x ∈ s.queue.toList, ∃ q, InProc A s x.node q) (hs : s'.procs.Wf)
    (hg : s.Grows s') {x : PathEdge} {p : ProcId} (hqueue : s'.queue = s.queue.push x)
    (hp : InProc A s' x.node p) (q : ProcId) :
    queuedIn A s' q = queuedIn A s q + if p = q then 1 else 0 := by
  rw [queuedIn, hqueue, Worklist.toList_push, List.countP_append, countP_inProc h hs hg,
    countP_inProc_singleton hs hp]

/-- A path edge is taken from the queue. -/
theorem queuedIn_pop (hs : s.procs.Wf) {job : PathEdge} {queue : Worklist PathEdge} {p : ProcId}
    (hpop : s.queue.pop? = some (job, queue)) (hp : InProc A s job.node p) (q : ProcId) :
    queuedIn A s q = queuedIn A { s with queue } q + if p = q then 1 else 0 := by
  rw [queuedIn, (Worklist.pop?_perm hpop).countP_eq, ← List.singleton_append, List.countP_append,
    countP_inProc_singleton hs hp, Nat.add_comm]
  rfl

variable [JoinLattice L] [Payload K L]

/-! ## Dormant pairs -/

/-- Nothing new will happen to the pairs `W`. -/
structure Dormant (A : Analysis D L K) (W : ProcId → FactId → Prop) (s : State D L K) : Prop where
  enabled : ∀ p a, W p a → A.config.gcMode.isEnabled = true
  rooted : A.config.gcMode.isEnabled = true → ∀ n a b ef p, s.paths.get? n a b = some ef →
    InProc A s n p → Rooted A s p a
  started : ∀ c ∈ s.ledger, Started A s c.callee c.entry
  asleep : ∀ p a, W p a → Rooted A s p a
  closed : ∀ c ∈ s.ledger, ∀ p, InProc A s c.site p → W p c.source → W c.callee c.entry
  queue : ∀ x ∈ s.queue.toList, ∀ p, InProc A s x.node p → ¬ W p x.source
  keys : ∀ e q, PendingKey s e q → ¬ W q e
  candidates : A.config.gcMode.isEnabled = true → ∀ n a b ef p,
    s.paths.get? n a b = some ef → InProc A s n p → p.index ∈ s.retention.candidates ∨ W p a
  counts : A.config.gcMode.isEnabled = true → ∀ p, queuedIn A s p ≤ s.retention.count p
  slots : ∀ i ∈ s.retention.candidates, ∃ p : ProcId, p.index = i

/-- The pairs `Z` may be worked on. -/
def Awake (A : Analysis D L K) (Z W : ProcId → FactId → Prop) (s : State D L K) : Prop :=
  ∀ p a, Z p a → (A.config.gcMode.isEnabled = true → Rooted A s p a) ∧ ¬ W p a

/-- While procedures are collected, dormant pairs rest. -/
theorem Dormant.resting (h : Dormant A W s) (hgc : A.config.gcMode.isEnabled = true) :
    Resting A W s :=
  ⟨fun _ => h.rooted hgc, h.asleep, h.closed, h.queue, h.keys⟩

theorem Awake.restless (h : Awake A Z W s) (hgc : A.config.gcMode.isEnabled = true) :
    Restless A Z W s :=
  fun p a hz => ⟨fun _ => (h p a hz).1 hgc, (h p a hz).2⟩

/-- Without collection no pair is dormant, so only with it there is something to show of them. -/
theorem Dormant.of_resting (hA : Scope A)
    (henabled : ∀ p a, W p a → A.config.gcMode.isEnabled = true)
    (hrest : A.config.gcMode.isEnabled = true → Resting A W s)
    (hstarted : ∀ c ∈ s.ledger, Started A s c.callee c.entry)
    (hcandidates : A.config.gcMode.isEnabled = true → ∀ n a b ef p,
      s.paths.get? n a b = some ef → InProc A s n p → p.index ∈ s.retention.candidates ∨ W p a)
    (hcounts : A.config.gcMode.isEnabled = true → ∀ p, queuedIn A s p ≤ s.retention.count p)
    (hslots : ∀ i ∈ s.retention.candidates, ∃ p : ProcId, p.index = i) : Dormant A W s where
  enabled := henabled
  rooted hgc := (hrest hgc).rooted (hA.valued_of_isEnabled hgc).1
  started := hstarted
  asleep p a hw := (hrest (henabled p a hw)).asleep p a hw
  closed c hc p hp hw := (hrest (henabled _ _ hw)).closed c hc p hp hw
  queue x hx p hp hw := (hrest (henabled _ _ hw)).queue x hx p hp hw
  keys e q hk hw := (hrest (henabled _ _ hw)).keys e q hk hw
  candidates := hcandidates
  counts := hcounts
  slots := hslots

variable [DecidableEq D] [DecidableEq L]

theorem Inv.queue_inProc (h : Inv A s) : ∀ x ∈ s.queue.toList, ∃ q, InProc A s x.node q :=
  fun x hx => (h.queue x hx).1.imp fun _ hq => hq.inProc

/-- A change that leaves path edges, their queue and the candidates alone. -/
theorem Dormant.of_grows (h : Dormant A W s) (hA : Scope A) (hinv : Inv A s) (hs : s'.procs.Wf)
    (hg : s.Grows s') (hpaths : s'.paths = s.paths) (hqueue : s'.queue = s.queue)
    (hretention : s'.retention = s.retention)
    (hrest : A.config.gcMode.isEnabled = true → Resting A W s')
    (hstarted : ∀ c ∈ s'.ledger, Started A s' c.callee c.entry) : Dormant A W s' := by
  refine .of_resting hA h.enabled hrest hstarted (fun hgc n a b ef p hef hp => ?_)
    (fun hgc p => ?_) (hretention ▸ h.slots)
  · rw [hpaths] at hef
    obtain ⟨q, hq⟩ := hinv.paths n a b ef hef
    rw [hretention]
    exact h.candidates hgc n a b ef p hef (hq.inProc.of_grows hs hg hp)
  · rw [queuedIn_of_grows hinv.queue_inProc hs hg hqueue, hretention]
    exact h.counts hgc p

/-- The procedure of a new path edge becomes a candidate. -/
theorem Dormant.of_storePath (h : Dormant A W s) (hA : Scope A) (hinv : Inv A s)
    (hs : s'.procs.Wf) {x : PathEdge} {p : ProcId} {e : EdgeRef}
    (hpath : PathOk A s { x with edge := e } p) (hstore : StorePath A x p s s')
    (hrest : A.config.gcMode.isEnabled = true → Resting A W s')
    (hstarted : ∀ c ∈ s'.ledger, Started A s' c.callee c.entry) : Dormant A W s' := by
  have hg := hstore.grows
  have hx : InProc A s' x.node p := hpath.inProc.mono hg
  refine .of_resting hA h.enabled hrest hstarted (fun hgc n a b ef q hef hq => ?_)
    (fun hgc q => ?_) fun i hi => ?_
  · rw [hstore.retention, if_pos hgc, Retention.mem_candidates_retain]
    rw [hstore.paths, PathTable.get?_insert] at hef
    split at hef
    · next hkey =>
      obtain ⟨rfl, -, -⟩ := hkey
      exact .inl (.inl (by rw [hx.unique hs hq]))
    · obtain ⟨q', hq'⟩ := hinv.paths n a b ef hef
      exact (h.candidates hgc n a b ef q hef (hq'.inProc.of_grows hs hg hq)).imp_left .inr
  · have hle := h.counts hgc q
    rw [hstore.retention, if_pos hgc, Retention.count_retain,
      queuedIn_push hinv.queue_inProc hs hg hstore.queue hx]
    split <;> omega
  · rw [hstore.retention] at hi
    split at hi
    · rcases Retention.mem_candidates_retain.1 hi with rfl | hi
      · exact ⟨p, rfl⟩
      · exact h.slots i hi
    · exact h.slots i hi

/-- Only calls into procedures that were entered are recorded. -/
theorem Move.started (hstarted : ∀ c ∈ s.ledger, Started A s c.callee c.entry)
    (hmove : Move A Z s s') : ∀ c ∈ s'.ledger, Started A s' c.callee c.entry := by
  have hg := hmove.grows
  intro c hc
  refine Started.mono ?_ hg
  cases hmove with
  | quiet _ hq => exact hstarted c (hq.ledger ▸ hc)
  | path _ _ _ hstore => exact hstarted c (hstore.ledger ▸ hc)
  | key _ => exact hstarted c hc
  | summary _ _ _ _ _ => exact hstarted c hc
  | call _ _ _ _ _ hstart =>
    rcases CallLedger.mem_insert.1 hc with rfl | hc
    · exact hstart
    · exact hstarted c hc
  | link hi _ hlink _ =>
    obtain ⟨-, hknown⟩ := CallLedger.link_records hlink hi
    refine hstarted c ?_
    rw [CallLedger.mem_iff] at hc ⊢
    rw [← hknown]
    exact hc
  | seed _ _ _ => exact hstarted c hc

theorem Move.dormant (h : Dormant A W s) (hA : Scope A) (hinv : Inv A s)
    (hZ : Awake A Z W s) (hmove : Move A Z s s') : Dormant A W s' := by
  have hg := hmove.grows
  have hs := (hmove.inv hinv).procs
  have hstarted := hmove.started h.started
  have hrest : A.config.gcMode.isEnabled = true → Resting A W s' := fun hgc =>
    hmove.resting (h.resting hgc) hA (fun _ => hA.valued_of_isEnabled hgc) hinv (hZ.restless hgc)
  cases hmove with
  | quiet _ hq =>
    exact h.of_grows hA hinv hs hg hq.paths hq.queue hq.retention hrest hstarted
  | path hpath _ _ hstore => exact h.of_storePath hA hinv hs hpath hstore hrest hstarted
  | key _ => exact h.of_grows hA hinv hs hg rfl rfl rfl hrest hstarted
  | summary _ _ _ _ _ => exact h.of_grows hA hinv hs hg rfl rfl rfl hrest hstarted
  | call _ _ _ _ _ _ => exact h.of_grows hA hinv hs hg rfl rfl rfl hrest hstarted
  | link _ _ _ _ => exact h.of_grows hA hinv hs hg rfl rfl rfl hrest hstarted
  | seed _ _ _ => exact h.of_grows hA hinv hs hg rfl rfl rfl hrest hstarted

theorem Moves.dormant (h : Dormant A W s) (hA : Scope A) (hinv : Inv A s)
    (hZ : Awake A Z W s) (hmoves : Moves A Z s s') :
    Dormant A W s' ∧ Awake A Z W s' := by
  induction hmoves with
  | refl => exact ⟨h, hZ⟩
  | tail hms hm ih =>
    exact ⟨hm.dormant ih.1 hA (Moves.inv hinv hms) ih.2,
      fun p a hz => ⟨fun hv => ((ih.2 p a hz).1 hv).move hm, (ih.2 p a hz).2⟩⟩

end Tabulation
