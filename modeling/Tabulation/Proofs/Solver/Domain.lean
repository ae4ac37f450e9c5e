import Tabulation.Proofs.Solver.Values

/-!
# Where values are

The facts that have a value are those that were reached, `OnReached`. They all have one from the
beginning. Values then only arrive where a fact was reached: at seeds, at start points that a
recorded call enters, and at the targets of path edges. So this needs no law about the values, and
the seeds may be anywhere.
-/

namespace Tabulation

variable {D L K : Type} [Ord D] [Ord L] [Ord K] {A : Analysis D L K} {s : State D L K}

/-- The fact was reached at the node. -/
def State.Reached (s : State D L K) (n : NodeId) (d : FactId) : Prop :=
  s.reached.contains (pack n.val d.val) = true

/-! ## Tables of values -/

section Tables

variable {σ : Type} [ValueCode σ L] [LawfulCode σ L] {t t' : ValueTable σ L}

/-- The facts that have a value are those that were reached. -/
structure OnReached (s : State D L K) (t : ValueTable σ L) : Prop where
  wf : t.Wf
  find?_iff : ∀ n d, (∃ v, t.find? n d = some v) ↔ s.Reached n d

theorem OnReached.set (h : OnReached s t) {n : NodeId} {d : FactId} {v : L}
    (hreached : s.Reached n d) (hset : t.set n d v = .ok t') : OnReached s t' := by
  obtain ⟨hwf, -, hfind⟩ := ValueTable.set_spec h.wf hset
  refine ⟨hwf, fun m e => ?_⟩
  rw [hfind]
  split
  · next heq =>
    obtain ⟨rfl, rfl⟩ := heq
    exact ⟨fun _ => hreached, fun _ => ⟨v, rfl⟩⟩
  · exact h.find?_iff m e

/-- The pending values are for facts that were reached, too. -/
structure Evaluation.OnReached (s : State D L K) (e : Evaluation σ L) : Prop where
  values : Tabulation.OnReached s e.values
  queue : ∀ job ∈ e.queue.toList, s.Reached job.node job.fact

theorem Solver.reachedValues_onReached [JoinLattice L] (h : reachedValues s = .ok t) :
    OnReached s t := by
  obtain ⟨hwf, -, hfind⟩ := reachedValues_spec h
  refine ⟨hwf, fun n d => ?_⟩
  simp only [hfind, exists_and_left, exists_eq, and_true]
  exact Iff.rfl

theorem Solver.evaluateEdge_onReached [JoinLattice L] [Payload K L] [DecidableEq L]
    (h : OnReached s t) {start n : NodeId} {a b : FactId} {ef : EdgeRef} (hreached : s.Reached n b)
    (hrun : evaluateEdge s start n t (a, b, ef) = .ok t') : OnReached s t' := by
  unfold evaluateEdge at hrun
  simp only [bind_eq_ok] at hrun
  obtain ⟨v, -, hrun⟩ := hrun
  split at hrun
  · exact h.set hreached hrun
  · obtain rfl := pure_eq_ok.1 hrun
    exact h

end Tables

/-! ## Path edges and reached facts -/

variable [JoinLattice L] [Payload K L]

theorem Covered.hasPath {n : String} {i : FactId} {a d : D} {φ : L → L} (h : Covered A s n i d φ)
    (hi : s.HasFact i a) : s.HasPath n a d := by
  obtain ⟨k, j, ef, hk, hj, hef, -⟩ := h
  exact ⟨k, i, j, ef, hk, hi, hj, hef⟩

variable [DecidableEq D] [DecidableEq L]

/-- A path edge was crossed. -/
theorem Complete.crossedAs (h : Complete A s) {n : String} {a d : D} (hpath : s.HasPath n a d) :
    ∃ x ψ, s.HasFact x.source a ∧ s.paths.get? x.node x.source x.target = some x.edge ∧
      CrossedAs A s x n d ψ := by
  obtain ⟨k, i, j, ef, hk, hi, hj, hef⟩ := hpath
  obtain ⟨node, fact, ψ, hx⟩ := h.crossed k i j ef hef
  obtain rfl := Option.some.inj (hx.hasNode.symm.trans hk)
  obtain rfl := Option.some.inj (hx.hasFact.symm.trans hj)
  exact ⟨_, ψ, hi, hef, hx⟩

theorem Complete.reached_of_hasPath (h : Complete A s) {n : String} {a d : D} {k : NodeId}
    {j : FactId} (hpath : s.HasPath n a d) (hk : s.HasNode k n) (hj : s.HasFact j d) :
    s.Reached k j := by
  obtain ⟨k', i, j', ef, hk', hi, hj', hef⟩ := hpath
  obtain rfl : k = k' := congrArg NodeId.mk (Interner.get?_inj h.nodes hk hk')
  obtain rfl : j = j' := congrArg FactId.mk (Interner.get?_inj h.facts hj hj')
  exact (h.reached k.val j.val).2 ⟨i, ef, hef⟩

theorem Complete.reached_seed (h : Complete A s) {job : ValueJob L} (hjob : job ∈ s.seeds) :
    s.Reached job.node job.fact := by
  obtain ⟨sp, a, hn, hi, hseed⟩ := h.seeds job hjob
  obtain ⟨job', -, -, hi', -, hcov⟩ := h.submitted _ _ _ hseed
  exact h.reached_of_hasPath (hcov.hasPath hi') hn hi

/-- Calls only send values to facts that were reached. -/
theorem Sent.reached (h : Complete A s) {n : NodeId} {d : FactId} {v : L} {job : ValueJob L}
    (hsent : Sent A s n d v job) : s.Reached job.node job.fact := by
  obtain ⟨c, -, site, caller, callee, source, entry, _, hrec, -, -, ⟨sp, hn, hsp⟩, hfact, -⟩ :=
    hsent
  obtain ⟨b, e, hpath, he, -⟩ := hrec.enter
  obtain ⟨x, ψ, -, -, hx⟩ := h.crossedAs hpath
  obtain ⟨c', -, -, -, -, hentry, -, hcov⟩ := hx.enter _ _ _ _ he hsp
  exact h.reached_of_hasPath (hcov.hasPath hentry) hn (hfact ▸ hrec.hasEntry)

namespace Solver

variable {σ : Type} [ValueCode σ L] [LawfulCode σ L] {e e' : Evaluation σ L} {t t' : ValueTable σ L}
  {job : ValueJob L} {queue : Worklist (ValueJob L)}

theorem visit_onReached (hA : Scope A) (hv : A.config.computeValues = true) (hs : Complete A s)
    (h : e.OnReached s) (hjob : s.Reached job.node job.fact) (hrun : visit A s e job = .ok e') :
    e'.OnReached s := by
  unfold visit at hrun
  simp only at hrun
  split at hrun
  · obtain rfl := pure_eq_ok.1 hrun
    exact h
  · simp only [bind_eq_ok] at hrun
    obtain ⟨values, hset, sp, hsp, p, hp, sites, hsites, hrun⟩ := hrun
    have hpushed := forward_spec hA hv hs (Interner.get_eq_ok.1 hsp) hp hsites hrun
    rw [hpushed.same]
    refine ⟨h.values.set hjob hset, fun job' hmem => ?_⟩
    rcases (hpushed.mem job').1 hmem with hmem | hsent
    · exact h.queue job' hmem
    · exact hsent.reached hs

theorem visitAll_onReached (hA : Scope A) (hv : A.config.computeValues = true) (hs : Complete A s)
    (h : e.OnReached s) {n : Nat} (hrun : visitAll A s n e = .ok e') : e'.OnReached s := by
  induction n generalizing e with
  | zero =>
    unfold visitAll at hrun
    split at hrun
    · obtain rfl := Except.ok.inj hrun
      exact h
    · cases hrun
  | succ n ih =>
    unfold visitAll at hrun
    split at hrun
    · obtain rfl := Except.ok.inj hrun
      exact h
    · next job queue hpop =>
      rw [bind_eq_ok] at hrun
      obtain ⟨e₁, hvisit, hrun⟩ := hrun
      have hmem : ∀ job', job' ∈ job :: queue.toList → s.Reached job'.node job'.fact :=
        fun job' hjob => h.queue job' ((Worklist.pop?_perm hpop).mem_iff.2 hjob)
      have hpopped : ({ e with queue, jobs := e.jobs + 1 } : Evaluation σ L).OnReached s :=
        ⟨h.values, fun job' hjob => hmem job' (List.mem_cons_of_mem _ hjob)⟩
      exact ih (visit_onReached hA hv hs hpopped (hmem job List.mem_cons_self) hvisit) hrun

theorem evaluateNode_onReached (hs : Complete A s) (h : OnReached s t) {start : NodeId}
    {sp node : String} (hrun : evaluateNode A s start sp t node = .ok t') : OnReached s t' := by
  unfold evaluateNode at hrun
  split at hrun
  · obtain rfl := pure_eq_ok.1 hrun
    exact h
  simp only [bind_eq_ok] at hrun
  obtain ⟨skip, -, hrun⟩ := hrun
  split at hrun
  · obtain rfl := pure_eq_ok.1 hrun
    exact h
  split at hrun
  · obtain rfl := pure_eq_ok.1 hrun
    exact h
  · next id _ =>
    refine foldlM_ok (fun _ t => OnReached s t) hrun h fun _ x t₁ t₂ hx h₁ h₂ => ?_
    obtain ⟨a, b, ef⟩ := x
    exact evaluateEdge_onReached h₁ ((hs.reached _ _).2 ⟨a, ef, PathTable.mem_entries.1 hx⟩) h₂

theorem computeValues_onReached (hA : Scope A) (hv : A.config.computeValues = true)
    (hs : Complete A s) (h : OnReached s t) {steps : Nat}
    (hrun : computeValues A s steps t = .ok e') : OnReached s e'.values := by
  unfold computeValues at hrun
  simp only [bind_eq_ok] at hrun
  obtain ⟨e, hvisit, t', hfold, hrun⟩ := hrun
  obtain rfl := pure_eq_ok.1 hrun
  have hvisited := visitAll_onReached hA hv hs ⟨h, fun job hjob => ?_⟩ hvisit
  · refine foldlM_ok (fun _ t => OnReached s t) hfold hvisited.values fun _ i t₁ t₂ _ h₁ h₂ => ?_
    unfold evaluateFrom at h₂
    simp only [bind_eq_ok] at h₂
    obtain ⟨sp, -, p, -, nodes, -, h₂⟩ := h₂
    exact foldlM_ok (fun _ t => OnReached s t) h₂ h₁ fun _ node t₁ t₂ _ h₁ h₂ =>
      evaluateNode_onReached hs h₁ h₂
  · rw [Worklist.toList_pushAll] at hjob
    exact hs.reached_seed hjob

variable [Std.TransOrd D] [Std.LawfulEqOrd D]

/-- A run reports a value for the facts that were reached, and for no others. -/
theorem solve_onReached (hA : Scope A) {steps : Nat} {r : Results σ D L}
    (hsolve : solve A σ steps = .ok r) :
    ∃ s, Ends A steps s ∧ r.nodes = s.nodes ∧ r.facts = s.facts ∧ OnReached s r.values := by
  simp only [solve, conclude, bind_eq_ok] at hsolve
  obtain ⟨s₀, hcreate, s₁, hrun, ⟨_, s⟩, hdrop, values, hvalues, hr⟩ := hsolve
  have hends : Ends A steps s := ⟨s₀, s₁, _, hcreate, hrun, hdrop⟩
  have hreached := reachedValues_onReached hvalues
  split at hr
  · next hv =>
    obtain ⟨e', hvalued, hr⟩ := bind_eq_ok.1 hr
    obtain rfl := pure_eq_ok.1 hr
    exact ⟨s, hends, rfl, rfl, computeValues_onReached hA hv (hends.complete hA) hreached hvalued⟩
  · obtain rfl := pure_eq_ok.1 hr
    exact ⟨s, hends, rfl, rfl, hreached⟩

end Solver

end Tabulation
