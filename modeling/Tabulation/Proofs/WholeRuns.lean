import Tabulation.Proofs.LeastValues
import Tabulation.Proofs.Termination

/-!
# Whole runs return

Both phases of a run come to an end: the first one because there are finitely many path edges whose
labels cannot change for ever, the second one because values cannot rise for ever. `Bounded` says
what else a run without collection needs. Then it returns with results, unless numbers run out, and
they do not if there is one for every name: `Bounded.solve_plain` without values and
`Bounded.solve_valued` with them.
-/

namespace Tabulation

open Solver

variable {σ D L K : Type} {A : Analysis D L K} {facts : Finset D}

/-- An analysis without collection that stays within finitely many facts. -/
structure Bounded [DecidableEq D] (A : Analysis D L K) (facts : Finset D) : Prop where
  graph : A.graph.Built
  mode : A.config.gcMode = .disabled
  limit : 2 ≤ A.config.joinLimit
  seeds : A.SeedsAtStarts
  confined : A.Confined (· ∈ facts)

/-- There is a number for every name. -/
structure Numbered (A : Analysis D L K) (facts : Finset D) : Prop where
  facts : facts.card < UInt32.size
  nodes : A.graph.nodes.size < UInt32.size
  procs : A.graph.procNames.length < UInt32.size

/-- All values of a list that is short enough can be numbered. -/
theorem Solver.internAll_total {α : Type} [Ord α] [Std.TransOrd α] [Std.LawfulEqOrd α]
    [DecidableEq α] {as : List α} (h : as.length < UInt32.size) :
    ∃ t, internAll .empty as = .ok t := by
  have hcard : as.toFinset.card < UInt32.size := Nat.lt_of_le_of_lt (List.toFinset_card_le as) h
  obtain ⟨t, ht, -⟩ := foldlM_total
    (fun t : Interner α => t.Wf ∧ ∀ i b, t.get? i = some b → b ∈ as.toFinset)
    (f := fun t a => (return (← t.intern a).2 : Except Fault (Interner α)))
    ⟨Interner.wf_empty, fun i b hb => by simp [Interner.get?, Interner.empty] at hb⟩
    fun a ha t ⟨hwf, hmem⟩ => by
      have ha := List.mem_toFinset.2 ha
      obtain ⟨i, t', ht'⟩ := Interner.intern_total hwf hmem hcard ha
      refine ⟨t', bind_eq_ok.2 ⟨_, ht', rfl⟩, (Interner.intern_spec hwf ht').1, fun j b hb => ?_⟩
      exact (Interner.get?_of_intern ht' hb).elim (hmem j b) fun hb => hb ▸ ha
  exact ⟨t, ht⟩

/-- On a scale, values cannot rise for ever. -/
theorem Scale.wellFounded_above [JoinLattice L] [Payload K L] (S : Scale L K) :
    WellFounded fun u v : L => StrictlyBelow v u := by
  refine Subrelation.wf (fun {u v} h => ?_) (measure fun v => S.maxDepth - S.depth v).wf
  have hlt := S.depth_lt h.1 h.2
  have hle := S.depth_le u
  show S.maxDepth - S.depth u < S.maxDepth - S.depth v
  omega

/-- Values can be stored without a fault. -/
theorem Solver.exists_reachedValues [Ord D] [Ord L] [Ord K] [JoinLattice L] [ValueCode σ L]
    (hcode : AllowsCode σ L fun _ => False) (s : State D L K) :
    ∃ values : ValueTable σ L, reachedValues s = .ok values := by
  have hreturns : Returns (fun _ => False) (reachedValues s : Except Fault (ValueTable σ L))
      fun _ => True := .foldlM _ trivial fun _ _ t _ => set_returns hcode t _ _ _
  obtain ⟨values, hvalues, -⟩ := hreturns.exists_ok fun _ => id
  exact ⟨values, hvalues⟩

namespace Bounded

variable [DecidableEq D]

theorem known (h : Bounded A facts) : ∀ x ∈ A.problem.seeds.toList, A.graph.Known x.1 :=
  fun x hx => by
    obtain ⟨p, hp⟩ := Supergraph.exists_startOf h.graph.consistent (h.seeds x hx)
    exact Supergraph.known_of_procOf ((Supergraph.startOf_iff h.graph.consistent).1 hp).1

theorem scope [Ord L] [Ord K] [JoinLattice L] [Payload K L] [Std.TransOrd L] [Std.LawfulEqOrd L]
    [Std.TransOrd K] [Std.LawfulEqOrd K] (h : Bounded A facts) : Scope A :=
  .of_disabled h.graph h.mode fun _ =>
    ⟨inferInstance, inferInstance, inferInstance, inferInstance⟩

variable [Ord D] [Ord L] [Ord K] [Std.TransOrd D] [Std.LawfulEqOrd D]

theorem create_cases (h : Bounded A facts) :
    (∃ s, create A = .ok s) ∨ create A = .error .idsExhausted ∧ ¬ Numbered A facts := by
  have hone : [A.problem.zero].length < UInt32.size := by
    rw [List.length_singleton]
    decide
  obtain ⟨zero, hzero⟩ := internAll_total hone
  cases hprocs : internAll .empty A.graph.procNames with
  | ok procs =>
    exact .inl ⟨_, bind_eq_ok.2 ⟨zero, hzero, bind_eq_ok.2 ⟨procs, hprocs,
      bind_eq_ok.2 ⟨_, EdgeStore.create_eq_ok.2 ⟨h.limit, rfl⟩, rfl⟩⟩⟩⟩
  | error f =>
    obtain rfl := (internAll_returns (E := (· = .idsExhausted)) rfl _ _).allowed hprocs
    refine .inr ⟨?_, fun hn => ?_⟩
    · unfold create
      rw [hzero, hprocs]
      rfl
    · obtain ⟨procs, hok⟩ := internAll_total hn.procs
      rw [hprocs] at hok
      cases hok

variable [JoinLattice L] [Payload K L] [DecidableEq L] [ValueCode σ L] [Std.TransOrd L]
  [Std.LawfulEqOrd L] [Std.TransOrd K] [Std.LawfulEqOrd K]

/-- The first phase returns if its labels are graded, unless numbers run out. -/
theorem firstPhase (h : Bounded A facts) {grade : EdgeStore L K → EdgeRef → Nat} {B : Nat}
    (hG : Graded A grade B) :
    (∃ s₀ n s₁ s, create A = .ok s₀ ∧ (∀ m, n ≤ m → run A m s₀ = .ok s₁) ∧
      (dropPending A).run s₁ = .ok ((), s) ∧ Grounded A (fun _ => True) s ∧ Complete A s) ∨
    RunsOut A ∧ ¬ Numbered A facts := by
  rcases h.create_cases with ⟨s₀, hcreate⟩ | ⟨hcreate, hn⟩
  swap
  · refine .inr ⟨⟨0, ?_⟩, hn⟩
    rw [hcreate]
    rfl
  have hP := premises_of_confined h.graph h.mode h.known h.confined
  obtain ⟨n, r, hrun, hreturns⟩ := run_ends hP (by rw [h.mode]; rfl) hG (.create hcreate)
  have hrunn := hrun n (Nat.le_refl n)
  cases r with
  | error f =>
    obtain ⟨rfl, hroom⟩ := hreturns.allowed rfl
    refine .inr ⟨⟨n, ?_⟩, fun hn => hroom ⟨hn.nodes, hn.facts⟩⟩
    rw [hcreate]
    exact hrunn
  | ok s₁ =>
    obtain ⟨hreach, -⟩ := (Reachable.create hcreate).run hrunn
    have hground := hreach.grounded (.of_built h.graph h.known)
    obtain ⟨⟨⟩, s, hdrop, hgrounds, -⟩ := (dropPending_ensures hground).exists_ok
    exact .inl ⟨s₀, n, s₁, s, hcreate, hrun, hdrop, hgrounds,
      (dropPending_spec h.scope (run_create_spec h.scope hcreate hrunn) hdrop).1⟩

/-- A run without values returns, unless numbers run out. -/
theorem solve_plain (h : Bounded A facts) (hcode : AllowsCode σ L fun _ => False)
    (hplain : A.config.computeValues = false) :
    (∃ n, ∃ r : Results σ D L, solve A σ n = .ok r) ∨ RunsOut A ∧ ¬ Numbered A facts := by
  refine (h.firstPhase (graded_plain hplain)).imp_left ?_
  rintro ⟨s₀, n, s₁, s, hcreate, hrun, hdrop, -⟩
  obtain ⟨values, hvalues⟩ := exists_reachedValues hcode s
  have hconclude : conclude A σ n s₁ = .ok ⟨s.nodes, s.facts, values, s.stats⟩ := by
    refine bind_eq_ok.2 ⟨_, hdrop, bind_eq_ok.2 ⟨values, hvalues, ?_⟩⟩
    rw [hplain]
    rfl
  exact ⟨n, _, bind_eq_ok.2 ⟨s₀, hcreate, bind_eq_ok.2 ⟨s₁, hrun n (Nat.le_refl n), hconclude⟩⟩⟩

/-- A run with values returns, unless numbers run out, if values and payloads have a scale, and
payloads respect the order. -/
theorem solve_valued [LawfulJoin L] [LawfulCode σ L] (h : Bounded A facts)
    (hcode : AllowsCode σ L fun _ => False) (hv : A.config.computeValues = true) (S : Scale L K)
    (hpayloads : ∀ k : K, Respects (Payload.apply k : L → L)) :
    (∃ n, ∃ r : Results σ D L, solve A σ n = .ok r) ∨ RunsOut A ∧ ¬ Numbered A facts := by
  refine (h.firstPhase (graded_level S h.limit)).imp_left ?_
  rintro ⟨s₀, n, s₁, s, hcreate, hrun, hdrop, hground, hs⟩
  obtain ⟨values, hvalues⟩ := exists_reachedValues hcode s
  obtain ⟨m, hm⟩ := computeValues_returns_least S.wellFounded_above hcode h.scope h.seeds hv hground
    hs (fun c _ χ hχ => hχ.respects hpayloads) hvalues A.config.queueOrder
  obtain ⟨e, he, -⟩ := (hm (n + m) (Nat.le_add_left m n)).exists_ok fun _ => id
  have hconclude : conclude A σ (n + m) s₁ = .ok ⟨s.nodes, s.facts, e.values, { s.stats with
      valueJobs := e.jobs, valueWorklistPeak := e.queue.highWatermark }⟩ := by
    refine bind_eq_ok.2 ⟨_, hdrop, bind_eq_ok.2 ⟨values, hvalues, ?_⟩⟩
    rw [if_pos hv]
    exact bind_eq_ok.2 ⟨e, he, rfl⟩
  exact ⟨n + m, _, bind_eq_ok.2 ⟨s₀, hcreate,
    bind_eq_ok.2 ⟨s₁, hrun _ (Nat.le_add_right n m), hconclude⟩⟩⟩

end Bounded

end Tabulation
