import Tabulation.Proofs.Derivation
import Tabulation.Proofs.PathValues
import Tabulation.Proofs.Solver.Erasure

/-!
# Values of reachability problems

A reachability problem can be solved with values: a fact that holds has the value bottom, and all
others have the value top. This gives the same answer as a run without values,
`valueAt_eq_bottom_iff`, except at start points. There a value is bottom if and only if a path
enters the procedure with the fact; facts that come back to the start point along an edge from
inside the procedure are reached, but get no value.
-/

namespace Tabulation

theorem Binary.lawfulLabels : LawfulLabels Binary NoPayload :=
  ⟨inferInstance, inferInstance, inferInstance, inferInstance, inferInstance, inferInstance⟩

theorem Binary.eq_bottom_of_below {v : Binary} (h : Below .bottom v) : v = .bottom := by
  cases v
  · rfl
  · cases h

variable {D : Type}

/-- A fact with another value than the default has an entry. -/
theorem Results.exists_entry_of_ne {σ L : Type} [ValueCode σ L] [Ord D] {r : Results σ D L}
    (hn : r.nodes.Wf) (hd : r.facts.Wf) {n : String} {d : D}
    (h : r.valueAt n d ≠ r.values.default) : ∃ v, (n, d, v) ∈ r.entries := by
  obtain ⟨i, j, hi, hj, heq⟩ := (valueAt_cases hn hd n d).resolve_right h
  cases hfind : r.values.find? ⟨i⟩ ⟨j⟩ with
  | none => exact absurd (heq.trans (by rw [ValueTable.get_eq, hfind]; rfl)) h
  | some v => exact ⟨v, mem_entries.2 ⟨i, j, hi, hj, hfind⟩⟩

/-- The analysis that solves a reachability problem, with or without values. -/
def ReachabilityProblem.analysis (p : ReachabilityProblem D) (g : Supergraph) (config : Config)
    (computeValues : Bool) : Analysis D Binary NoPayload :=
  ⟨p.toProblem, g, { config with computeValues }⟩

variable {p : ReachabilityProblem D} {g : Supergraph} {config : Config} {b : Bool}

theorem ReachabilityProblem.apply_eq {e : EdgeFunction Binary NoPayload}
    (h : (p.analysis g config b).EdgeOf e) : e.apply = id := by
  cases h <;> rfl

theorem ReachabilityProblem.monotone : (p.analysis g config b).Monotone := fun e he v w hle => by
  rw [apply_eq he]
  exact hle

theorem ReachabilityProblem.bare (hgc : config.gcMode = .disabled) :
    (p.analysis g config true).Bare :=
  ⟨rfl, hgc, fun e he => by cases he <;> rfl⟩

variable [DecidableEq D]

theorem ReachabilityProblem.sameLevel_eq_id {q n : String} {a d : D} {φ : Binary → Binary}
    (h : (p.analysis g config b).SameLevel q a n d φ) : φ = id := by
  induction h with
  | start _ => rfl
  | inside _ he ih => rw [ih, apply_eq he.edgeOf, Function.comp_id]
  | across _ he _ he' ih ih' =>
    simp only [ih, ih', apply_eq he.edgeOf, apply_eq he'.edgeOf, Function.comp_id]

theorem ReachabilityProblem.enters_eq_bottom (hbottom : ∀ x ∈ p.seeds.toList, x.2.2 = .bottom)
    {cs : List (String × String)} {q : String} {a : D} {u : Binary}
    (h : (p.analysis g config b).Enters cs q a u) : u = .bottom := by
  induction h with
  | seed hseed _ => exact hbottom _ hseed
  | call _ hlevel he _ ih =>
    rw [apply_eq he.edgeOf, sameLevel_eq_id hlevel]
    exact ih

variable [Ord D]

/-- If callees are sealed, values arrive at start points along paths. -/
theorem kept_enters {L K : Type} [Ord L] [Ord K] [JoinLattice L] [Payload K L] [DecidableEq L]
    {A : Analysis D L K} {s : State D L K} (hA : Setting A) (hseeds : A.SeedsAtStarts)
    (hs : Complete A s) : Kept A s fun n i _ =>
      A.Sealed → ∃ p a cs u, AtEntry A s p a n i ∧ A.Enters cs p a u where
  seeds job hjob _ := by
    obtain ⟨sp, a, hn, hi, hseed⟩ := hs.seeds job hjob
    obtain ⟨p, hsp⟩ := Supergraph.exists_startOf hA.graph (hseeds _ hseed)
    exact ⟨p, a, [], job.value, ⟨sp, hsp, hn, hi⟩, .seed hseed hsp⟩
  join _ _ _ _ hu _ := hu
  sent n d v job _ hsent hsealed := by
    obtain ⟨c, -, site, caller, callee, source, entry, _, hrec, -, -, ⟨sp, hn, hsp⟩, hfact, -⟩ :=
      hsent
    obtain ⟨b, e, -, he, hderives⟩ := hrec.enter
    obtain ⟨cs, u, φ, henters, hlevel⟩ := (hderives hsealed).exists_path hseeds hA.graph
    exact ⟨callee, entry, _, _, ⟨sp, hsp, hn, hfact ▸ hrec.hasEntry⟩, henters.call hlevel he hsp⟩

/-- Calls hand on the value bottom. -/
theorem ReachabilityProblem.kept_bottom {s : State D Binary NoPayload}
    (hbottom : ∀ x ∈ p.seeds.toList, x.2.2 = .bottom)
    (hs : Complete (p.analysis g config true) s)
    (hrecords : ∀ c ∈ s.ledger.records, c.edge = .identity) :
    Kept (p.analysis g config true) s fun _ _ v => v = .bottom where
  seeds job hjob := by
    obtain ⟨sp, a, -, -, hseed⟩ := hs.seeds job hjob
    exact hbottom _ hseed
  join _ _ u v hu hv := by
    rw [hu, hv]
    rfl
  sent n d v job hv hsent := by
    obtain ⟨c, hc, _, _, _, _, _, χ, -, -, -, -, -, hχ, hvalue⟩ := hsent
    have hid := hrecords c (Array.mem_toList_iff.1 ((hs.ledger.known c).1 hc))
    rw [hid] at hχ
    rw [hvalue, hχ.unique hs.regular.means_identity, hv]
    rfl

variable {σ : Type} [ValueCode σ Binary] [LawfulCode σ Binary]

/-- Path edges hand on the value bottom. -/
theorem ReachabilityProblem.bottom_of_hasPath {s : State D Binary NoPayload}
    (hA : Setting (p.analysis g config true)) (hseeds : (p.analysis g config true).SeedsAtStarts)
    (hs : Complete (p.analysis g config true) s)
    (hlabels : ∀ m a b ef, s.paths.get? m a b = some ef → ef = .identity)
    {Good : NodeId → FactId → Binary → Prop} {e : Evaluation σ Binary} {t : ValueTable σ Binary}
    (h : Visited (p.analysis g config true) s Good e)
    (hbottom : ∀ n d, e.Seen n d → e.values.get n d = .bottom) (hempty : e.queue.toList = [])
    (hacc : Accumulates (p.analysis g config true) s e.values (fun n d v => ∃ start a,
      e.Seen start a ∧ Feeds (p.analysis g config true) s e.values start n d v) t)
    {n : String} {a d : D} (hpath : s.HasPath n a d) (hn : Reports g n) :
    ∃ k j, s.HasNode k n ∧ s.HasFact j d ∧ t.get k j = .bottom := by
  obtain ⟨k, i, j, ef, hk, hi, hj, hef⟩ := hpath
  obtain rfl := hlabels _ _ _ _ hef
  obtain ⟨_, node, q, source, target, hpath⟩ := hs.paths _ _ _ _ hef
  obtain rfl := Option.some.inj (hk.symm.trans hpath.hasNode)
  obtain rfl := Option.some.inj (hi.symm.trans hpath.hasSource)
  obtain rfl := Option.some.inj (hj.symm.trans hpath.hasTarget)
  refine ⟨k, j, hk, hj, ?_⟩
  -- The value bottom has arrived at the start point with the source of the path edge.
  obtain ⟨m, i', ⟨sp, hsp, hm, hi'⟩, hseen⟩ :=
    h.seen_of_entered hA.graph hseeds rfl hs hempty hpath.entered
  obtain ⟨hproc, hstart⟩ := (Supergraph.startOf_iff hA.graph).1 hsp
  obtain rfl : i' = i := congrArg FactId.mk (Interner.get?_inj hs.facts hi' hi)
  by_cases hnsp : n = sp
  · subst hnsp
    obtain rfl := hpath.origin.resolve_right fun ⟨_, hsucc⟩ => List.not_mem_nil
      (Supergraph.mem_preds hA.graph hsucc (hn.resolve_left (not_not.2 hstart)))
    obtain rfl : j = i' := congrArg FactId.mk (Interner.get?_inj hs.facts hj hi)
    obtain rfl : k = m := congrArg NodeId.mk (Interner.get?_inj hs.nodes hk hm)
    rw [hacc.starts _ _ ⟨n, q, hk, hsp⟩, hbottom _ _ hseen]
  · exact Binary.eq_bottom_of_below (hacc.below k j _ ⟨m, i', hseen, sp, q, n, i', .identity, id,
      hm, hproc, hk, hpath.procOf, hnsp, hef, hs.regular.means_identity, (hbottom _ _ hseen).symm⟩)

variable [Std.TransOrd D] [Std.LawfulEqOrd D]

/-- Solving a reachability problem with values finds what solving it without values finds, and
everything of it except at start points. There it finds the facts with which paths enter the
procedure. -/
theorem valueAt_eq_bottom_iff (p : ReachabilityProblem D) (g : Supergraph) (config : Config)
    (hgraph : g.Built) (hseeds : (p.analysis g config true).SeedsAtStarts)
    (hbottom : ∀ x ∈ p.seeds.toList, x.2.2 = .bottom) (hgc : config.gcMode = .disabled)
    {steps steps' : Nat} {r r' : Results σ D Binary}
    (hr : Solver.solve (p.analysis g config true) σ steps = .ok r)
    (hr' : Solver.solve (p.analysis g config false) σ steps' = .ok r') (n : String) (d : D) :
    (r.valueAt n d = .bottom → ∃ v, (n, d, v) ∈ r'.entries) ∧
      (Reports g n → (∃ v, (n, d, v) ∈ r'.entries) → r.valueAt n d = .bottom) ∧
      ∀ q, g.StartOf q n →
        ((∃ cs u, (p.analysis g config true).Enters cs q d u) → r.valueAt n d = .bottom) ∧
        ((p.analysis g config true).Sealed → r.valueAt n d = .bottom →
          ∃ cs u, (p.analysis g config true).Enters cs q d u) := by
  have hA : Setting (p.analysis g config true) :=
    ⟨hgraph.consistent, fun _ => hseeds, .inl hgc, fun _ => Binary.lawfulLabels⟩
  have hB : Setting (p.analysis g config false) := .plain hgraph rfl hgc
  obtain ⟨s, hends, hnodes, hfacts, hdefault, hspec⟩ := Solver.solve_valued_spec hA rfl hr
  have hs := hends.complete hA.scope
  obtain ⟨_, hends₁, hentries⟩ := Solver.exists_hasPath_iff hA.scope hr
  obtain rfl := hends.unique hends₁
  -- The run without values has the same path edges.
  obtain ⟨s', hends', hentries'⟩ := Solver.exists_hasPath_iff hB.scope hr'
  obtain ⟨⟨hnodes', hfacts', hpaths'⟩, hlabels, hrecords⟩ :=
    hends.plain (ReachabilityProblem.bare hgc) hends'
  have hsame : ∀ a, s'.HasPath n a d ↔ s.HasPath n a d := fun a => by
    unfold State.HasPath State.HasNode State.HasFact
    rw [hnodes', hfacts', hpaths']
  simp only [hentries', hsame]
  obtain ⟨e, hempty, hvisited, hacc⟩ := hspec _ ((ReachabilityProblem.kept_bottom hbottom hs
    hrecords).and (kept_enters hA hseeds hs))
  refine ⟨fun hv => ?_, ?_, fun q hq => ⟨?_, fun hsealed hv => ?_⟩⟩
  · -- A value other than top belongs to an entry.
    rw [← hentries]
    exact Results.exists_entry_of_ne (hnodes ▸ hs.nodes) (hfacts ▸ hs.facts)
      (by rw [hv, hdefault]; decide)
  · rintro hn ⟨a, hpath⟩
    obtain ⟨k, j, hk, hj, hvalue⟩ := ReachabilityProblem.bottom_of_hasPath hA hseeds hs hlabels
      hvisited (fun _ _ hseen => (hvisited.seen _ _ hseen).1.1) hempty hacc hpath hn
    rw [hs.valueAt_eq hnodes hfacts hk hj, hvalue]
  · rintro ⟨cs, u, henters⟩
    obtain ⟨k, j, ⟨sp, hsp, hk, hj⟩, -, -, hle⟩ :=
      hvisited.entered hA rfl ReachabilityProblem.monotone hs hempty henters
    obtain rfl := hsp.unique hA.graph hq
    rw [hs.valueAt_eq hnodes hfacts hk hj, hacc.starts _ _ ⟨sp, q, hk, hsp⟩]
    rw [ReachabilityProblem.enters_eq_bottom hbottom henters] at hle
    exact Binary.eq_bottom_of_below hle
  · obtain ⟨i, j, hi, hj, heq⟩ := (Results.valueAt_cases (hnodes ▸ hs.nodes) (hfacts ▸ hs.facts) n
      d).resolve_right (by rw [hv, hdefault]; decide)
    rw [hnodes] at hi
    rw [hfacts] at hj
    rw [heq, hacc.starts _ _ ⟨n, q, hi, hq⟩] at hv
    have hseen : e.Seen ⟨i⟩ ⟨j⟩ := by
      by_contra hunseen
      rw [hvisited.unseen _ _ hunseen] at hv
      cases hv
    obtain ⟨⟨-, hentered⟩, -⟩ := hvisited.seen _ _ hseen
    obtain ⟨q', a, cs, u, hentry, henters⟩ := hentered hsealed
    obtain ⟨rfl, rfl⟩ := hentry.inj hA ⟨n, hq, hi, hj⟩
    exact ⟨cs, u, henters⟩

namespace Loop

/-- A loop through the start point. -/
def graph : Except Fault Supergraph := Supergraph.ofSteps
  [.proc "main" ["a", "b"], .chain ["a", "b", "a"]]

/-- Going round the loop generates fact 1. -/
def problem : ReachabilityProblem Nat where
  zero := 0
  seeds := Seeds.empty.addFact "a" 0
  normalFlow node _ := if node = "b" then .gen 0 [1] else .identity
  callFlow _ _ := .identity
  returnFlow _ _ _ _ := .identity
  bypassFlow _ _ _ := .killAll

end Loop

/-- Fact 1 holds inside the loop, but no path enters the procedure with it. -/
theorem valueAt_eq_bottom_iff_loop :
    ∃ g r r', Loop.graph = .ok g ∧
      Solver.solve (Loop.problem.analysis g {} true) (Verbatim Binary) 40 = .ok r ∧
      Solver.solve (Loop.problem.analysis g {} false) (Verbatim Binary) 40 = .ok r' ∧
      r.valueAt "b" 1 = .bottom ∧
      ¬ ∃ cs u, (Loop.problem.analysis g {} true).Enters cs "main" 1 u := by
  have hrun : (do
      let g ← Loop.graph
      let r ← Solver.solve (Loop.problem.analysis g {} true) (Verbatim Binary) 40
      let r' ← Solver.solve (Loop.problem.analysis g {} false) (Verbatim Binary) 40
      return (g.isStart "a", g.isStart "b", g.startPoints "main", r.valueAt "a" 1,
        r'.entries.map fun x : String × Nat × Binary => (x.1, x.2.1))) =
      .ok (.ok true, .ok false, .ok ["a"], .top, [("a", 0), ("a", 1), ("b", 0), ("b", 1)]) := by
    set_option synthInstance.maxSize 1024 in
    decide +kernel
  simp only [bind_eq_ok, pure_eq_ok, Prod.mk.injEq] at hrun
  obtain ⟨g, hg, r, hr, r', hr', ha, hb, hstart, htop, hkeys⟩ := hrun
  have hseeds : (Loop.problem.analysis g {} true).SeedsAtStarts := by
    intro x hx
    obtain rfl := List.mem_singleton.1 hx
    exact ha
  have hiff := valueAt_eq_bottom_iff Loop.problem g {} (.ofSteps hg) hseeds
    (fun x hx => by obtain rfl := List.mem_singleton.1 hx; rfl) rfl hr hr'
  refine ⟨g, r, r', hg, hr, hr', (hiff "b" 1).2.1 (.inl (by simp [hb])) ?_, fun h => ?_⟩
  · rw [← mem_keys, hkeys]
    decide
  · have := ((hiff "a" 1).2.2 "main" ⟨["a"], hstart, by decide⟩).1 h
    rw [htop] at this
    cases this

/-- What comes back to the start point is reached without values and has no value. -/
theorem valueAt_startPoint_loop :
    ∃ g r r', Loop.graph = .ok g ∧
      Solver.solve (Loop.problem.analysis g {} true) (Verbatim Binary) 40 = .ok r ∧
      Solver.solve (Loop.problem.analysis g {} false) (Verbatim Binary) 40 = .ok r' ∧
      r.valueAt "a" 1 = .top ∧ ∃ v, ("a", 1, v) ∈ r'.entries := by
  have hrun : (do
      let g ← Loop.graph
      let r ← Solver.solve (Loop.problem.analysis g {} true) (Verbatim Binary) 40
      let r' ← Solver.solve (Loop.problem.analysis g {} false) (Verbatim Binary) 40
      return (r.valueAt "a" 1, r'.entries.map fun x : String × Nat × Binary => (x.1, x.2.1))) =
      .ok (.top, [("a", 0), ("a", 1), ("b", 0), ("b", 1)]) := by
    decide +kernel
  simp only [bind_eq_ok, pure_eq_ok, Prod.mk.injEq] at hrun
  obtain ⟨g, hg, r, hr, r', hr', htop, hkeys⟩ := hrun
  refine ⟨g, r, r', hg, hr, hr', htop, ?_⟩
  rw [← mem_keys, hkeys]
  decide

end Tabulation
