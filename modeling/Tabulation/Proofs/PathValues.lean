import Tabulation.Proofs.MaskMap
import Tabulation.Proofs.Solver.Domain

/-!
# Values are those of paths

A run with values takes the value of a seed along each realizable path, and joins what arrives.

**Soundness.** If edge functions respect the order, the value of every path is below the value that
is reported where it ends, `below_valueAt`. A start point with predecessors is the exception: values
that come back to it from inside its procedure are not reported there.

**Precision.** If edge functions distribute over joins and no join was widened, every reported value
is the join of values of paths to that very fact and node, `valueAt_eq_joinAll`. In particular a
return site gets only values from its own call site.
-/

namespace Tabulation

variable {σ D L K : Type} [JoinLattice L] [Payload K L] [ValueCode σ L] {A : Analysis D L K}

/-- Nothing but the empty path leads to a start point without predecessors. -/
theorem Analysis.SameLevel.eq_start [DecidableEq D] {n p : String} {a d : D} {φ : L → L}
    (hg : A.graph.Consistent) (hpreds : A.graph.preds n = .ok []) (h : A.SameLevel p a n d φ) :
    A.graph.StartOf p n ∧ d = a ∧ φ = id := by
  have hnone : ∀ m, ¬ A.graph.Succ m n := fun m hm => by
    have := Supergraph.mem_preds hg hm hpreds
    cases this
  cases h with
  | start hs => exact ⟨hs, rfl, rfl⟩
  | inside _ he => exact absurd he.succ (hnone _)
  | across _ _ _ he => exact absurd he.succ (hnone _)

/-- When no value is on its way any more, what was received has arrived. -/
theorem Evaluation.Received.arrived {e : Evaluation σ L} (hempty : e.queue.toList = [])
    {n : NodeId} {i : FactId} {v : L} (hjob : e.Received ⟨n, i, v⟩) :
    e.Seen n i ∧ Below v (e.values.get n i) := by
  refine hjob.resolve_left fun hmem => ?_
  rw [hempty] at hmem
  cases hmem

variable [Ord D] [Ord L] [Ord K] {s : State D L K}

/-! ## Entries of procedures -/

/-- The numbers of the start point of a procedure and of an entry fact. -/
def AtEntry (A : Analysis D L K) (s : State D L K) (p : String) (a : D) (n : NodeId) (i : FactId) :
    Prop :=
  ∃ sp, A.graph.StartOf p sp ∧ s.HasNode n sp ∧ s.HasFact i a

theorem AtEntry.inj (hA : Setting A) {p q : String} {a b : D} {n : NodeId} {i : FactId}
    (h : AtEntry A s p a n i) (h' : AtEntry A s q b n i) : p = q ∧ a = b := by
  obtain ⟨sp, hsp, hn, hi⟩ := h
  obtain ⟨sp', hsp', hn', hi'⟩ := h'
  obtain rfl := Option.some.inj (hn.symm.trans hn')
  exact ⟨Except.ok.inj (((Supergraph.startOf_iff hA.graph).1 hsp).1.symm.trans
    ((Supergraph.startOf_iff hA.graph).1 hsp').1), Option.some.inj (hi.symm.trans hi')⟩

theorem StartPoint.startOf (hA : Setting A) {n : NodeId} {sp p : String} (h : StartPoint A s n)
    (hn : s.HasNode n sp) (hp : A.graph.procOf sp = .ok p) : A.graph.StartOf p sp := by
  obtain ⟨sp', q, hn', hq⟩ := h
  obtain rfl := Option.some.inj (hn.symm.trans hn')
  obtain rfl := Except.ok.inj (hp.symm.trans ((Supergraph.startOf_iff hA.graph).1 hq).1)
  exact hq

variable [DecidableEq D] [DecidableEq L]

theorem AtEntry.unique (hg : A.graph.Consistent) (hs : Complete A s) {p : String} {a : D}
    {n m : NodeId} {i j : FactId} (h : AtEntry A s p a n i) (h' : AtEntry A s p a m j) :
    n = m ∧ i = j := by
  obtain ⟨sp, hsp, hn, hi⟩ := h
  obtain ⟨sp', hsp', hm, hj⟩ := h'
  obtain rfl := hsp.unique hg hsp'
  exact ⟨congrArg NodeId.mk (Interner.get?_inj hs.nodes hn hm),
    congrArg FactId.mk (Interner.get?_inj hs.facts hi hj)⟩

/-- The value at a start point is the join of the values with which paths enter the procedure. -/
def JoinsEntries (A : Analysis D L K) (s : State D L K) (n : NodeId) (i : FactId) (v : L) : Prop :=
  ∃ p a us, AtEntry A s p a n i ∧ us ≠ [] ∧ v = joinAll us ∧ ∀ u ∈ us, ∃ cs, A.Enters cs p a u

theorem kept_joinsEntries (hA : Setting A) (hv : A.config.computeValues = true)
    (hdist : A.Distributive) (hs : Complete A s) (hp : Exactly A s) :
    Kept A s (JoinsEntries A s) where
  seeds job hjob := by
    have := hA.join hv
    obtain ⟨sp, a, hn, hi, hseed⟩ := hs.seeds job hjob
    obtain ⟨sp', p, hn', hsp⟩ := (Solver.kept_startPoint hA hv hs).seeds job hjob
    obtain rfl := Option.some.inj (hn.symm.trans hn')
    refine ⟨p, a, [job.value], ⟨sp, hsp, hn, hi⟩, by simp, (joinAll_singleton _).symm, ?_⟩
    intro u hu
    rw [List.mem_singleton.1 hu]
    exact ⟨[], .seed hseed hsp⟩
  join n i u v hu hv' := by
    have := hA.join hv
    obtain ⟨p, a, us, hn, hne, rfl, hus⟩ := hu
    obtain ⟨q, b, vs, hn', -, rfl, hvs⟩ := hv'
    obtain ⟨rfl, rfl⟩ := hn.inj hA hn'
    refine ⟨p, a, us ++ vs, hn, by simp [hne], (joinAll_append us vs).symm, fun w hw => ?_⟩
    exact (List.mem_append.1 hw).elim (hus w) (hvs w)
  sent n i v job hgood hsent := by
    have := hA.join hv
    obtain ⟨p, a, us, ⟨sp, hsp, hn, hi⟩, hne, rfl, hus⟩ := hgood
    obtain ⟨c, hc, site, caller, callee, source, entry, χ, hrec, rfl, ⟨sp', hn', hproc⟩,
      ⟨sq, hm, hsq⟩, hfact, hχ, hvalue⟩ := hsent
    obtain rfl := Option.some.inj (hn.symm.trans hn')
    obtain rfl := Except.ok.inj (((Supergraph.startOf_iff hA.graph).1 hsp).1.symm.trans hproc)
    obtain rfl := Option.some.inj (hi.symm.trans hrec.hasSource)
    obtain ⟨χ', hjoin, hχ'⟩ := (hp.records c hc _ _ _ _ _ hrec.hasSite hrec.hasSource
      hrec.hasCallee hrec.hasEntry hrec.procOf).2 (hA.valued hv)
    obtain rfl := hχ.unique hχ'
    obtain ⟨ws, hws, heq, hpaths⟩ := hjoin.apply_joinAll (fun _ h => h.distributes hdist) hne
    refine ⟨callee, entry, ws, ⟨sq, hsq, hm, hfact ▸ hrec.hasEntry⟩, hws, hvalue.trans heq,
      fun w hw => ?_⟩
    obtain ⟨ψ, u, hψ, hu, rfl⟩ := hpaths w hw
    obtain ⟨cs, henters⟩ := hus u hu
    cases hψ with
    | intro hlevel he => exact ⟨_, henters.call hlevel he hsq⟩

theorem Complete.valueAt_eq (hs : Complete A s) {r : Results σ D L} (hnodes : r.nodes = s.nodes)
    (hfacts : r.facts = s.facts) {n : String} {d : D} {k : NodeId} {j : FactId} (hk : s.HasNode k n)
    (hj : s.HasFact j d) : r.valueAt n d = r.values.get k j := by
  rw [State.HasNode, ← hnodes] at hk
  rw [State.HasFact, ← hfacts] at hj
  exact Results.valueAt_eq_get (hnodes ▸ hs.nodes) (hfacts ▸ hs.facts) hk hj

variable [LawfulCode σ L]

section Entries

variable {p q : String} {a b : D} {n m : NodeId}
  {i j : FactId} {Good : NodeId → FactId → L → Prop} {e : Evaluation σ L}

/-- A value at the start point of a caller arrives at the start point of the callee. -/
theorem Visited.arrives (hg : A.graph.Consistent) (hs : Complete A s) (h : Visited A s Good e)
    (hempty : e.queue.toList = []) {c : CallRecord} (hc : c ∈ s.ledger) {site : String}
    (hsite : s.HasNode c.site site) (hproc : A.graph.procOf site = .ok p)
    (hcallee : s.HasProc c.callee q) (hn : AtEntry A s p a n c.source)
    (hm : AtEntry A s q b m c.entry) (hseen : e.Seen n c.source) {χ : L → L}
    (hχ : s.store.Means c.edge χ) :
    e.Seen m c.entry ∧ Below (χ (e.values.get n c.source)) (e.values.get m c.entry) := by
  obtain ⟨site', caller, callee, source, entry, hrec⟩ := hs.records c hc
  obtain rfl := Option.some.inj (hsite.symm.trans hrec.hasSite)
  obtain rfl := Except.ok.inj (hproc.symm.trans hrec.procOf)
  obtain rfl := Option.some.inj (hcallee.symm.trans hrec.hasCallee)
  obtain ⟨sp, hsp, hn, -⟩ := hn
  obtain ⟨sq, hsq, hm, -⟩ := hm
  exact Evaluation.Received.arrived hempty (h.sent n c.source _ hseen
    ⟨c, hc, site, p, q, source, entry, χ, hrec, rfl,
      ⟨sp, hn, ((Supergraph.startOf_iff hg).1 hsp).1⟩, ⟨sq, hm, hsq⟩, rfl, hχ, rfl⟩)

/-- Everything that was entered was visited. -/
theorem Visited.seen_of_entered (hg : A.graph.Consistent) (hseeds : A.SeedsAtStarts)
    (hv : A.config.computeValues = true) (hs : Complete A s) (h : Visited A s Good e)
    (hempty : e.queue.toList = []) {p : String} {a : D} (hentered : Entered A s p a) :
    ∃ n i, AtEntry A s p a n i ∧ e.Seen n i := by
  induction hentered with
  | @seed p sp a u hseed hproc =>
    obtain ⟨⟨n, i, v⟩, hjob, hn, hi, -, -⟩ := hs.submitted _ _ _ hseed
    have hsp := (Supergraph.startOf_iff hg).2 ⟨hproc, hseeds _ hseed⟩
    exact ⟨n, i, ⟨sp, hsp, hn, hi⟩, ((h.seeds _ hjob).arrived hempty).1⟩
  | @call p q site sp a b t f _ hproc hpath he hsp ih =>
    obtain ⟨n, i, hn, hseen⟩ := ih
    obtain ⟨x, ψ, hsource, -, hx⟩ := hs.crossedAs hpath
    obtain ⟨c, hc, hcsource, hcsite, hcallee, hentry, -, m, _, _, hm, -⟩ := hx.enter q t f sp he hsp
    obtain ⟨_, _, _, _, _, hrec⟩ := hs.records c hc
    obtain ⟨χ, hχ⟩ := hrec.labelled hv
    have hcfact : s.HasFact c.source a := hcsource ▸ hsource
    obtain rfl : i = c.source := by
      obtain ⟨_, -, -, hi⟩ := hn
      exact congrArg FactId.mk (Interner.get?_inj hs.facts hi hcfact)
    have hat : AtEntry A s q t m c.entry := ⟨sp, hsp, hm, hentry⟩
    have hsite : s.HasNode c.site site := hcsite ▸ hx.hasNode
    exact ⟨m, c.entry, hat,
      (h.arrives hg hs hempty hc hsite hproc hcallee hn hat hseen hχ).1⟩

/-- A path that enters a procedure is covered by the value at its start point. -/
theorem Visited.entered (hA : Setting A) (hv : A.config.computeValues = true) (hmono : A.Monotone)
    (hs : Complete A s) (h : Visited A s Good e) (hempty : e.queue.toList = [])
    {cs : List (String × String)} {u : L} (hpath : A.Enters cs p a u) :
    ∃ n i, AtEntry A s p a n i ∧ StartCovered A s p i a ∧ e.Seen n i ∧
      Below u (e.values.get n i) := by
  have := hA.join hv
  induction hpath with
  | @seed p sp a u hseed hsp =>
    obtain ⟨⟨n, i, v⟩, hjob, hn, hi, rfl, hcov⟩ := hs.submitted _ _ _ hseed
    obtain ⟨hseen, hle⟩ := Evaluation.Received.arrived hempty (h.seeds _ hjob)
    refine ⟨n, i, ⟨sp, hsp, hn, hi⟩, ⟨hi, fun sp' hsp' => ?_⟩, hseen, hle⟩
    rw [hsp'.unique hA.graph hsp]
    exact hcov
  | @call cs p q site sq a b t u φ f _ hlevel he hsq ih =>
    obtain ⟨n, i, hn, hcov, hseen, hle⟩ := ih
    obtain ⟨c, hc, ψ, rfl, hsite, hcallee, hstart, hmeans⟩ :=
      hs.enter hA.scope (hs.covered hA.scope (fun _ => hmono) hlevel hcov) he hsq
    obtain ⟨hψ, hφψ⟩ := hmeans (hA.valued hv)
    obtain ⟨m, _, _, hm, -⟩ := hstart.2 sq hsq
    have hentry : AtEntry A s q t m c.entry := ⟨sq, hsq, hm, hstart.1⟩
    obtain ⟨hseen', hle'⟩ := h.arrives hA.graph hs hempty hc hsite (hlevel.procOf hA.graph)
      hcallee hn hentry hseen hψ
    refine ⟨m, c.entry, hentry, hstart, hseen', Below.trans ?_ hle'⟩
    exact hmono f he.edgeOf _ _ ((hlevel.respects hmono _ _ hle).trans (hφψ _))

end Entries

/-! ## Soundness -/

section Sound

variable {n p : String} {a d : D} {φ : L → L}

/-- A node where all values that arrive are reported. -/
def Reports (g : Supergraph) (n : String) : Prop := g.isStart n ≠ .ok true ∨ g.preds n = .ok []

/-- The value of a path is below the value in the table. -/
theorem Accumulates.below_of_path {Good : NodeId → FactId → L → Prop} {e : Evaluation σ L}
    {t : ValueTable σ L} (hA : Setting A) (hv : A.config.computeValues = true)
    (hmono : A.Monotone) (hs : Complete A s) (h : Visited A s Good e)
    (hempty : e.queue.toList = [])
    (hacc : Accumulates A s e.values
      (fun n d v => ∃ start a, e.Seen start a ∧ Feeds A s e.values start n d v) t)
    {cs : List (String × String)} {u : L} (henters : A.Enters cs p a u)
    (hlevel : A.SameLevel p a n d φ) (hn : Reports A.graph n) :
    ∃ k j, s.HasNode k n ∧ s.HasFact j d ∧ Below (φ u) (t.get k j) := by
  have := hA.join hv
  obtain ⟨m, i, ⟨sp, hsp, hm, hi⟩, hcov, hseen, hle⟩ := h.entered hA hv hmono hs hempty henters
  obtain ⟨hproc, hstart⟩ := (Supergraph.startOf_iff hA.graph).1 hsp
  rcases hn with hn | hn
  · obtain ⟨k, j, ef, hk, hj, hef, hlabel⟩ := hs.covered hA.scope (fun _ => hmono) hlevel hcov
    obtain ⟨ψ, hψ, hφψ⟩ := hlabel (hA.valued hv)
    refine ⟨k, j, hk, hj, ?_⟩
    have hne : n ≠ sp := by
      rintro rfl
      exact hn hstart
    have hfed := hacc.below k j _ ⟨m, i, hseen, sp, p, n, i, ef, ψ, hm, hproc, hk,
      hlevel.procOf hA.graph, hne, hef, hψ, rfl⟩
    exact ((hlevel.respects hmono _ _ hle).trans (hφψ _)).trans hfed
  · obtain ⟨hsn, rfl, rfl⟩ := hlevel.eq_start hA.graph hn
    obtain rfl := hsn.unique hA.graph hsp
    refine ⟨m, i, hm, hi, ?_⟩
    rw [hacc.starts m i ⟨n, p, hm, hsp⟩]
    exact hle

end Sound

/-- Where labels are exact, values are joins of values of paths. -/
theorem Accumulates.joinAll_of_path {e : Evaluation σ L} {t : ValueTable σ L} (hA : Setting A)
    (hv : A.config.computeValues = true) (hdist : A.Distributive) (hs : Complete A s)
    (hp : Exactly A s)
    (h : Visited A s (fun n d v => JoinsEntries A s n d v ∧ StartPoint A s n) e)
    (hempty : e.queue.toList = [])
    (hacc : Accumulates A s e.values
      (fun n d v => ∃ start a, e.Seen start a ∧ Feeds A s e.values start n d v) t)
    {k : NodeId} {j : FactId} {n : String} {d : D} (hk : s.HasNode k n) (hj : s.HasFact j d) :
    ∃ vs, t.get k j = joinAll vs ∧ ∀ v ∈ vs, A.Realizable n d v := by
  have := hA.join hv
  have hmono : A.Monotone := fun f hf => (hdist f hf).respects
  obtain ⟨vs, heq, hvs⟩ := hacc.join k j
  have hvisit : ∃ us, e.values.get k j = joinAll us ∧ ∀ u ∈ us, A.Realizable n d u := by
    by_cases hseen : e.Seen k j
    · obtain ⟨⟨p, a, us, ⟨sp, hsp, hn, hi⟩, -, hus, hentry⟩, -⟩ := h.seen k j hseen
      obtain rfl := Option.some.inj (hn.symm.trans hk)
      obtain rfl := Option.some.inj (hi.symm.trans hj)
      refine ⟨us, hus, fun u hu => ?_⟩
      obtain ⟨cs, henters⟩ := hentry u hu
      exact (Analysis.realizable_iff hp.seeds hA.graph).2
        ⟨cs, p, a, u, id, henters, .start hsp, rfl⟩
    · exact ⟨[], h.unseen k j hseen, fun u hu => absurd hu List.not_mem_nil⟩
  have hfed : ∀ v ∈ vs, ∃ ws, v = joinAll ws ∧ ∀ w ∈ ws, A.Realizable n d w := by
    intro v hv'
    obtain ⟨start, _, hstart, sp, p, node, i, ef, φ, hsp, hproc, hn, hnproc, -, hef, hφ, rfl⟩ :=
      hvs v hv'
    obtain rfl := Option.some.inj (hn.symm.trans hk)
    obtain ⟨_, _, _, a, _, hpath⟩ := hs.paths k i j ef hef
    obtain rfl := Option.some.inj (hpath.hasNode.symm.trans hn)
    obtain rfl := Except.ok.inj (hpath.procOf.symm.trans hnproc)
    have hi := hpath.hasSource
    obtain ⟨ψ, hjoin, hψ⟩ :=
      (hp.paths k i j ef _ _ _ _ hef hn hi hj hnproc).2 (hA.valued hv)
    obtain rfl := hφ.unique hψ
    -- The source of a path edge was seen at the start point of its procedure.
    obtain ⟨cs, u, henters⟩ := hpath.entered.enters hA.scope hp
    obtain ⟨m, i', hentry, -, hseen, -⟩ := h.entered hA hv hmono hs hempty henters
    obtain ⟨rfl, rfl⟩ := hentry.unique hA.graph hs
      ⟨sp, (h.seen _ _ hstart).2.startOf hA hsp hproc, hsp, hi⟩
    obtain ⟨⟨q, b, us, hentry', hne, heq', hus⟩, -⟩ := h.seen m i' hseen
    obtain ⟨rfl, rfl⟩ := hentry.inj hA hentry'
    obtain ⟨ws, -, hws, hpaths⟩ := hjoin.apply_joinAll (fun _ h => h.distributes hdist) hne
    refine ⟨ws, by rw [heq', hws], fun w hw => ?_⟩
    obtain ⟨ψ, u', hlevel, hu', rfl⟩ := hpaths w hw
    obtain ⟨cs', henters'⟩ := hus u' hu'
    exact (Analysis.realizable_iff hp.seeds hA.graph).2 ⟨cs', _, a, u', ψ, henters', hlevel, rfl⟩
  obtain ⟨us, hus, hpaths⟩ := hvisit
  obtain ⟨ws, hws, hpaths'⟩ := exists_joinAll hfed
  refine ⟨us ++ ws, ?_, fun w hw => (List.mem_append.1 hw).elim (hpaths w) (hpaths' w)⟩
  rw [heq, hus, hws, joinAll_append]

variable [Std.TransOrd D] [Std.LawfulEqOrd D]

/-- The value of every path is below the reported value. -/
theorem below_valueAt (A : Analysis D L K) (hgraph : A.graph.Built) (hseeds : A.SeedsAtStarts)
    (hv : A.config.computeValues = true)
    (hgc : A.config.gcMode = .disabled ∨ A.config.gcMode = .enabled) (hlaws : LawfulLabels L K)
    (hmono : A.Monotone) {steps : Nat} {r : Results σ D L} (hsolve : Solver.solve A σ steps = .ok r)
    {n : String} {d : D} {v : L} (hpath : A.Realizable n d v) (hn : Reports A.graph n) :
    Below v (r.valueAt n d) := by
  have hA : Setting A := ⟨hgraph.consistent, fun _ => hseeds,
    hgc.imp_right fun h => ⟨h, hv⟩, fun _ => hlaws⟩
  have := hA.join hv
  obtain ⟨s, hends, hnodes, hfacts, -, hspec⟩ := Solver.solve_valued_spec hA hv hsolve
  have hs := hends.complete hA.scope
  obtain ⟨e, hempty, hvisited, hacc⟩ := hspec _ (Solver.kept_startPoint hA hv hs)
  obtain ⟨cs, p, a, u, φ, henters, hlevel, rfl⟩ := hpath.split hseeds hA.graph
  obtain ⟨k, j, hk, hj, hle⟩ :=
    hacc.below_of_path hA hv hmono hs hvisited hempty henters hlevel hn
  rw [hs.valueAt_eq hnodes hfacts hk hj]
  exact hle

namespace TwoCalls

/-- `main` calls a procedure at each of its first two nodes. -/
def graph : Except Fault Supergraph := Supergraph.ofSteps
  [.proc "main" ["a", "b", "c"], .chain ["a", "b", "c"], .proc "p" ["s", "e"], .edge "s" "e",
   .call "a" "p", .call "b" "p"]

/-- The procedure shifts the value of the fact that it is called with. -/
def problem : Problem Nat Mask MaskMap where
  zero := 0
  seeds := Seeds.empty.add "a" 1 ⟨1⟩
  normalFlow _ _ := .identity
  callFlow _ _ := .identity
  returnFlow _ _ _ _ := .identity
  bypassFlow _ _ _ := .killAll
  normalEdge _ _ _ _ := .custom (.shiftLeft 1)

def analysis (g : Supergraph) : Analysis Nat Mask MaskMap := ⟨problem, g, {}⟩

theorem seedsAtStarts {g : Supergraph} (h : g.isStart "a" = .ok true) :
    (analysis g).SeedsAtStarts := by
  intro x hx
  obtain rfl := List.mem_singleton.1 hx
  exact h

theorem mem_targets (g : Supergraph) : 1 ∈ (analysis g).targets .identity 1 := by
  show 1 ∈ (analysis .empty).targets .identity 1
  decide

end TwoCalls

/-- The first call takes the value 1 into the procedure, where it is shifted. -/
theorem below_valueAt_twoCalls :
    ∃ g r, TwoCalls.graph = .ok g ∧
      Solver.solve (TwoCalls.analysis g) (Verbatim Mask) 40 = .ok r ∧
      Below ⟨2⟩ (r.valueAt "e" 1) := by
  have hrun : (do
      let g ← TwoCalls.graph
      let r ← Solver.solve (TwoCalls.analysis g) (Verbatim Mask) 40
      return (r.entries.length, g.isStart "a", g.callees "a", g.startPoints "p", g.isCallSite "s",
        g.succs "s", g.isStart "e")) =
      .ok (5, .ok true, .ok ["p"], .ok ["s"], .ok false, .ok ["e"], .ok false) := by
    set_option synthInstance.maxSize 1024 in
    decide +kernel
  simp only [bind_eq_ok, pure_eq_ok, Prod.mk.injEq] at hrun
  obtain ⟨g, hg, r, hr, -, hstart, hcallees, hstarts, hno, hsuccs, hend⟩ := hrun
  refine ⟨g, r, hg, hr, below_valueAt (TwoCalls.analysis g) (.ofSteps hg)
    (TwoCalls.seedsAtStarts hstart) rfl (.inl rfl) Mask.lawfulLabels (Mask.monotone _) hr ?_ ?_⟩
  · have hcall : (TwoCalls.analysis g).Step ⟨[], "a", 1, ⟨1⟩⟩ ⟨[("a", "p")], "s", 1, ⟨1⟩⟩ :=
      .call (.intro ⟨["p"], hcallees, by decide⟩ rfl (TwoCalls.mem_targets g))
        ⟨["s"], hstarts, by decide⟩
    have hshift : (TwoCalls.analysis g).Step ⟨[("a", "p")], "s", 1, ⟨1⟩⟩
        ⟨[("a", "p")], "e", 1, ⟨2⟩⟩ :=
      .inside (.normal hno ⟨["e"], hsuccs, by decide⟩ (TwoCalls.mem_targets g))
    exact ⟨"a", 1, ⟨1⟩, _, List.mem_singleton.2 rfl,
      (Relation.ReflTransGen.single hcall).tail hshift⟩
  · refine .inl fun h => ?_
    rw [show (TwoCalls.analysis g).graph = g from rfl, hend] at h
    cases h

/-! ## Precision -/

/-- Every reported value is the join of values of paths. -/
theorem valueAt_eq_joinAll (A : Analysis D L K) (hgraph : A.graph.Built) (hseeds : A.SeedsAtStarts)
    (hv : A.config.computeValues = true) (hgc : A.config.gcMode = .disabled) (hexits : A.Sealed)
    (hlaws : LawfulLabels L K) (hdist : A.Distributive) {steps : Nat} {r : Results σ D L}
    (hsolve : Solver.solve A σ steps = .ok r) (hlimit : r.stats.edgesInterned < A.config.joinLimit)
    (n : String) (d : D) :
    ∃ vs, r.valueAt n d = joinAll vs ∧ ∀ v ∈ vs, A.Realizable n d v := by
  have hA : Setting A := ⟨hgraph.consistent, fun _ => hseeds, .inl hgc, fun _ => hlaws⟩
  have := hA.join hv
  obtain ⟨s, hends, hnodes, hfacts, hdefault, hspec⟩ := Solver.solve_valued_spec hA hv hsolve
  have hs := hends.complete hA.scope
  have hp := hends.exactly hA.scope hseeds hexits fun _ =>
    ⟨hdist, hgc, Solver.solve_unwidened hA hv hsolve hlimit⟩
  obtain ⟨e, hempty, hvisited, hacc⟩ := hspec _ (kept_joinsEntries hA hv hdist hs hp)
  rcases Results.valueAt_cases (hnodes ▸ hs.nodes) (hfacts ▸ hs.facts) n d with
    ⟨k, j, hk, hj, heq⟩ | heq
  · rw [heq]
    rw [hnodes] at hk
    rw [hfacts] at hj
    exact hacc.joinAll_of_path hA hv hdist hs hp hvisited hempty hk hj
  · exact ⟨[], heq.trans hdefault, fun v hv => absurd hv List.not_mem_nil⟩

/-- The exit point of the procedure gets the values of both calls. Each call returns only its
own. -/
theorem valueAt_eq_joinAll_twoCalls :
    ∃ g r, TwoCalls.graph = .ok g ∧
      Solver.solve (TwoCalls.analysis g) (Verbatim Mask) 40 = .ok r ∧ r.valueAt "e" 1 = ⟨6⟩ ∧
      ∃ vs, ⟨4⟩ = joinAll vs ∧ ∀ v ∈ vs, (TwoCalls.analysis g).Realizable "c" 1 v := by
  have hrun : (do
      let g ← TwoCalls.graph
      let r ← Solver.solve (TwoCalls.analysis g) (Verbatim Mask) 40
      return (g.isStart "a", r.stats.edgesInterned, r.valueAt "e" 1, r.valueAt "c" 1)) =
      .ok (.ok true, 2, ⟨6⟩, ⟨4⟩) := by
    decide +kernel
  simp only [bind_eq_ok, pure_eq_ok, Prod.mk.injEq] at hrun
  obtain ⟨g, hg, r, hr, hstart, hinterned, he, hc⟩ := hrun
  refine ⟨g, r, hg, hr, he, hc ▸ ?_⟩
  exact valueAt_eq_joinAll (TwoCalls.analysis g) (.ofSteps hg)
    (TwoCalls.seedsAtStarts hstart) rfl rfl (.inl rfl) Mask.lawfulLabels (Mask.distributive _) hr
    (hinterned ▸ (by decide : 2 < 8)) "c" 1

end Tabulation
