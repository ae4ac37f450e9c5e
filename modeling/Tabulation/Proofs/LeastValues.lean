import Tabulation.Proofs.LiveHandles
import Tabulation.Proofs.PathValues
import Tabulation.Proofs.PlainRuns
import Tabulation.Proofs.Scale

/-!
# The second phase computes least values

The second phase reads the path edges and the linked calls that the first phase left, whatever they
are.

**Start points.** A *solution* assigns values to facts at start points that cover the seeds and what
linked calls make of the values at their callers. The values of the second phase are the least
solution, so the order in which pending values are taken does not show in them.

**Other nodes.** There the value of a fact is the join of all path edges that lead to it, each
applied to the least value of its source.

**Termination.** A visit that forwards anything finds a new fact at a start point or raises a value.
If values cannot rise for ever, neither can all values together, since there are finitely many
numbers.

Main result: `computeValues_least`.
-/

namespace Tabulation

/-! ## Rising values -/

section Rising

variable {L : Type} [JoinLattice L] [LawfulJoin L]

/-- Values ordered by how much they cover. -/
abbrev belowOrder : PartialOrder L where
  le := Below
  le_refl := Below.refl
  le_trans _ _ _ := Below.trans
  le_antisymm _ _ := Below.antisymm

/-- One entry more, or a value that covers more, at finitely many places. -/
def Rises {ι : Type} (f g : ι → WithBot L) : Prop :=
  let _ : PartialOrder L := belowOrder
  f < g

theorem wellFounded_rises {ι : Type} [Finite ι]
    (hchains : WellFounded fun u v : L => StrictlyBelow v u) :
    WellFounded fun f g : ι → WithBot L => Rises g f := by
  let _ : PartialOrder L := belowOrder
  have hrise : WellFoundedGT L :=
    ⟨Subrelation.wf (fun {u v : L} (h : v < u) => ⟨h.le, h.ne⟩) hchains⟩
  exact (inferInstance : WellFoundedLT (ι → (WithBot L)ᵒᵈ)).wf

theorem rises_update {ι : Type} [DecidableEq ι] {f : ι → WithBot L} {i : ι} {v : L}
    (h : f i = ⊥ ∨ ∃ u : L, f i = u ∧ StrictlyBelow u v) : Rises f (Function.update f i v) := by
  let _ : PartialOrder L := belowOrder
  have hi : f i < v := by
    rcases h with h | ⟨u, h, hbelow, hne⟩
    · rw [h]
      exact WithBot.bot_lt_coe v
    · rw [h]
      exact WithBot.coe_lt_coe.2 (lt_of_le_of_ne hbelow hne)
  show f < Function.update f i v
  rw [Pi.lt_def]
  refine ⟨fun j => ?_, i, ?_⟩
  · by_cases hj : j = i
    · subst hj
      rw [Function.update_self]
      exact hi.le
    · rw [Function.update_of_ne hj]
  · rw [Function.update_self]
    exact hi

end Rising

/-! ## Functions that respect the order -/

variable {σ D L K : Type}

section Respects

variable [JoinLattice L] [LawfulJoin L] [Payload K L]

/-- If all payloads respect the order, so do all edge functions. -/
theorem EdgeFunction.respects (hpayloads : ∀ k : K, Respects (Payload.apply k : L → L))
    (e : EdgeFunction L K) : Respects (e.apply : L → L) := by
  intro v w hle
  cases e with
  | identity => exact hle
  | custom k => exact hpayloads k v w hle
  | _ => exact Below.refl _

/-- If all payloads respect the order, so do all stored functions. -/
theorem EdgeStore.Means.respects [Ord L] [Ord K]
    (hpayloads : ∀ k : K, Respects (Payload.apply k : L → L)) {st : EdgeStore L K} {ef : EdgeRef}
    {φ : L → L} (h : st.Means ef φ) : Respects φ := by
  induction h with
  | @leaf _ _ e _ _ => exact e.respects hpayloads
  | compose _ _ _ ihf ihg => exact fun v w hle => ihg _ _ (ihf v w hle)
  | @join _ seed parts Φ _ _ ih =>
    intro v w hle
    have hfold : ∀ (ps : List EdgeRef) (a b : L), (∀ p ∈ ps, p ∈ parts) → Below a b →
        Below (joinParts a ps Φ v) (joinParts b ps Φ w) := by
      intro ps
      induction ps with
      | nil => exact fun a b _ hab => hab
      | cons p ps ihps =>
        intro a b hps hab
        refine ihps _ _ (fun q hq => hps q (List.mem_cons_of_mem p hq)) (join_below ?_ ?_)
        · exact hab.trans (below_join_left _ _)
        · exact (ih p (hps p List.mem_cons_self) v w hle).trans (below_join_right _ _)
    exact hfold parts seed seed (fun _ hp => hp) (Below.refl seed)

end Respects

/-! ## Solutions -/

variable [Ord D] [Ord L] [Ord K] {A : Analysis D L K} {s : State D L K}

/-- The linked call leads from the start point `n` of its caller to the start point `m` of its
callee. -/
structure Connects (A : Analysis D L K) (s : State D L K) (c : CallRecord) (n m : NodeId) :
    Prop where
  listed : c ∈ s.ledger.callsFrom c.source c.site
  caller : ∃ site p sp, s.HasNode c.site site ∧ A.graph.procOf site = .ok p ∧
    A.graph.StartOf p sp ∧ s.HasNode n sp
  callee : ∃ q sq, s.HasProc c.callee q ∧ A.graph.StartOf q sq ∧ s.HasNode m sq

theorem Connects.startPoints {c : CallRecord} {n m : NodeId} (h : Connects A s c n m) :
    StartPoint A s n ∧ StartPoint A s m := by
  obtain ⟨_, p, sp, -, -, hsp, hn⟩ := h.caller
  obtain ⟨q, sq, -, hsq, hm⟩ := h.callee
  exact ⟨⟨sp, p, hn, hsp⟩, ⟨sq, q, hm, hsq⟩⟩

/-- The two nodes are in one procedure, and the second is not the start point. -/
def Inner (A : Analysis D L K) (s : State D L K) (start n : NodeId) : Prop :=
  ∃ sp node p, s.HasNode start sp ∧ A.graph.procOf sp = .ok p ∧ s.HasNode n node ∧
    A.graph.procOf node = .ok p ∧ node ≠ sp

theorem Inner.not_startPoint (hg : A.graph.Consistent) {start n : NodeId} (h : Inner A s start n)
    (hstart : StartPoint A s start) : ¬ StartPoint A s n := by
  obtain ⟨sp, node, p, hsp, hproc, hn, hnode, hne⟩ := h
  rintro ⟨node', q, hn', hq⟩
  obtain ⟨sp', p', hsp', hp'⟩ := hstart
  obtain rfl := Option.some.inj (hn.symm.trans hn')
  obtain rfl := Option.some.inj (hsp.symm.trans hsp')
  obtain rfl := Except.ok.inj (hproc.symm.trans ((Supergraph.startOf_iff hg).1 hp').1)
  obtain rfl := Except.ok.inj (hnode.symm.trans ((Supergraph.startOf_iff hg).1 hq).1)
  exact hne (hq.unique hg hp')

variable [JoinLattice L] [Payload K L] {V W : NodeId → FactId → L}

/-- Values at start points that cover the seeds and what linked calls make of them. -/
structure Solution (A : Analysis D L K) (s : State D L K) (W : NodeId → FactId → L) : Prop where
  seeds : ∀ sp a v n d, (sp, a, v) ∈ A.problem.seeds.toList → s.HasNode n sp → s.HasFact d a →
    Below v (W n d)
  calls : ∀ c n m v, Connects A s c n m → s.store.eval c.edge (W n c.source) = .ok v →
    Below v (W m c.entry)

/-- The least values at start points. -/
structure LeastSolution (A : Analysis D L K) (s : State D L K) (V : NodeId → FactId → L) : Prop
    extends Solution A s V where
  least : ∀ W, Solution A s W → ∀ n d, StartPoint A s n → Below (V n d) (W n d)

theorem LeastSolution.eq [LawfulJoin L] (h : LeastSolution A s V) (h' : LeastSolution A s W)
    {n : NodeId} (hn : StartPoint A s n) (d : FactId) : V n d = W n d :=
  (h.least W h'.toSolution n d hn).antisymm (h'.least V h.toSolution n d hn)

/-- Only values at start points matter. -/
theorem Solution.congr (hg : A.graph.Consistent) (hseeds : A.SeedsAtStarts) (h : Solution A s V)
    (hVW : ∀ n d, StartPoint A s n → W n d = V n d) : Solution A s W where
  seeds sp a v n d hseed hn hd := by
    obtain ⟨p, hp⟩ := Supergraph.exists_startOf hg (hseeds _ hseed)
    rw [hVW n d ⟨sp, p, hn, hp⟩]
    exact h.seeds sp a v n d hseed hn hd
  calls c n m v hconn heval := by
    rw [hVW n _ hconn.startPoints.1] at heval
    rw [hVW m _ hconn.startPoints.2]
    exact h.calls c n m v hconn heval

/-- The value is the join of all path edges that lead to a fact at a node, each applied to the value
of its source at the start point. -/
def JoinOfPaths (s : State D L K) (V : NodeId → FactId → L) (start n : NodeId) (d : FactId)
    (v : L) : Prop :=
  ∃ vs, List.Forall₂ (fun x v => s.store.eval x.2.2 (V start x.1) = .ok v)
    ((s.paths.entries n).filter fun x => x.2.1 = d) vs ∧ v = joinAll vs

/-! ## Orders of pending work -/

/-- The same analysis with another order of pending work. -/
def Analysis.withOrder (A : Analysis D L K) (order : QueueOrder) : Analysis D L K :=
  { A with config := { A.config with queueOrder := order } }

variable [ValueCode σ L]

theorem Solver.visitAll_withOrder [DecidableEq L] (order : QueueOrder) (n : Nat)
    (e : Evaluation σ L) :
    visitAll (A.withOrder order) s n e = visitAll A s n e := by
  induction n generalizing e with
  | zero => rfl
  | succ n ih =>
    have hvisit : ∀ (e : Evaluation σ L) job, visit (A.withOrder order) s e job = visit A s e job :=
      fun _ _ => rfl
    simp only [visitAll, hvisit, ih]

variable [DecidableEq D] [LawfulCode σ L] {Good : NodeId → FactId → L → Prop}
  {e e' : Evaluation σ L}

/-- A visited start point was visited with a fact. -/
theorem Visited.exists_seen (h : Visited A s Good e) {start : NodeId}
    (hstart : start.index ∈ e.starts) : ∃ a, e.Seen start a := by
  obtain ⟨⟨n⟩, a, hindex, hseen⟩ := (h.starts start.index).1 hstart
  obtain rfl : ⟨n⟩ = start := by
    cases start
    exact congrArg NodeId.mk (UInt32.toNat.inj hindex)
  exact ⟨a, hseen⟩

variable [DecidableEq L]

/-! ## Termination -/

instance : Finite NodeId := Finite.of_injective NodeId.val fun a b h => by
  cases a
  cases b
  exact congrArg NodeId.mk h

instance : Finite FactId := Finite.of_injective FactId.val fun a b h => by
  cases a
  cases b
  exact congrArg FactId.mk h

/-- What was found at start points so far. -/
def Evaluation.found (e : Evaluation σ L) (x : NodeId × FactId) : WithBot L :=
  if e.seen.contains (pack x.1.val x.2.val) then (e.values.get x.1 x.2 : L) else ⊥

namespace Solver

/-- A visit changes nothing, or finds more. -/
theorem visit_rises [LawfulJoin L] {job : ValueJob L} (hA : Scope A)
    (hv : A.config.computeValues = true) (hs : Complete A s) (hwf : e.values.Wf)
    (hrun : visit A s e job = .ok e') : e' = e ∨ Rises e.found e'.found := by
  unfold visit at hrun
  simp only at hrun
  split at hrun
  · exact .inl (pure_eq_ok.1 hrun).symm
  next hnew =>
  right
  simp only [bind_eq_ok] at hrun
  obtain ⟨values, hset, sp, hsp, p, hp, sites, hsites, hrun⟩ := hrun
  have hsame := (forward_spec hA hv hs (Interner.get_eq_ok.1 hsp) hp hsites hrun).same
  have hfound : e'.found = Function.update e.found (job.node, job.fact)
      ((join (e.values.get job.node job.fact) job.value : L) : WithBot L) := by
    funext ⟨⟨n⟩, ⟨d⟩⟩
    rw [hsame]
    simp only [Evaluation.found, Std.TreeSet.contains_insert, ValueTable.get_set hwf hset,
      Function.update_apply, Prod.mk.injEq]
    by_cases hkey : job.node = ⟨n⟩ ∧ job.fact = ⟨d⟩
    · obtain ⟨hn, hd⟩ := hkey
      simp [hn, hd]
    · have hne : pack job.node.val job.fact.val ≠ pack n d := by
        rw [Ne, pack_inj]
        rintro ⟨rfl, rfl⟩
        exact hkey ⟨rfl, rfl⟩
      have hne' : ¬ ((⟨n⟩ : NodeId) = job.node ∧ (⟨d⟩ : FactId) = job.fact) := fun h =>
        hkey ⟨h.1.symm, h.2.symm⟩
      simp [hkey, hne, hne']
  rw [hfound]
  refine rises_update ?_
  by_cases hseen : e.seen.contains (pack job.node.val job.fact.val) = true
  · have hold : e.found (job.node, job.fact) = (e.values.get job.node job.fact : L) := if_pos hseen
    exact .inr ⟨_, hold, below_join_left _ _, fun heq => hnew ⟨hseen, heq.symm⟩⟩
  · exact .inl (if_neg hseen)

/-- Visits come to an end, or to a fault that is allowed. -/
theorem visitAll_returns_of_chains [LawfulJoin L] [Std.TransOrd L] [Std.LawfulEqOrd L]
    [Std.TransOrd K] [Std.LawfulEqOrd K]
    (hchains : WellFounded fun u v : L => StrictlyBelow v u) {E : Fault → Prop}
    (hcode : AllowsCode σ L E) (hA : Scope A) (hv : A.config.computeValues = true) {F : D → Prop}
    (hground : Grounded A F s) (hs : Complete A s) {Good : NodeId → FactId → L → Prop}
    (hgood : Kept A s fun n d v => Good n d v ∧ StartPoint A s n)
    (h : Visited A s (fun n d v => Good n d v ∧ StartPoint A s n) e) :
    ∃ N, ∀ n, N ≤ n → Returns E (visitAll A s n e) fun _ => True := by
  have hmeasure := (wellFounded_rises (ι := NodeId × FactId) hchains).prod_lex Nat.lt_wfRel.wf
  induction hx : (e.found, e.queue.toList.length) using hmeasure.induction generalizing e with
  | h x ih =>
  subst hx
  cases hpop : e.queue.pop? with
  | none =>
    refine ⟨1, fun n hn => ?_⟩
    obtain ⟨n, rfl⟩ := Nat.exists_eq_add_of_le' hn
    exact .of_ok (by rw [visitAll, hpop]) trivial
  | some r =>
    obtain ⟨job, queue⟩ := r
    have hperm := Worklist.pop?_perm hpop
    obtain ⟨-, sp, p, hsp, -⟩ := h.jobs job (hperm.mem_iff.2 List.mem_cons_self)
    have hvisit := visit_returns hcode hA.graph hground { e with queue, jobs := e.jobs + 1 }
      (.inl ⟨sp, hsp⟩ : Named E s.nodes job.node.val)
    cases hrun : visit A s { e with queue, jobs := e.jobs + 1 } job with
    | error f =>
      refine ⟨1, fun n hn => ?_⟩
      obtain ⟨n, rfl⟩ := Nat.exists_eq_add_of_le' hn
      rw [visitAll, hpop]
      simp only [hrun]
      exact hvisit.allowed hrun
    | ok e' =>
      have hsmaller : Prod.Lex (fun f g : NodeId × FactId → WithBot L => Rises g f) (· < ·)
          (e'.found, e'.queue.toList.length) (e.found, e.queue.toList.length) := by
        rcases visit_rises hA hv hs (by exact h.wf) hrun with rfl | hrises
        · refine .right _ ?_
          rw [hperm.length_eq]
          exact Nat.lt_succ_self _
        · exact .left _ _ hrises
      obtain ⟨N, hN⟩ := ih _ hsmaller (visit_spec hA hv hs hgood h hpop hrun) rfl
      refine ⟨N + 1, fun n hn => ?_⟩
      obtain ⟨n, rfl⟩ := Nat.exists_eq_add_of_le' (Nat.le_trans (Nat.le_add_left 1 N) hn)
      rw [visitAll, hpop]
      simp only [hrun]
      exact hN n (Nat.le_of_succ_le_succ hn)

end Solver

/-- When no value is pending, the values are a solution. -/
theorem Visited.solution (hg : A.graph.Consistent) (hseeds : A.SeedsAtStarts)
    (hv : A.config.computeValues = true) (hs : Complete A s) (h : Visited A s Good e)
    (hempty : e.queue.toList = []) : Solution A s e.values.get where
  seeds sp a v n d hseed hn hd := by
    obtain ⟨job, hjob, hn', hd', rfl, -⟩ := hs.submitted _ _ _ hseed
    obtain rfl : n = job.node := congrArg NodeId.mk (Interner.get?_inj hs.nodes hn hn')
    obtain rfl : d = job.fact := congrArg FactId.mk (Interner.get?_inj hs.facts hd hd')
    exact ((h.seeds job hjob).arrived hempty).2
  calls c n m v hconn heval := by
    obtain ⟨site, p, sp, hsite, hproc, hsp, hn⟩ := hconn.caller
    obtain ⟨q, sq, hcallee, hsq, hm⟩ := hconn.callee
    obtain ⟨hc, -, -⟩ := hs.forward _ _ c hconn.listed
    obtain ⟨site', caller, callee, source, entry, hrec⟩ := hs.records c hc
    obtain rfl := Option.some.inj (hsite.symm.trans hrec.hasSite)
    obtain rfl := Except.ok.inj (hproc.symm.trans hrec.procOf)
    obtain ⟨χ, hχ⟩ := hrec.labelled hv
    obtain rfl := hχ.eval_eq heval
    have hat : AtEntry A s p source n c.source := ⟨sp, hsp, hn, hrec.hasSource⟩
    have hat' : AtEntry A s q entry m c.entry := ⟨sq, hsq, hm, hrec.hasEntry⟩
    obtain ⟨n', i, hat'', hseen⟩ := h.seen_of_entered hg hseeds hv hs hempty hrec.entered
    obtain ⟨rfl, rfl⟩ := hat.unique hg hs hat''
    exact (h.arrives hg hs hempty hc hsite hproc hcallee hat hat' hseen hχ).2

/-- Values stay below every solution, if calls respect the order. -/
theorem Solution.kept [LawfulJoin L] (hg : A.graph.Consistent) (hseeds : A.SeedsAtStarts)
    (hv : A.config.computeValues = true) (hs : Complete A s) (hW : Solution A s W)
    (hmono : ∀ c ∈ s.ledger, ∀ χ, s.store.Means c.edge χ → Respects χ) :
    Kept A s fun n d v => Below v (W n d) ∧ StartPoint A s n where
  seeds job hjob := by
    obtain ⟨sp, a, hn, hd, hseed⟩ := hs.seeds job hjob
    exact ⟨hW.seeds _ _ _ _ _ hseed hn hd, (Solver.kept_atStarts hg hseeds hs).seeds job hjob⟩
  join n d u v hu hv := ⟨join_below hu.1 hv.1, hu.2⟩
  sent n d v job hgood hsent := by
    obtain ⟨hbelow, hn⟩ := hgood
    refine ⟨?_, (Solver.kept_atStarts hg hseeds hs).sent n d v job hn hsent⟩
    obtain ⟨c, hc, site, caller, callee, _, _, χ, hrec, rfl, ⟨sp, hsp, hcaller⟩, ⟨sq, hsq, hstart⟩,
      hfact, hχ, hvalue⟩ := hsent
    obtain ⟨sp', q, hsp', hq⟩ := hn
    obtain rfl := Option.some.inj (hsp.symm.trans hsp')
    obtain rfl := Except.ok.inj (hcaller.symm.trans ((Supergraph.startOf_iff hg).1 hq).1)
    have hconn : Connects A s c n job.node :=
      ⟨hs.attached c hc hv, ⟨site, caller, sp, hrec.hasSite, hrec.procOf, hq, hsp⟩,
        ⟨callee, sq, hrec.hasCallee, hstart, hsq⟩⟩
    rw [hfact, hvalue]
    exact (hmono c hc χ hχ _ _ hbelow).trans (hW.calls c n job.node _ hconn (hs.regular.eval hχ _))

/-- Only the start point of its own procedure feeds a node. -/
theorem Inner.eq_start (hg : A.graph.Consistent) (hs : Complete A s) {start start' n : NodeId}
    (h : Inner A s start n) (h' : Inner A s start' n) (hstart : StartPoint A s start)
    (hstart' : StartPoint A s start') : start' = start := by
  obtain ⟨sp, node, p, hsp, hproc, hn, hnode, -⟩ := h
  obtain ⟨sp', node', p', hsp', hproc', hn', hnode', -⟩ := h'
  obtain rfl := Option.some.inj (hn.symm.trans hn')
  obtain rfl := Except.ok.inj (hnode.symm.trans hnode')
  obtain ⟨x, q, hx, hq⟩ := hstart
  obtain ⟨x', q', hx', hq'⟩ := hstart'
  obtain rfl := Option.some.inj (hsp.symm.trans hx)
  obtain rfl := Option.some.inj (hsp'.symm.trans hx')
  obtain rfl := Except.ok.inj (hproc.symm.trans ((Supergraph.startOf_iff hg).1 hq).1)
  obtain rfl := Except.ok.inj (hproc'.symm.trans ((Supergraph.startOf_iff hg).1 hq').1)
  obtain rfl := hq.unique hg hq'
  exact congrArg NodeId.mk (Interner.get?_inj hs.nodes hsp' hsp)

theorem Accumulates.joinOfPaths [LawfulJoin L] (hg : A.graph.Consistent)
    (hv : A.config.computeValues = true) (hs : Complete A s)
    (h : Visited A s (fun n d v => Good n d v ∧ StartPoint A s n) e) {t : ValueTable σ L}
    (hacc : Accumulates A s e.values
      (fun n d v => ∃ start a, e.Seen start a ∧ Feeds A s e.values start n d v) t)
    {start n : NodeId} (hstart : start.index ∈ e.starts) (hinner : Inner A s start n) (d : FactId) :
    JoinOfPaths s t.get start n d (t.get n d) := by
  obtain ⟨a, hseen⟩ := h.exists_seen hstart
  have hstartPoint := (h.seen _ _ hseen).2
  have hsource : ∀ b, t.get start b = e.values.get start b := fun b => hacc.starts _ b hstartPoint
  have : Nonempty (L → L) := ⟨id⟩
  choose! Φ hΦ using fun ef (hef : s.store.Alive ef) => hs.regular.means hef
  have hmeans : ∀ b d ef, s.paths.get? n b d = some ef → s.store.Means ef (Φ ef) := by
    intro b d ef hef
    obtain ⟨_, _, _, _, _, hpath⟩ := hs.paths n b d ef hef
    obtain ⟨φ, hφ⟩ := hpath.labelled hv
    exact hΦ ef hφ.node?
  have hmem : ∀ x, x ∈ (s.paths.entries n).filter (fun x => x.2.1 = d) ↔
      x.2.1 = d ∧ s.paths.get? n x.1 d = some x.2.2 := by
    rintro ⟨b, d', ef⟩
    simp only [List.mem_filter, PathTable.mem_entries, decide_eq_true_eq]
    constructor
    · rintro ⟨hef, rfl⟩
      exact ⟨rfl, hef⟩
    · rintro ⟨rfl, hef⟩
      exact ⟨hef, rfl⟩
  refine ⟨((s.paths.entries n).filter fun x => x.2.1 = d).map fun x =>
    Φ x.2.2 (e.values.get start x.1), ?_, ?_⟩
  · simp only [hsource]
    rw [List.forall₂_map_right_iff, List.forall₂_same]
    intro x hx
    exact hs.regular.eval (hmeans _ _ _ ((hmem x).1 hx).2) _
  · obtain ⟨ws, hjoin, hws⟩ := hacc.join n d
    have hunseen : e.values.get n d = top := h.unseen n d fun hn =>
      hinner.not_startPoint hg hstartPoint (h.seen n d hn).2
    rw [hunseen, top_join] at hjoin
    refine Below.antisymm ?_ (joinAll_below fun v hvs => ?_)
    · rw [hjoin]
      refine joinAll_below fun w hw => below_joinAll ?_
      obtain ⟨_, b, hseen', sp, p, node, b', ef, φ, hsp, hp, hn, hnode, hne, hef, hφ, rfl⟩ :=
        hws w hw
      obtain rfl := hinner.eq_start hg hs ⟨sp, node, p, hsp, hp, hn, hnode, hne⟩ hstartPoint
        (h.seen _ _ hseen').2
      rw [hφ.unique (hmeans _ _ _ hef)]
      exact List.mem_map.2 ⟨(b', d, ef), (hmem _).2 ⟨rfl, hef⟩, rfl⟩
    · obtain ⟨x, hx, rfl⟩ := List.mem_map.1 hvs
      obtain ⟨-, hef⟩ := (hmem x).1 hx
      obtain ⟨sp, node, p, hsp, hproc, hn, hnode, hne⟩ := hinner
      exact hacc.below n d _ ⟨start, a, hseen, sp, p, node, x.1, x.2.2, _, hsp, hproc, hn, hnode,
        hne, hef, hmeans _ _ _ hef, rfl⟩

namespace Solver

variable [Std.TransOrd L] [Std.LawfulEqOrd L] [Std.TransOrd K] [Std.LawfulEqOrd K] [LawfulJoin L]

/-- In every order, the second phase comes to an end, and then its values are a least solution. -/
theorem computeValues_returns_least (hchains : WellFounded fun u v : L => StrictlyBelow v u)
    {E : Fault → Prop} (hcode : AllowsCode σ L E) (hA : Scope A) (hseeds : A.SeedsAtStarts)
    (hv : A.config.computeValues = true) {F : D → Prop} (hground : Grounded A F s)
    (hs : Complete A s) (hmono : ∀ c ∈ s.ledger, ∀ χ, s.store.Means c.edge χ → Respects χ)
    {values : ValueTable σ L} (hvalues : reachedValues s = .ok values) (order : QueueOrder) :
    ∃ N, ∀ n, N ≤ n → Returns E (computeValues (A.withOrder order) s n values) fun e =>
      LeastSolution A s e.values.get ∧ ∀ start : NodeId, start.index ∈ e.starts →
        StartPoint A s start ∧ ∀ m d, Inner A s start m →
          JoinOfPaths s e.values.get start m d (e.values.get m d) := by
  obtain ⟨hwf, hdefault, hfind⟩ := reachedValues_spec hvalues
  have hqueue : (s.seeds.foldl Worklist.push (.empty order)).toList = s.seeds :=
    Worklist.toList_pushAll _ _
  have hkept := kept_atStarts hA.graph hseeds hs
  have hgood := hkept.and hkept
  obtain ⟨N, hN⟩ := visitAll_returns_of_chains hchains hcode hA hv hground hs hgood
    (visited_init hgood hwf hdefault hfind hqueue s.nodes.size)
  refine ⟨N, fun n hn => ?_⟩
  unfold computeValues
  refine Returns.bind
    (P := fun e => visitAll A s n ⟨values, _, ∅, .ofCapacity s.nodes.size, 0⟩ = .ok e)
    (.of_forall (fun e he => (visitAll_withOrder order n _).symm.trans he) fun f hf =>
      (hN n hn).allowed ((visitAll_withOrder order n _).symm.trans hf)) fun e hvisit => ?_
  obtain ⟨hvisited, hempty⟩ := visitAll_spec hA hv hs hgood
    (visited_init hgood hwf hdefault hfind hqueue s.nodes.size) hvisit
  have hfold : Returns E (e.starts.toList.foldlM (evaluateFrom A s) e.values) fun _ => True := by
    refine .foldlM (fun _ => True) trivial fun i hi t _ => ?_
    obtain ⟨⟨m⟩, d, hm, hseen⟩ := (hvisited.starts i).1 (BitSet.mem_toList.1 hi)
    obtain ⟨-, sp, p, hsp, -⟩ := hvisited.seen _ _ hseen
    refine evaluateFrom_returns hcode hA.graph hground t (.inl ⟨sp, ?_⟩)
    have hname : UInt32.ofNat i = m := by rw [← hm]; exact UInt32.ofNat_toNat
    rw [hname]
    exact hsp
  refine Returns.bind (P := fun t => e.starts.toList.foldlM (evaluateFrom A s) e.values = .ok t)
    (.of_forall (fun _ ht => ht) fun f hf => hfold.allowed hf) fun t ht => ?_
  have hspec := fun Good (hgood : Kept A s Good) => evaluated_spec hA hseeds hv hs hgood hwf
    hdefault hfind hqueue hvisit ht
  obtain ⟨-, -, hacc⟩ := hspec _ hkept
  have hsolution := (hvisited.solution hA.graph hseeds hv hs hempty).congr hA.graph hseeds
    hacc.starts
  refine ⟨⟨hsolution, fun W hW m d hm => ?_⟩, fun start hstart => ⟨?_, fun m d hinner =>
    hacc.joinOfPaths hA.graph hv hs hvisited hstart hinner d⟩⟩
  · obtain ⟨-, hbelow, -⟩ := hspec _ (hW.kept hA.graph hseeds hv hs hmono)
    rw [hacc.starts m d hm]
    by_cases hseen : e.Seen m d
    · exact (hbelow.seen m d hseen).1.1
    · rw [hbelow.unseen m d hseen]
      exact top_below _
  · obtain ⟨a, hseen⟩ := hvisited.exists_seen hstart
    exact (hvisited.seen _ _ hseen).2

end Solver

open Solver in
/-- Whatever the first phase left, if values cannot rise for ever and calls respect the order, then
there is a least solution at start points, and in every order of pending work the second phase comes
to an end with these values. At all other nodes it then has the joins of all path edges. Only the
storage of values can fail. -/
theorem computeValues_least [Std.TransOrd D] [Std.LawfulEqOrd D] [Std.TransOrd L]
    [Std.LawfulEqOrd L] [Std.TransOrd K] [Std.LawfulEqOrd K] [LawfulJoin L]
    (hchains : WellFounded fun u v : L => StrictlyBelow v u) (A : Analysis D L K)
    (hgraph : A.graph.Built) (hseeds : A.SeedsAtStarts) (hgc : A.config.gcMode = .disabled)
    (hv : A.config.computeValues = true) {steps : Nat} {s₀ s₁ s : State D L K}
    (hcreate : create A = .ok s₀) (hrun : run A steps s₀ = .ok s₁)
    (hdrop : (dropPending A).run s₁ = .ok ((), s))
    (hmono : ∀ c ∈ s.ledger, ∀ χ, s.store.Means c.edge χ → Respects χ)
    {values : ValueTable σ L} (hvalues : reachedValues s = .ok values) :
    ∃ V, LeastSolution A s V ∧ ∀ order, ∃ N, ∀ n, N ≤ n →
      Returns (fun f => ∃ (c : σ) (v : L), ValueCode.encode c v = .error f)
        (computeValues (A.withOrder order) s n values) fun e =>
          (∀ m d, StartPoint A s m → e.values.get m d = V m d) ∧
          ∀ start m d, start.index ∈ e.starts → Inner A s start m →
            JoinOfPaths s V start m d (e.values.get m d) := by
  have hA : Scope A := .of_disabled hgraph hgc fun _ =>
    ⟨inferInstance, inferInstance, inferInstance, inferInstance⟩
  have hs : Complete A s := (dropPending_spec hA (run_create_spec hA hcreate hrun) hdrop).1
  have hknown : ∀ x ∈ A.problem.seeds.toList, A.graph.Known x.1 := fun x hx => by
    obtain ⟨p, hp⟩ := Supergraph.exists_startOf hA.graph (hseeds x hx)
    exact Supergraph.known_of_procOf ((Supergraph.startOf_iff hA.graph).1 hp).1
  obtain ⟨hreach, hdone⟩ := (Reachable.create hcreate).run hrun
  have hground := (hreach.next (.drop hdone hdrop)).grounded (.of_built hgraph hknown)
  -- A run that stores values as they are never fails, so it gives the least solution.
  have hplain : AllowsCode (Verbatim L) L fun _ => False := fun _ _ _ h => by cases h
  have hreached : Returns (fun _ => False)
      (reachedValues s : Except Fault (ValueTable (Verbatim L) L))
      fun _ => True := .foldlM _ trivial fun _ _ t _ => set_returns hplain t _ _ _
  obtain ⟨t, ht, -⟩ := hreached.exists_ok fun _ => id
  obtain ⟨N, hN⟩ :=
    computeValues_returns_least hchains hplain hA hseeds hv hground hs hmono ht .fifo
  obtain ⟨e, -, hV, -⟩ := (hN N (Nat.le_refl N)).exists_ok fun _ => id
  refine ⟨e.values.get, hV, fun order => ?_⟩
  obtain ⟨N', hN'⟩ := computeValues_returns_least hchains
    (E := fun f => ∃ (c : σ) (v : L), ValueCode.encode c v = .error f) (fun c v f h => ⟨c, v, h⟩) hA
    hseeds hv hground hs hmono hvalues order
  refine ⟨N', fun n hn => (hN' n hn).imp fun e' he' => ?_⟩
  obtain ⟨hleast, hrest⟩ := he'
  have heq : ∀ m d, StartPoint A s m → e'.values.get m d = e.values.get m d := fun m d hm =>
    hleast.eq hV hm d
  refine ⟨heq, fun start m d hstart hinner => ?_⟩
  obtain ⟨hpoint, hjoin⟩ := hrest start hstart
  obtain ⟨vs, hvs, hd⟩ := hjoin m d hinner
  simp only [heq start _ hpoint] at hvs
  exact ⟨vs, hvs, hd⟩

namespace Descent

/-- A procedure that calls itself at its second node. -/
def graph : Except Fault Supergraph := Supergraph.ofSteps
  [.proc "main" ["a", "b"], .edge "a" "b", .proc "p" ["s", "t", "e"], .chain ["s", "t", "e"],
   .call "a" "p", .call "t" "p"]

/-- The inner call adds a bit to the value with which the procedure was entered. -/
def problem : Problem Nat Mask MaskMap where
  zero := 0
  seeds := Seeds.empty.add "a" 1 ⟨1⟩
  normalFlow _ _ := .identity
  callFlow _ _ := .identity
  returnFlow _ _ _ _ := .identity
  bypassFlow _ _ _ := .identity
  callEdge site _ _ _ := if site = "t" then .custom (.genKill 2 0 true) else .identity

def analysis (g : Supergraph) : Analysis Nat Mask MaskMap := ⟨problem, g, {}⟩

end Descent

open Solver in
/-- The value with which the procedure is entered rises once more, and in both orders of pending
work the second phase finds it. -/
theorem computeValues_least_descent :
    ∃ g s t V, Descent.graph = .ok g ∧ s.ledger.records.size = 2 ∧
      LeastSolution (Descent.analysis g) s V ∧ ∀ order, ∃ n e,
        computeValues ((Descent.analysis g).withOrder order) s n
          (t : ValueTable (Verbatim Mask) Mask)
          = .ok e ∧ ∀ m d, StartPoint (Descent.analysis g) s m → e.values.get m d = V m d := by
  have hrun : (do
      let g ← Descent.graph
      let s₀ ← create (Descent.analysis g)
      let s₁ ← run (Descent.analysis g) 60 s₀
      let r ← (dropPending (Descent.analysis g)).run s₁
      let t : ValueTable (Verbatim Mask) Mask ← reachedValues r.2
      return (g.isStart "a", r.2.ledger.records.size)) = .ok (.ok true, 2) := by
    decide +kernel
  simp only [bind_eq_ok, pure_eq_ok, Prod.mk.injEq] at hrun
  obtain ⟨g, hg, s₀, hcreate, s₁, hs₁, ⟨⟨⟩, s⟩, hdrop, t, ht, hstart, hsize⟩ := hrun
  have hseeds : (Descent.analysis g).SeedsAtStarts := by
    intro x hx
    obtain rfl := List.mem_singleton.1 hx
    exact hstart
  have hfinite : Finite Mask := Finite.of_injective Mask.bits fun a b h => by
    cases a
    cases b
    exact congrArg Mask.mk h
  have htrans : IsTrans Mask fun u v => StrictlyBelow v u := ⟨fun _ _ _ h h' => h'.trans h⟩
  have hirrefl : Std.Irrefl fun u v : Mask => StrictlyBelow v u := ⟨fun _ h => h.2 rfl⟩
  have hchains := Finite.wellFounded_of_trans_of_irrefl fun u v : Mask => StrictlyBelow v u
  obtain ⟨V, hV, horders⟩ := computeValues_least hchains (Descent.analysis g) (.ofSteps hg)
    hseeds rfl rfl hcreate hs₁ hdrop
    (fun c _ χ hχ => hχ.respects fun k => (Mask.distributes_payload k).respects) ht
  refine ⟨g, s, t, V, hg, hsize, hV, fun order => ?_⟩
  obtain ⟨N, hN⟩ := horders order
  have hplain : ∀ f : Fault,
      ¬ ∃ (c : Verbatim Mask) (v : Mask), ValueCode.encode c v = .error f := by
    rintro f ⟨c, v, h⟩
    cases h
  obtain ⟨e, he, hvalues, -⟩ := (hN N (Nat.le_refl N)).exists_ok hplain
  exact ⟨N, e, he, hvalues⟩

end Tabulation
