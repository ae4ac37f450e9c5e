import Tabulation.Proofs.Bookkeeping
import Tabulation.Proofs.MeteredCodes
import Tabulation.Proofs.Solver.MirrorBegin
import Tabulation.Proofs.Solver.Values

/-!
# The second phase side by side

After the first phase, a run that collects has what the second phase reads, `Handover`: with values,
path edges are kept at all nodes whose results are reported, and labels stand for the same
functions. So both runs visit start points alike and differ only in the values at nodes that are not
`Visible`, which one of them never writes, `ValueTable.Shows`.

**Codes.** A run that writes fewer values must not fail where the other one succeeds, so the code of
the values is to be thrifty, `ThriftyCode`.

**Results.** `exists_solve_collected`: if a run without collection returns, so does the one with
collection, and it reports what is visible.
-/

namespace Tabulation

/-! ## Tables side by side -/

namespace ValueTable

variable {σ L : Type} [ValueCode σ L] [LawfulCode σ L] [ThriftyCode σ L] {P : NodeId → Prop}
  {V V' V₁ : ValueTable σ L} {n : NodeId} {d : FactId} {v : L}

/-- The first table has the values of the second at the nodes in `P`, and no others. -/
structure Shows (P : NodeId → Prop) (V' V : ValueTable σ L) : Prop where
  wf' : V'.Wf
  wf : V.Wf
  codes : ThriftyCode.Within L V'.codes V.codes
  default : V'.default = V.default
  shown : ∀ n d, P n → V'.find? n d = V.find? n d
  hidden : ∀ n d, ¬ P n → V'.find? n d = none

namespace Shows

theorem empty (P : NodeId → Prop) (v : L) : Shows (σ := σ) P (.empty v) (.empty v) where
  wf' := wf_empty v
  wf := wf_empty v
  codes := ThriftyCode.within_empty
  default := rfl
  shown _ _ _ := rfl
  hidden _ _ _ := find?_empty

theorem get_eq (h : Shows P V' V) (hn : P n) : V'.get n d = V.get n d := by
  rw [ValueTable.get_eq, ValueTable.get_eq, h.shown n d hn, h.default]

theorem contains_eq (h : Shows P V' V) (hn : P n) : V'.contains n d = V.contains n d := by
  rw [Bool.eq_iff_iff, contains_iff h.wf', contains_iff h.wf, h.shown n d hn]

/-- A value is written at a node that is shown. -/
theorem set (h : Shows P V' V) (hn : P n) (d : FactId) (v : L) :
    Matches (V'.set n d v) (V.set n d v) (Shows P) := by
  intro V₁ hset
  have ⟨⟨code, codes⟩, hcode, hV₁⟩ := bind_eq_ok.1 hset
  obtain ⟨-, code', codes', hcode', hwithin⟩ :=
    ThriftyCode.within_encode h.wf'.valid h.wf.valid h.codes hcode
  have hset' : V'.set n d v = .ok
      { V' with rows := V'.rows.insert n ((V'.codesAt n).insert d code'), codes := codes' } :=
    bind_eq_ok.2 ⟨_, hcode', rfl⟩
  obtain ⟨hwf', hdefault', hfind'⟩ := set_spec h.wf' hset'
  obtain ⟨hwf, hdefault, hfind⟩ := set_spec h.wf hset
  refine ⟨_, hset', hwf', hwf, ?_, ?_, fun k e hk => ?_, fun k e hk => ?_⟩
  · rw [← pure_eq_ok.1 hV₁]
    exact hwithin
  · rw [hdefault, hdefault', h.default]
  · rw [hfind, hfind', h.shown k e hk]
  · rw [hfind', if_neg (fun ⟨heq, _⟩ => hk (heq ▸ hn)), h.hidden k e hk]

/-- A value is written at a node that is not shown. -/
theorem skip (h : Shows P V' V) (hn : ¬ P n) (hset : V.set n d v = .ok V₁) : Shows P V' V₁ := by
  have ⟨⟨code, codes⟩, hcode, hV₁⟩ := bind_eq_ok.1 hset
  obtain ⟨hwithin, -⟩ := ThriftyCode.within_encode h.wf'.valid h.wf.valid h.codes hcode
  obtain ⟨hwf, hdefault, hfind⟩ := set_spec h.wf hset
  refine ⟨h.wf', hwf, ?_, h.default.trans hdefault.symm, fun k e hk => ?_, h.hidden⟩
  · rw [← pure_eq_ok.1 hV₁]
    exact hwithin
  · rw [hfind, if_neg (fun ⟨heq, _⟩ => hn (heq ▸ hk)), h.shown k e hk]

end Shows

end ValueTable

variable {D L K : Type} [Ord L] [Ord K] [Payload K L] {A : Analysis D L K} {m : GcMode}

/-! ## Between the phases -/

variable [JoinLattice L] {x : String}

theorem Solver.keepAt_withGc (hA : Comparable A) (hknown : A.graph.Known x) :
    keepAt (A.withGc m) x true = keepAt A x true := by
  obtain ⟨b, hb⟩ := keepAt_total hA.graph hknown true
  obtain ⟨b', hb'⟩ := keepAt_total (A := A.withGc m) hA.graph hknown true
  have h := keepAt_results_iff hA.graph hknown
  have h' : keepAt (A.withGc m) x true = .ok true ↔ A.ShownAt x :=
    keepAt_results_iff (A := A.withGc m) hA.graph hknown
  rw [← h, hb, hb'] at h'
  rw [hb, hb']
  cases b <;> cases b' <;> simp_all

/-- With values, path edges are kept wherever results are. -/
theorem Solver.keepAt_paths (hA : Comparable A) (hv : A.config.computeValues = true)
    (hknown : A.graph.Known x) (h : m.isAggressive = true → keepAt A x true = .ok true) :
    keepAt (A.withGc m) x false = .ok true := by
  refine (keepAt_iff (A := A.withGc m) hA.graph hknown false).2 ?_
  have hv' : (A.withGc m).config.computeValues = true := hv
  by_cases hm : m.isAggressive = true
  · rcases (keepAt_results_iff hA.graph hknown).1 (h hm) with hb | hi
    · exact .inl hb
    · refine .inr (.inl ?_)
      rw [hv']
      exact hi
  · refine .inr (.inr ?_)
    have hm' : (A.withGc m).config.gcMode.isAggressive = false := Bool.eq_false_iff.2 hm
    rw [hv', hm']
    rfl

variable [Ord D] {s s' t t' : State D L K} {n : NodeId}

/-- Results at the node are reported by the run with collection `m`. -/
def Visible (A : Analysis D L K) (m : GcMode) (t : State D L K) (n : NodeId) : Prop :=
  m.isAggressive = true → ∃ node, t.HasNode n node ∧ Solver.keepAt A node true = .ok true

theorem Visible.of_boundary (hA : Comparable A) (hx : t.HasNode n x) (hknown : A.graph.Known x)
    (hb : A.graph.Boundary x) : Visible A m t n :=
  fun _ => ⟨x, hx, Solver.keepAt_of_boundary hA.graph hknown hb true⟩

theorem Visible.of_start (hA : Comparable A) (hx : t.HasNode n x) {p : String}
    (hp : A.graph.StartOf p x) : Visible A m t n := by
  obtain ⟨hproc, hstart⟩ := (Supergraph.startOf_iff hA.graph).1 hp
  exact .of_boundary hA hx (Supergraph.known_of_procOf hproc) (.inr (.inl hstart))

theorem visible_iff (hA : Comparable A) (hx : t.HasNode n x) (hknown : A.graph.Known x) :
    Visible A m t n ↔ (m.isAggressive = true → A.ShownAt x) := by
  refine imp_congr_right fun _ => ?_
  rw [← Solver.keepAt_results_iff hA.graph hknown]
  constructor
  · rintro ⟨y, hy, hkeep⟩
    obtain rfl := Option.some.inj (hx.symm.trans hy)
    exact hkeep
  · exact fun hkeep => ⟨x, hx, hkeep⟩

/-- Two states that the second phase cannot tell apart, but for what is not visible. -/
structure Handover (A : Analysis D L K) (m : GcMode) (s t : State D L K) : Prop where
  nodes : s.nodes = t.nodes
  facts : s.facts = t.facts
  procs : s.procs = t.procs
  wf : t.nodes.Wf
  known : ∀ n x, t.HasNode n x → A.graph.Known x
  reached : ∀ key, s.reached.contains key = true ↔
    t.reached.contains key = true ∧ Visible A m t ⟨(unpack key).1⟩
  seeds : s.seeds = t.seeds
  starts : A.config.computeValues = true → ∀ job ∈ t.seeds, Visible A m t job.node
  calls : A.config.computeValues = true → ∀ a n,
    List.Forall₂ (fun c' c => c'.callee = c.callee ∧ c'.entry = c.entry ∧
        ∀ v, s.store.eval c'.edge v = t.store.eval c.edge v)
      (s.ledger.callsFrom a n) (t.ledger.callsFrom a n)
  paths : A.config.computeValues = true → ∀ n x, t.HasNode n x →
    Solver.keepAt (A.withGc m) x false = .ok true → ∀ a b,
    Option.Rel (fun e' e => ∀ v, s.store.eval e' v = t.store.eval e v) (s.paths.get? n a b)
      (t.paths.get? n a b)

section Handover

variable [DecidableEq L]

/-- What the second phase reads was kept, and labels stand for the same functions. -/
structure Survives (s s' : State D L K) : Prop where
  nodes : s'.nodes = s.nodes
  facts : s'.facts = s.facts
  procs : s'.procs = s.procs
  paths : s'.paths = s.paths
  seeds : s'.seeds = s.seeds
  reached : s'.reached = s.reached
  callsFrom : ∀ a n, s'.ledger.callsFrom a n = s.ledger.callsFrom a n
  regular : s'.store.Regular
  means : ∀ ef, s'.Holds ef → ∀ φ, s.store.Means ef φ → s'.store.Means ef φ

/-- Labels that were alike evaluate alike after what is no longer needed was dropped. -/
theorem Alike.eval_eq (hA : Comparable A) (hv : A.config.computeValues = true)
    (hreg : t.store.Regular) (hs : Survives s s') (ht : Survives t t') {e' e : EdgeRef}
    (h : Alike A s.store t.store e' e) (he' : s'.Holds e') (he : t'.Holds e) (v : L) :
    s'.store.eval e' v = t'.store.eval e v := by
  obtain ⟨_, _, _, _, _, _⟩ := hA.laws hv
  obtain ⟨φ, hφ⟩ := hreg.means (h.alive hv).2
  rw [hs.regular.eval (hs.means e' he' φ ((h.twin hv).means hφ)) v,
    ht.regular.eval (ht.means e he φ hφ) v]

variable [DecidableEq D]

theorem Mirrors.handover {w : Slack} (hA : Comparable A) (h : Mirrors A m w s t)
    (ht : Complete A t) (hknown : ∀ n x, t.HasNode n x → A.graph.Known x) (hs' : Survives s s')
    (ht' : Survives t t') : Handover A m s' t' := by
  have hnode : ∀ {n x}, t'.HasNode n x ↔ t.HasNode n x := by
    intro n x
    rw [State.HasNode, State.HasNode, ht'.nodes]
  have hvisible : ∀ {n}, Visible A m t' n ↔ Visible A m t n := by
    intro n
    simp only [Visible, hnode]
  exact {
    nodes := by rw [hs'.nodes, ht'.nodes, h.nodes]
    facts := by rw [hs'.facts, ht'.facts, h.facts]
    procs := by rw [hs'.procs, ht'.procs, h.procs]
    wf := ht'.nodes ▸ ht.nodes
    known := fun n x hx => hknown n x (hnode.1 hx)
    reached := fun key => by
      rw [hs'.reached, ht'.reached, hvisible]
      exact h.reached key
    seeds := by rw [hs'.seeds, ht'.seeds, h.seeds]
    starts := fun hv job hjob => by
      rw [ht'.seeds] at hjob
      obtain ⟨sp, a, hn, -, hseed⟩ := ht.seeds job hjob
      obtain ⟨p, hp⟩ := Supergraph.exists_startOf hA.graph (hA.seeds hv _ hseed)
      exact hvisible.2 (.of_start hA hn hp)
    calls := fun hv a n => by
      have hl := h.forwarding a n
      rw [← hs'.callsFrom, ← ht'.callsFrom] at hl
      refine (forall₂_mem hl).imp ?_
      rintro _ c ⟨hc', hc, e', rfl, he⟩
      exact ⟨rfl, rfl, he.eval_eq hA hv ht.regular hs' ht' (.forwarding hc') (.forwarding hc)⟩
    paths := fun hv n x hx hkeep a b => by
      have hrel := (h.paths n a b).resolve_right fun hlost => by
        obtain ⟨-, ⟨y, hy, hdrop⟩, -⟩ := hlost.2
        obtain rfl := Option.some.inj ((hnode.1 hx).symm.trans hy)
        rw [hkeep] at hdrop
        cases hdrop
      rw [← hs'.paths, ← ht'.paths] at hrel
      refine rel_imp_of_eq hrel fun e' e hef' hef he => ?_
      exact he.eval_eq hA hv ht.regular hs' ht' (.path hef') (.path hef) }

theorem Solver.dropPending_survives [Std.TransOrd L] [Std.LawfulEqOrd L] [Std.TransOrd K]
    [Std.LawfulEqOrd K] {F : D → Prop} (hs : Grounded A F s) {u : Unit}
    (hrun : (dropPending A).run s = .ok (u, s')) : Survives s s' := by
  obtain ⟨hgrounded, htree, -⟩ := (dropPending_ensures (E := fun _ => True) hs).elim hrun
  obtain ⟨store, answers, stats, rfl⟩ := dropPending_frame hrun
  exact {
    nodes := rfl, facts := rfl, procs := rfl, paths := rfl, seeds := rfl, reached := rfl
    callsFrom := fun a n => (CallLedger.forgets_clearByCallee s.ledger).callsFrom a n
    regular := hgrounded.store
    means := fun ef hef φ hφ => (htree ef hef).means hφ }

end Handover

/-! ## More steps -/

variable {σ : Type} [ValueCode σ L]

namespace Solver

section Steps

variable [DecidableEq L]

theorem visitAll_add {n : Nat} {e e' : Evaluation σ L} (h : visitAll A s n e = .ok e') (k : Nat) :
    visitAll A s (n + k) e = .ok e' := by
  induction n generalizing e with
  | zero =>
    unfold visitAll at h
    split at h
    · next hempty =>
      cases k with
      | zero =>
        unfold visitAll
        rw [if_pos hempty, h]
      | succ k =>
        rw [Nat.zero_add, visitAll, (Worklist.pop?_eq_none_iff _).2
          ((Worklist.isEmpty_iff _).1 hempty)]
        exact h
    · cases h
  | succ n ih =>
    rw [Nat.add_right_comm]
    unfold visitAll at h ⊢
    split at h
    · exact h
    · obtain ⟨e₁, hvisit, h⟩ := bind_eq_ok.1 h
      exact bind_eq_ok.2 ⟨e₁, hvisit, ih h⟩

theorem conclude_add {n : Nat} {r : Results σ D L} (h : conclude A σ n s = .ok r) (k : Nat) :
    conclude A σ (n + k) s = .ok r := by
  unfold conclude at h ⊢
  obtain ⟨⟨u, t⟩, hdrop, h⟩ := bind_eq_ok.1 h
  refine bind_eq_ok.2 ⟨(u, t), hdrop, ?_⟩
  obtain ⟨values, hvalues, h⟩ := bind_eq_ok.1 h
  refine bind_eq_ok.2 ⟨values, hvalues, ?_⟩
  by_cases hv : A.config.computeValues = true
  · rw [if_pos hv] at h ⊢
    obtain ⟨e, he, h⟩ := bind_eq_ok.1 h
    refine bind_eq_ok.2 ⟨e, ?_, h⟩
    obtain ⟨e₁, hvisit, he⟩ := bind_eq_ok.1 he
    exact bind_eq_ok.2 ⟨e₁, visitAll_add hvisit k, he⟩
  · rw [if_neg hv] at h ⊢
    exact h

variable [DecidableEq D]

/-- More steps do not change the results. -/
theorem solve_add {n : Nat} {r : Results σ D L} (h : solve A σ n = .ok r) (k : Nat) :
    solve A σ (n + k) = .ok r := by
  unfold solve at h ⊢
  obtain ⟨s₀, hcreate, h⟩ := bind_eq_ok.1 h
  obtain ⟨s₁, hrun, h⟩ := bind_eq_ok.1 h
  exact bind_eq_ok.2 ⟨s₀, hcreate, bind_eq_ok.2 ⟨s₁, run_add hrun k, conclude_add h k⟩⟩

end Steps

end Solver

/-! ## The second phase -/

variable [LawfulCode σ L] [ThriftyCode σ L]

/-- Two states of the second phase that differ in values that are not in `P`. -/
structure EvaluationAlike (P : NodeId → Prop) (e' e : Evaluation σ L) : Prop where
  values : ValueTable.Shows P e'.values e.values
  queue : e'.queue = e.queue
  seen : e'.seen = e.seen
  starts : e'.starts = e.starts
  pending : ∀ job ∈ e.queue.toList, P job.node
  visited : ∀ i ∈ e.starts, P ⟨UInt32.ofNat i⟩

namespace Solver

theorem reachedValues_matches (h : Handover A m s t) :
    Matches (reachedValues s : Except Fault (ValueTable σ L)) (reachedValues t)
      (ValueTable.Shows (Visible A m t)) := by
  classical
  have hlist : s.reached.toList =
      t.reached.toList.filter fun key => decide (Visible A m t ⟨(unpack key).1⟩) :=
    toList_eq_filter fun key => by rw [h.reached, decide_eq_true_iff]
  unfold reachedValues
  rw [hlist]
  refine .foldlM_filter (fun key hkey V' V hV => ?_) (fun key hkey V' V V₁ hV hset => ?_)
    (.empty _ top)
  · exact hV.set (of_decide_eq_true hkey) _ _
  · exact hV.skip (of_decide_eq_false hkey) hset

theorem enqueue_matches (hA : Comparable A) (h : Handover A m s t) {e' e : Evaluation σ L}
    (he : EvaluationAlike (Visible A m t) e' e) (callee : String) (d : FactId) (v : L) :
    Matches (enqueue (A.withGc m) s e' callee d v) (enqueue A t e callee d v)
      (EvaluationAlike (Visible A m t)) := by
  unfold enqueue
  refine .same fun starts hstarts => .ok ?_
  refine List.foldl_rel he fun sp hsp e₁' e₁ he₁ => ?_
  rw [h.nodes]
  split
  · next id hid =>
    refine { he₁ with
      queue := by rw [he₁.queue]
      pending := fun job hjob => ?_ }
    rw [Worklist.toList_push, List.mem_append, List.mem_singleton] at hjob
    rcases hjob with hjob | rfl
    · exact he₁.pending job hjob
    · exact .of_start hA ((Interner.find?_eq_some h.wf).1 hid) ⟨starts, hstarts, hsp⟩
  · exact he₁

theorem forwardAt_matches (hA : Comparable A) (hv : A.config.computeValues = true)
    (h : Handover A m s t) {e' e : Evaluation σ L} (he : EvaluationAlike (Visible A m t) e' e)
    (d : FactId) (v : L) (site : String) :
    Matches (forwardAt (A.withGc m) s d v e' site) (forwardAt A t d v e site)
      (EvaluationAlike (Visible A m t)) := by
  unfold forwardAt
  rw [h.nodes]
  split
  · exact .ok he
  · refine .foldlM (h.calls hv _ _) ?_ he
    rintro c' c - ⟨hcallee, hentry, heval⟩ e₁' e₁ he₁
    rw [heval, hcallee, hentry, h.procs]
    exact .same fun w _ => .same fun callee _ => enqueue_matches hA h he₁ callee _ w

/-- The results show the same, but for what is not visible. -/
structure ResultsAlike (A : Analysis D L K) (m : GcMode) (t : State D L K) (r' r : Results σ D L) :
    Prop where
  nodes : r'.nodes = r.nodes
  facts : r'.facts = r.facts
  named : r.nodes = t.nodes
  values : ValueTable.Shows (Visible A m t) r'.values r.values

theorem ResultsAlike.mem_entries_iff (hA : Comparable A)
    (hknown : ∀ n x, t.HasNode n x → A.graph.Known x) {r' r : Results σ D L}
    (h : ResultsAlike A m t r' r) (node : String) (fact : D) (v : L) :
    (node, fact, v) ∈ r'.entries ↔
      (node, fact, v) ∈ r.entries ∧ (m.isAggressive = true → A.ShownAt node) := by
  rw [Results.mem_entries, Results.mem_entries]
  have hvisible : ∀ {n : UInt32}, r.nodes.get? n = some node →
      (Visible A m t ⟨n⟩ ↔ (m.isAggressive = true → A.ShownAt node)) := fun {n} hn => by
    rw [h.named] at hn
    exact visible_iff hA hn (hknown ⟨n⟩ node hn)
  constructor
  · rintro ⟨n, d, hn, hd, hv⟩
    rw [h.nodes] at hn
    rw [h.facts] at hd
    by_cases hvis : Visible A m t ⟨n⟩
    · rw [h.values.shown _ _ hvis] at hv
      exact ⟨⟨n, d, hn, hd, hv⟩, (hvisible hn).1 hvis⟩
    · rw [h.values.hidden _ _ hvis] at hv
      cases hv
  · rintro ⟨⟨n, d, hn, hd, hv⟩, hshown⟩
    refine ⟨n, d, h.nodes ▸ hn, h.facts ▸ hd, ?_⟩
    rw [h.values.shown _ _ ((hvisible hn).2 hshown)]
    exact hv

/-- Values at nodes that are shown are the same. -/
theorem ResultsAlike.valueAt_eq (hA : Comparable A) (hwf : t.nodes.Wf)
    (hknown : ∀ n x, t.HasNode n x → A.graph.Known x) {r' r : Results σ D L}
    (h : ResultsAlike A m t r' r) {node : String} (hshown : m.isAggressive = true → A.ShownAt node)
    (fact : D) : r'.valueAt node fact = r.valueAt node fact := by
  unfold Results.valueAt Results.node? Results.fact?
  rw [h.nodes, h.facts]
  cases hn : r.nodes.find? node with
  | none => exact h.values.default
  | some n =>
    cases r.facts.find? fact with
    | none => exact h.values.default
    | some d =>
      rw [h.named] at hn
      have hn : t.HasNode ⟨n⟩ node := (Interner.find?_eq_some hwf).1 hn
      have hvisible := (visible_iff hA hn (hknown _ node hn)).2 hshown
      show r'.values.get ⟨n⟩ ⟨d⟩ = r.values.get ⟨n⟩ ⟨d⟩
      rw [ValueTable.get_eq, ValueTable.get_eq, h.values.shown _ _ hvisible, h.values.default]

variable [DecidableEq L]

theorem visit_matches (hA : Comparable A) (hv : A.config.computeValues = true)
    (h : Handover A m s t) {e' e : Evaluation σ L} (he : EvaluationAlike (Visible A m t) e' e)
    {job : ValueJob L} (hjob : Visible A m t job.node) :
    Matches (visit (A.withGc m) s e' job) (visit A t e job) (EvaluationAlike (Visible A m t)) := by
  unfold visit
  simp only
  rw [he.values.get_eq hjob, he.seen, h.nodes]
  split
  · exact .ok he
  · refine (he.values.set hjob _ _).bind fun V' V hV => .same fun node _ => .same fun p _ =>
      .same fun sites _ => ?_
    refine .foldlM_same (fun site _ e₁' e₁ he₁ => forwardAt_matches hA hv h he₁ _ _ site) ?_
    · exact {
        values := hV
        queue := he.queue
        seen := rfl
        starts := by rw [he.starts]
        pending := he.pending
        visited := fun i hi => by
          rcases BitSet.mem_insert.1 hi with rfl | hi
          · rw [NodeId.index, UInt32.ofNat_toNat]
            exact hjob
          · exact he.visited i hi }

theorem visitAll_matches (hA : Comparable A) (hv : A.config.computeValues = true)
    (h : Handover A m s t) {e' e : Evaluation σ L} (he : EvaluationAlike (Visible A m t) e' e)
    (n : Nat) :
    Matches (visitAll (A.withGc m) s n e') (visitAll A t n e)
      (EvaluationAlike (Visible A m t)) := by
  induction n generalizing e' e with
  | zero =>
    unfold visitAll
    rw [he.queue]
    split
    · exact .ok he
    · exact fun _ h => by cases h
  | succ n ih =>
    unfold visitAll
    rw [he.queue]
    split
    · exact .ok he
    · next job queue hpop =>
      have hperm := Worklist.pop?_perm hpop
      have hjob := he.pending job (hperm.mem_iff.2 List.mem_cons_self)
      refine Matches.bind (visit_matches hA hv h ?_ hjob) fun e₁' e₁ he₁ => ih he₁
      exact { he with
        queue := rfl
        pending := fun x hx => he.pending x (hperm.mem_iff.2 (List.mem_cons_of_mem _ hx)) }

variable {V' V V₁ : ValueTable σ L}

theorem evaluateEdge_matches {P : NodeId → Prop} (hV : ValueTable.Shows P V' V) {start n : NodeId}
    (hstart : P start) (hn : P n) {x' x : FactId × FactId × EdgeRef}
    (hx : x'.1 = x.1 ∧ x'.2.1 = x.2.1 ∧ ∀ v, s.store.eval x'.2.2 v = t.store.eval x.2.2 v) :
    Matches (evaluateEdge s start n V' x') (evaluateEdge t start n V x) (ValueTable.Shows P) := by
  obtain ⟨a, b, ef'⟩ := x'
  obtain ⟨_, _, ef⟩ := x
  obtain ⟨rfl, rfl, heval⟩ := hx
  unfold evaluateEdge
  simp only
  rw [heval, hV.get_eq hstart, hV.get_eq hn, hV.contains_eq hn]
  refine .same fun v _ => ?_
  split
  · exact hV.set hn _ _
  · exact .ok hV

theorem evaluateEdge_skip {P : NodeId → Prop} (hV : ValueTable.Shows P V' V) {start n : NodeId}
    (hn : ¬ P n) {x : FactId × FactId × EdgeRef} (hrun : evaluateEdge t start n V x = .ok V₁) :
    ValueTable.Shows P V' V₁ := by
  obtain ⟨a, b, ef⟩ := x
  unfold evaluateEdge at hrun
  simp only [bind_eq_ok] at hrun
  obtain ⟨v, -, hrun⟩ := hrun
  split at hrun
  · exact hV.skip hn hrun
  · exact pure_eq_ok.1 hrun ▸ hV

theorem evaluateNode_matches (hA : Comparable A) (hv : A.config.computeValues = true)
    (h : Handover A m s t) (hV : ValueTable.Shows (Visible A m t) V' V) {start : NodeId}
    (hstart : Visible A m t start) (name : String) {node : String} (hnode : A.graph.Known node) :
    Matches (evaluateNode (A.withGc m) s start name V' node) (evaluateNode A t start name V node)
      (ValueTable.Shows (Visible A m t)) := by
  have hoff : A.config.gcMode.isAggressive = false := by rw [hA.mode]; rfl
  unfold evaluateNode
  split
  · exact .ok hV
  rw [keepAt_withGc hA hnode, h.nodes]
  refine .same fun keep hkeep => ?_
  rw [hoff, Bool.false_and, if_neg Bool.false_ne_true]
  have hid : ∀ {id}, t.nodes.find? node = some id → t.HasNode ⟨id⟩ node := fun hid =>
    (Interner.find?_eq_some h.wf).1 hid
  split
  · next hskip =>
    obtain ⟨haggr, hdrop⟩ := Bool.and_eq_true_iff.1 hskip
    split
    · exact .ok hV
    · next id hfind =>
      have hn : ¬ Visible A m t ⟨id⟩ := fun hvis => by
        obtain ⟨x, hx, hshown⟩ := hvis haggr
        obtain rfl := Option.some.inj ((hid hfind).symm.trans hx)
        obtain rfl := Except.ok.inj (hkeep.symm.trans hshown)
        cases hdrop
      intro V₁ hrun
      refine ⟨V', rfl, foldlM_ok (fun _ V => ValueTable.Shows (Visible A m t) V' V) hrun hV ?_⟩
      exact fun _ _ _ _ _ hV₂ hstep => evaluateEdge_skip hV₂ hn hstep
  · next hshow =>
    have hshown : m.isAggressive = true → keepAt A node true = .ok true := fun haggr => by
      cases keep with
      | true => exact hkeep
      | false => exact absurd (Bool.and_eq_true_iff.2 ⟨haggr, rfl⟩) hshow
    split
    · exact .ok hV
    · next id hfind =>
      have hn : Visible A m t ⟨id⟩ := fun haggr => ⟨node, hid hfind, hshown haggr⟩
      refine .foldlM (PathTable.entries_rel fun a b => h.paths hv _ _ (hid hfind)
        (keepAt_paths hA hv hnode hshown) a b) ?_ hV
      exact fun x' x _ hx V₁' V₁ hV₁ => evaluateEdge_matches hV₁ hstart hn hx

theorem evaluateFrom_matches (hA : Comparable A) (hv : A.config.computeValues = true)
    (h : Handover A m s t) (hV : ValueTable.Shows (Visible A m t) V' V) {i : Nat}
    (hi : Visible A m t ⟨UInt32.ofNat i⟩) :
    Matches (evaluateFrom (A.withGc m) s V' i) (evaluateFrom A t V i)
      (ValueTable.Shows (Visible A m t)) := by
  unfold evaluateFrom
  rw [h.nodes]
  refine .same fun name hname => .same fun p hp => .same fun nodes hnodes => ?_
  refine .foldlM_same (fun node hnode V₁' V₁ hV₁ => ?_) hV
  have hproc := (Supergraph.mem_nodesOf_iff hA.graph).1 ⟨nodes, hnodes, hnode⟩
  exact evaluateNode_matches hA hv h hV₁ hi name (Supergraph.known_of_procOf hproc)

theorem computeValues_matches (hA : Comparable A) (hv : A.config.computeValues = true)
    (h : Handover A m s t) (hV : ValueTable.Shows (Visible A m t) V' V) (n : Nat) :
    Matches (computeValues (A.withGc m) s n V') (computeValues A t n V)
      fun e' e => ValueTable.Shows (Visible A m t) e'.values e.values := by
  unfold computeValues
  rw [h.seeds, h.nodes]
  have hinit : EvaluationAlike (Visible A m t)
      ⟨V', t.seeds.foldl Worklist.push (.empty A.config.queueOrder), ∅,
        .ofCapacity t.nodes.size, 0⟩
      ⟨V, t.seeds.foldl Worklist.push (.empty A.config.queueOrder), ∅,
        .ofCapacity t.nodes.size, 0⟩ := by
    refine ⟨hV, rfl, rfl, rfl, fun job hjob => h.starts hv job ?_, fun i hi => ?_⟩
    · rw [Worklist.toList_pushAll] at hjob
      simpa using hjob
    · exact absurd hi (BitSet.not_mem_ofCapacity _ i)
  refine (visitAll_matches hA hv h hinit n).bind fun e' e he => ?_
  rw [he.starts]
  refine Matches.bind (R := ValueTable.Shows (Visible A m t)) ?_ fun V₁' V₁ hV₁ => .ok hV₁
  refine .foldlM_same (fun i hi V₁' V₁ hV₁ => ?_) he.values
  exact evaluateFrom_matches hA hv h hV₁ (he.visited i (BitSet.mem_toList.1 hi))

theorem conclude_matches (hA : Comparable A) {s₁ t₁ : State D L K} {u' u : Unit}
    (hdrop' : (dropPending (A.withGc m)).run s = .ok (u', s₁))
    (hdrop : (dropPending A).run t = .ok (u, t₁)) (h : Handover A m s₁ t₁) (n : Nat) :
    Matches (conclude (A.withGc m) σ n s) (conclude A σ n t) (ResultsAlike A m t₁) := by
  unfold conclude
  rw [hdrop', hdrop]
  refine Matches.bind (R := ValueTable.Shows (Visible A m t₁)) (reachedValues_matches h)
    fun V' V hV => ?_
  by_cases hv : A.config.computeValues = true
  · rw [if_pos hv, if_pos (show (A.withGc m).config.computeValues = true from hv)]
    refine (computeValues_matches hA hv h hV n).bind fun e' e he => .ok ?_
    exact ⟨h.nodes, h.facts, rfl, he⟩
  · rw [if_neg hv, if_neg (show ¬ (A.withGc m).config.computeValues = true from hv)]
    exact .ok ⟨h.nodes, h.facts, rfl, hV⟩

variable [DecidableEq D] [Std.TransOrd D] [Std.LawfulEqOrd D] [Std.TransOrd L] [Std.LawfulEqOrd L]
  [Std.TransOrd K] [Std.LawfulEqOrd K]

theorem run_grounded (hA : Comparable A) (hcreate : create A = .ok s) {n : Nat}
    (hrun : run A n s = .ok t) : Grounded A (fun _ => True) t := by
  obtain ⟨hgrounded, hfresh, -⟩ := create_grounded A.confined_true hcreate
  cases n with
  | zero =>
    rw [run, if_neg (by simp [hfresh])] at hrun
    cases hrun
  | succ n =>
    have hstep := hrun
    rw [run, if_neg (by simp [hfresh]), bind_eq_ok] at hstep
    obtain ⟨⟨u, t₁⟩, hstep, -⟩ := hstep
    rw [run_step_fresh hfresh] at hstep
    have hP : Groundwork A (fun _ => True) fun _ => True :=
      ⟨hA.graph, A.confined_true, begin_knows hstep, .inl trivial⟩
    have hreturns := Booked.run_returns hP trivial (n + 1) hgrounded (create_booked hcreate)
    rw [hrun] at hreturns
    exact hreturns.1

/-- If a run without collection returns, so does one with collection, and with alike results. -/
theorem exists_solve_alike (hA : Comparable A) (hm : m.isEnabled = true) {steps : Nat}
    {r : Results σ D L} (hsolve : solve A σ steps = .ok r) :
    ∃ N r' t, (∀ n, N ≤ n → solve (A.withGc m) σ n = .ok r') ∧ ResultsAlike A m t r' r ∧
      t.nodes.Wf ∧ ∀ n x, t.HasNode n x → A.graph.Known x := by
  obtain ⟨s₀, hcreate, hr⟩ := bind_eq_ok.1 hsolve
  obtain ⟨t, hrun, hr⟩ := bind_eq_ok.1 hr
  obtain ⟨w, n, s, hrun', hpaired, -⟩ := exists_run_paired hA hm hcreate hrun
  have hground := run_grounded hA hcreate hrun
  have hcomplete := run_create_spec hA.scope hcreate hrun
  have ⟨⟨u, t₁⟩, hdrop, _⟩ := bind_eq_ok.1 hr
  obtain ⟨⟨⟩, s₁, hdrop', -⟩ := (dropPending_ensures hpaired.grounded).exists_ok
  have hkept := dropPending_survives hground hdrop
  have hover := hpaired.mirrors.handover hA hcomplete hground.known
    (dropPending_survives hpaired.grounded hdrop') hkept
  obtain ⟨r', hr', halike⟩ := conclude_matches hA hdrop' hdrop hover steps r hr
  refine ⟨n + steps, r', t₁, fun k hk => ?_, halike, hover.wf, hover.known⟩
  obtain ⟨j, rfl⟩ := Nat.exists_eq_add_of_le hk
  refine solve_add ?_ j
  refine bind_eq_ok.2 ⟨s₀, hcreate, bind_eq_ok.2 ⟨s, run_add hrun' steps, ?_⟩⟩
  rw [Nat.add_comm]
  exact conclude_add hr' n

/-- Collection reports the same, or what is shown of it. -/
theorem exists_solve_collected (hA : Comparable A) (hm : m.isEnabled = true) {steps : Nat}
    {r : Results σ D L} (hsolve : solve A σ steps = .ok r) :
    ∃ N r', (∀ n, N ≤ n → solve (A.withGc m) σ n = .ok r') ∧ ∀ node fact v,
      (node, fact, v) ∈ r'.entries ↔
        (node, fact, v) ∈ r.entries ∧ (m.isAggressive = true → A.ShownAt node) := by
  obtain ⟨N, r', t, hN, halike, -, hknown⟩ := exists_solve_alike hA hm hsolve
  exact ⟨N, r', hN, halike.mem_entries_iff hA hknown⟩

/-- In every mode, numbers run out if they do so without collection. -/
theorem RunsOut.withGc (hA : Comparable A) (m : GcMode) (h : RunsOut A) : RunsOut (A.withGc m) := by
  by_cases hm : m.isEnabled = true
  · obtain ⟨n, h⟩ := h
    cases hcreate : create A with
    | error f =>
      refine ⟨0, ?_⟩
      rw [hcreate] at h
      rw [show create (A.withGc m) = .error f from hcreate]
      exact congrArg Except.error (Except.error.inj h)
    | ok s =>
      rw [hcreate] at h
      obtain ⟨n', h'⟩ := exists_run_exhausted hA hm hcreate h
      refine ⟨n', ?_⟩
      rw [show create (A.withGc m) = .ok s from hcreate]
      exact h'
  · obtain rfl : m = .disabled := by simpa [GcMode.isEnabled] using hm
    have hsame : A.withGc .disabled = A := by rw [← hA.mode]; rfl
    rwa [hsame]

/-- In every mode, a run returns if the one without collection does, and values at nodes that are
shown are the same. -/
theorem exists_solve_valueAt (hA : Comparable A) (m : GcMode) {steps : Nat} {r : Results σ D L}
    (hsolve : solve A σ steps = .ok r) :
    ∃ N r', (∀ n, N ≤ n → solve (A.withGc m) σ n = .ok r') ∧ ∀ node fact,
      (m.isAggressive = true → A.ShownAt node) → r'.valueAt node fact = r.valueAt node fact := by
  by_cases hm : m.isEnabled = true
  · obtain ⟨N, r', t, hN, halike, hwf, hknown⟩ := exists_solve_alike hA hm hsolve
    exact ⟨N, r', hN, fun node fact hshown => halike.valueAt_eq hA hwf hknown hshown fact⟩
  · obtain rfl : m = .disabled := by simpa [GcMode.isEnabled] using hm
    have hsame : A.withGc .disabled = A := by rw [← hA.mode]; rfl
    refine ⟨steps, r, fun n hn => ?_, fun _ _ _ => rfl⟩
    obtain ⟨j, rfl⟩ := Nat.exists_eq_add_of_le hn
    rw [hsame]
    exact solve_add hsolve j

end Solver

end Tabulation
