import Tabulation.Proofs.LiveHandles

/-!
# What results mention has a name

In every state of a run, the nodes and facts that were reached or seeded have names, and the zero
fact has the number 0. The second phase writes values only for nodes and facts with names, so the
same holds of its table.

**Tables.** `computeValues_keeps` is the induction over the second phase: what every write for a
node and a fact with names keeps holds of the table at its end.
-/

namespace Tabulation

variable {D L K : Type} [Ord D] [Ord L] [Ord K] {A : Analysis D L K} {s s' : State D L K}

/-- The node and the fact have names. -/
def State.Names (s : State D L K) (n : NodeId) (d : FactId) : Prop :=
  (∃ y, s.HasNode n y) ∧ ∃ y, s.HasFact d y

theorem State.Names.mono {n : NodeId} {d : FactId} (h : s.Names n d) (hg : s.Grows s') :
    s'.Names n d :=
  ⟨h.1.imp fun _ => hg.nodes _ _, h.2.imp fun _ => hg.facts _ _⟩

/-- What is reported and what was seeded has names. -/
structure Mentioned (A : Analysis D L K) (s : State D L K) : Prop where
  zero : s.HasFact .zero A.problem.zero
  reached : ∀ key, s.reached.contains key = true → s.Names ⟨(unpack key).1⟩ ⟨(unpack key).2⟩
  seeds : ∀ job ∈ s.seeds, s.Names job.node job.fact

theorem Mentioned.grow (h : Mentioned A s) (hg : s.Grows s')
    (hreached : ∀ key, s'.reached.contains key = true →
      s.reached.contains key = true ∨ s'.Names ⟨(unpack key).1⟩ ⟨(unpack key).2⟩)
    (hseeds : ∀ job ∈ s'.seeds, job ∈ s.seeds ∨ s'.Names job.node job.fact) : Mentioned A s' where
  zero := hg.facts _ _ h.zero
  reached key hkey := (hreached key hkey).elim (fun hk => (h.reached key hk).mono hg) id
  seeds job hjob := (hseeds job hjob).elim (fun hj => (h.seeds job hj).mono hg) id

/-- Names, reports and seeds are all that is spoken of. -/
theorem Mentioned.congr (h : Mentioned A s) (hn : s'.nodes = s.nodes) (hd : s'.facts = s.facts)
    (hseeds : s'.seeds = s.seeds) (hreached : s'.reached = s.reached) : Mentioned A s' where
  zero := by
    rw [State.HasFact, hd]
    exact h.zero
  reached key hkey := by
    simp only [State.Names, State.HasNode, State.HasFact, hn, hd]
    exact h.reached key (hreached ▸ hkey)
  seeds job hjob := by
    simp only [State.Names, State.HasNode, State.HasFact, hn, hd]
    exact h.seeds job (hseeds ▸ hjob)

theorem Solver.create_mentioned (h : create A = .ok s) : Mentioned A s := by
  simp only [create, bind_eq_ok, pure_eq_ok] at h
  obtain ⟨facts, hfacts, procs, -, store, -, rfl⟩ := h
  refine ⟨?_, fun key hk => by simp at hk, fun _ hjob => absurd hjob List.not_mem_nil⟩
  simp only [internAll, List.foldlM_cons, List.foldlM_nil, bind_eq_ok, pure_eq_ok] at hfacts
  obtain ⟨facts', ⟨⟨i, t⟩, hi, rfl⟩, rfl⟩ := hfacts
  have hnew : Interner.intern .empty A.problem.zero = .ok (0, ⟨_, #[A.problem.zero]⟩) := rfl
  obtain ⟨-, rfl⟩ := Prod.mk.inj (Except.ok.inj (hnew.symm.trans hi))
  rfl

/-! ## The first phase -/

section Moves

variable [Payload K L]

variable [DecidableEq D] [JoinLattice L] [DecidableEq L] {F : D → Prop}

theorem Effect.mentioned (he : Effect A F s s') (h : Mentioned A s) : Mentioned A s' := by
  have hg := he.grows
  have hseed : s'.seeds = s.seeds → ∀ job ∈ s'.seeds, job ∈ s.seeds ∨ s'.Names job.node job.fact :=
    fun heq job hjob => .inl (heq ▸ hjob)
  cases he with
  | quiet _ hq _ _ _ => exact h.grow hg (fun key hk => .inl (hq.reached ▸ hk)) (hseed hq.seeds)
  | path hx _ _ hreached =>
    refine h.grow hg (fun key hk => ?_) (hseed rfl)
    rcases hreached key hk with hk | rfl
    · exact .inl hk
    · rw [unpack_pack]
      exact .inr (State.Names.mono ⟨hx.node, hx.target⟩ hg)
  | seed hn hd =>
    refine h.grow hg (fun _ hk => .inl hk) fun job hjob => ?_
    rcases List.mem_append.1 hjob with hjob | hjob
    · exact .inl hjob
    · rw [List.mem_singleton.1 hjob]
      exact .inr (State.Names.mono ⟨hn, hd⟩ hg)
  | key _ => exact h.congr rfl rfl rfl rfl
  | summary _ _ _ => exact h.congr rfl rfl rfl rfl
  | call _ => exact h.congr rfl rfl rfl rfl
  | link _ _ _ => exact h.congr rfl rfl rfl rfl

theorem Effects.mentioned (he : Effects A F s s') (h : Mentioned A s) : Mentioned A s' := by
  induction he with
  | refl => exact h
  | tail _ he ih => exact he.mentioned ih

namespace Solver

theorem Transition.mentioned (ht : Transition A F s s') (h : Mentioned A s) : Mentioned A s' := by
  cases ht with
  | begin _ ht _ => exact (ht.mentioned h).congr rfl rfl rfl rfl
  | take _ _ _ _ ht => exact ht.mentioned (h.congr rfl rfl rfl rfl)
  | keys _ _ _ => exact h.congr rfl rfl rfl rfl
  | replay _ ht => exact ht.mentioned (h.congr rfl rfl rfl rfl)
  | stop _ ht _ _ => exact h.congr ht.nodes ht.facts ht.seeds ht.reached
  | again _ ht _ _ _ => exact h.congr ht.nodes ht.facts ht.seeds ht.reached

variable [Std.TransOrd D] [Std.LawfulEqOrd D] [Std.TransOrd L] [Std.LawfulEqOrd L] [Std.TransOrd K]
  [Std.LawfulEqOrd K]

theorem Reachable.mentioned (hgraph : A.graph.Built) (hs : Reachable A s) : Mentioned A s := by
  refine hs.keeps hgraph (fun _ h => create_mentioned h) fun s t hP hg h hn => ?_
  cases hn with
  | move hstage hrun => exact ((step_ensures hP hg hstage).elim hrun).mentioned h
  | drop _ hrun =>
    obtain ⟨store, answers, stats, rfl⟩ := dropPending_frame hrun
    exact h.congr rfl rfl rfl rfl

end Solver

end Moves

/-! ## The second phase -/

section Values

variable {σ : Type} [ValueCode σ L] {N : NodeId → FactId → Prop} {P : ValueTable σ L → Prop}

/-- Nodes and facts with names are in `N`, and writes for what is in `N` keep `P`. -/
structure State.Keeps (s : State D L K) (N : NodeId → FactId → Prop) (P : ValueTable σ L → Prop) :
    Prop where
  names : ∀ n d, s.Names n d → N n d
  set : ∀ t t' n d v, N n d → P t → t.set n d v = .ok t' → P t'

/-- `P` holds of the table, and the pending values are for nodes and facts in `N`. -/
structure Evaluation.Within (N : NodeId → FactId → Prop) (P : ValueTable σ L → Prop)
    (e : Evaluation σ L) : Prop where
  values : P e.values
  queue : ∀ job ∈ e.queue.toList, N job.node job.fact

namespace Solver

variable {e : Evaluation σ L} {t : ValueTable σ L}

/-- The faults of the second phase do not matter here. -/
abbrev Leaves {α : Type} (x : Except Fault α) (Q : α → Prop) : Prop := Returns (fun _ => True) x Q

theorem leaves_any {α : Type} (x : Except Fault α) : Leaves x fun a => x = .ok a :=
  .of_forall (fun _ h => h) fun _ _ => trivial

theorem Leaves.elim {α : Type} {x : Except Fault α} {Q : α → Prop} (h : Leaves x Q) {a : α}
    (ha : x = .ok a) : Q a := by
  rw [ha] at h
  exact h

theorem enqueue_keeps (hP : s.Keeps N P) (hs : s.nodes.Wf) (he : e.Within N P) {callee : String}
    {d : FactId} {v : L} (hd : ∃ y, s.HasFact d y) :
    Leaves (enqueue A s e callee d v) fun e => e.Within N P := by
  refine (leaves_any _).bind fun starts hstarts => ?_
  clear hstarts
  show Evaluation.Within N P _
  induction starts generalizing e with
  | nil => exact he
  | cons start starts ih =>
    rw [List.foldl_cons]
    refine ih ?_
    split
    · next id hid =>
      refine ⟨he.values, fun job hjob => ?_⟩
      rw [Worklist.toList_push] at hjob
      rcases List.mem_append.1 hjob with hjob | hjob
      · exact he.queue job hjob
      · rw [List.mem_singleton.1 hjob]
        exact hP.names _ _ ⟨⟨start, (Interner.find?_eq_some hs).1 hid⟩, hd⟩
    · exact he

variable [JoinLattice L]

theorem reachedValues_keeps (hP : s.Keeps N P) (hm : Mentioned A s) (hempty : P (.empty top)) :
    Leaves (reachedValues s : Except Fault (ValueTable σ L)) P := by
  refine .foldlM _ hempty fun key hkey t ht => ?_
  refine (leaves_any _).imp fun t' hset => hP.set _ _ _ _ _ ?_ ht hset
  exact hP.names _ _ (hm.reached key (Std.TreeSet.mem_toList.1 hkey))

variable [DecidableEq L] [Payload K L]

theorem evaluateEdge_keeps (hP : s.Keeps N P) (start : NodeId) {node : NodeId}
    {entry : FactId × FactId × EdgeRef} (hentry : N node entry.2.1) (ht : P t) :
    Leaves (evaluateEdge s start node t entry) P := by
  refine (leaves_any _).bind fun v _ => ?_
  dsimp only
  split
  · exact (leaves_any _).imp fun t' hset => hP.set _ _ _ _ _ hentry ht hset
  · exact ht

variable [DecidableEq D] {F : D → Prop}

theorem forwardAt_keeps (hP : s.Keeps N P) (hs : Grounded A F s) (he : e.Within N P) (d : FactId)
    (v : L) (site : String) : Leaves (forwardAt A s d v e site) fun e => e.Within N P := by
  unfold forwardAt
  split
  · exact he
  · refine .foldlM _ he fun c hc e he => ?_
    have hrec := hs.records c (hs.callsFrom _ _ c hc)
    exact (leaves_any _).bind fun _ _ => (leaves_any _).bind fun _ _ =>
      enqueue_keeps hP hs.nodes he hrec.entry

theorem visit_keeps (hP : s.Keeps N P) (hs : Grounded A F s) (he : e.Within N P)
    {job : ValueJob L} (hjob : N job.node job.fact) :
    Leaves (visit A s e job) fun e => e.Within N P := by
  unfold visit
  dsimp only
  split
  · exact he
  refine (leaves_any _).bind fun values hset => (leaves_any _).bind fun node _ => ?_
  refine (leaves_any _).bind fun proc _ => (leaves_any _).bind fun sites _ => ?_
  refine .foldlM _ ?_ fun site _ e he => forwardAt_keeps hP hs he _ _ site
  exact ⟨hP.set _ _ _ _ _ hjob he.values hset, he.queue⟩

theorem visitAll_keeps (hP : s.Keeps N P) (hs : Grounded A F s) (n : Nat) (he : e.Within N P) :
    Leaves (visitAll A s n e) fun e => e.Within N P := by
  induction n generalizing e with
  | zero =>
    unfold visitAll
    split
    · exact he
    · trivial
  | succ n ih =>
    unfold visitAll
    split
    · exact he
    · next job queue hpop =>
      have hperm := Worklist.pop?_perm hpop
      have hrest : ({ e with queue, jobs := e.jobs + 1 } : Evaluation σ L).Within N P :=
        ⟨he.values, fun x hx => he.queue x (hperm.mem_iff.2 (List.mem_cons_of_mem _ hx))⟩
      have hjob := he.queue job (hperm.mem_iff.2 List.mem_cons_self)
      exact (visit_keeps hP hs hrest hjob).bind fun e he => ih he

theorem evaluateNode_keeps (hP : s.Keeps N P) (hs : Grounded A F s) (start : NodeId)
    (name node : String) (ht : P t) : Leaves (evaluateNode A s start name t node) P := by
  unfold evaluateNode
  split
  · exact ht
  refine (leaves_any _).bind fun keep _ => ?_
  split
  · exact ht
  split
  · exact ht
  · refine .foldlM _ ht fun x hx t ht => ?_
    have hpath := hs.paths _ _ _ _ (PathTable.mem_entries.1 hx)
    exact evaluateEdge_keeps hP start (hP.names _ _ ⟨hpath.node, hpath.target⟩) ht

theorem evaluateFrom_keeps (hP : s.Keeps N P) (hs : Grounded A F s) (i : Nat) (ht : P t) :
    Leaves (evaluateFrom A s t i) P := by
  refine (leaves_any _).bind fun name _ => (leaves_any _).bind fun proc _ => ?_
  exact (leaves_any _).bind fun nodes _ => .foldlM _ ht fun node _ t ht =>
    evaluateNode_keeps hP hs _ name node ht

theorem computeValues_keeps (hP : s.Keeps N P) (hs : Grounded A F s) (hm : Mentioned A s)
    (steps : Nat) (ht : P t) : Leaves (computeValues A s steps t) fun e => P e.values := by
  refine (visitAll_keeps hP hs steps ⟨ht, fun job hjob => ?_⟩).bind fun e he => ?_
  · rw [Worklist.toList_pushAll] at hjob
    exact hP.names _ _ (hm.seeds job hjob)
  · exact Returns.bind (.foldlM P he.values fun i _ t ht => evaluateFrom_keeps hP hs i ht)
      fun _ ht => ht

end Solver

end Values

end Tabulation
