import Tabulation.Proofs.LiveHandles
import Tabulation.Proofs.PathValues
import Tabulation.Proofs.PlainRuns

/-!
# No update is lost

After fact propagation, the stored functions are a post-fixpoint of the rules of propagation: what a
rule makes of stored functions is below a stored function again. `Closed` says this rule by rule:
along the edges inside a procedure, into callees, and across callees.

- `Complete.closed`: a run ends closed, in whatever order path edges, calls and summaries came up.
  Edge functions need not respect the order.
- `postFixpoint_of_run`: how this relates to the plain rules, `PostFixpoint`.

**Exceptions.** In a run without values all labels are the identity, so only the presence of
functions can be told. And a callee may return bottom instead of what is stored at its exit point:
its summary in the table is joined from all that was ever stored there, and a join of too many parts
is widened. Bottom is no worse than what is stored unless the function of the return edge does not
respect the order, `not_postFixpoint`.
-/

namespace Tabulation

variable {D L K : Type} {A : Analysis D L K} {n : String} {a d : D}

theorem Analysis.mem_targets_identity [DecidableEq D] : d ∈ A.targets .identity d := by
  have hmem : d ∈ FlowFunction.targets .identity d := List.mem_singleton.2 rfl
  simp only [Analysis.targets, Answers.targets]
  split
  · exact List.mem_append_left _ hmem
  · exact hmem

/-! ## Stored functions -/

variable [Ord D] [Ord L] [Ord K] {s : State D L K}

theorem Solver.pathEdge?_eq_some (hn : s.nodes.Wf) (hd : s.facts.Wf) {ef : EdgeRef} :
    Solver.pathEdge? s n a d = some ef ↔ ∃ k i j, s.HasNode k n ∧ s.HasFact i a ∧ s.HasFact j d ∧
      s.paths.get? k i j = some ef := by
  simp only [Solver.pathEdge?, Option.bind_eq_bind, Option.bind_eq_some_iff]
  constructor
  · rintro ⟨k, hk, i, hi, j, hj, hef⟩
    exact ⟨⟨k⟩, ⟨i⟩, ⟨j⟩, (Interner.find?_eq_some hn).1 hk, (Interner.find?_eq_some hd).1 hi,
      (Interner.find?_eq_some hd).1 hj, hef⟩
  · rintro ⟨⟨k⟩, ⟨i⟩, ⟨j⟩, hk, hi, hj, hef⟩
    exact ⟨k, (Interner.find?_eq_some hn).2 hk, i, (Interner.find?_eq_some hd).2 hi, j,
      (Interner.find?_eq_some hd).2 hj, hef⟩

variable [JoinLattice L] [Payload K L]

/-- The function that is stored for a path edge. -/
def State.Stores (s : State D L K) (n : String) (a d : D) (φ : L → L) : Prop :=
  ∃ ef, Solver.pathEdge? s n a d = some ef ∧ ∀ v, s.store.eval ef v = .ok (φ v)

/-- A function is stored and, if labels count, it is above the given one. -/
def State.StoresAbove (labels : Prop) (s : State D L K) (n : String) (a d : D) (φ : L → L) : Prop :=
  ∃ ψ, s.Stores n a d ψ ∧ (labels → ∀ v, Below (φ v) (ψ v))

/-- What callees return: what is stored, or bottom if a summary in the table may have been widened.
-/
def Analysis.ReturnsAs (A : Analysis D L K) (s : State D L K) (σ τ : L → L) : Prop :=
  τ = σ ∨ A.config.useSummaryTable = true ∧ A.config.joinLimit ≤ s.store.interned ∧
    τ = fun _ => bottom

theorem State.Stores.eval_eq {φ : L → L} (h : s.Stores n a d φ) {ef : EdgeRef} {v w : L}
    (hef : Solver.pathEdge? s n a d = some ef) (hv : s.store.eval ef v = .ok w) : φ v = w := by
  obtain ⟨ef', hef', heval⟩ := h
  obtain rfl := Option.some.inj (hef.symm.trans hef')
  exact Except.ok.inj ((heval v).symm.trans hv)

variable [DecidableEq D]

/-- What the rules of propagation make of stored functions is below stored functions. Callees that
store `σ` at an exit point may return some `τ` with `returns σ τ` instead. -/
structure Closed (A : Analysis D L K) (labels : Prop) (returns : (L → L) → (L → L) → Prop)
    (s : State D L K) : Prop where
  inside : ∀ n a d φ, s.Stores n a d φ → ∀ m t e, A.Inside n d m t e →
    s.StoresAbove labels m a t fun v => e.apply (φ v)
  enter : ∀ n a d φ, s.Stores n a d φ → ∀ q t e sp, A.Enter n d q t e → A.graph.StartOf q sp →
    s.StoresAbove labels sp t t id
  across : ∀ n a d φ, s.Stores n a d φ → ∀ q t e sp, A.Enter n d q t e → A.graph.StartOf q sp →
    ∀ x u σ, s.Stores x t u σ → ∀ m w e', A.Leave n q x u m w e' →
      ∃ τ, returns σ τ ∧ s.StoresAbove labels m a w fun v => e'.apply (τ (e.apply (φ v)))

/-- The stored functions are a post-fixpoint of the rules of propagation. -/
def PostFixpoint (A : Analysis D L K) (s : State D L K) : Prop :=
  Closed A True (fun σ τ => τ = σ) s

/-- Bottom is no worse than what is stored if return edges respect the order. -/
theorem Closed.postFixpoint (hlaws : LawfulLabels L K) (h : Closed A True (A.ReturnsAs s) s)
    (hreturns : A.config.useSummaryTable = false ∨ s.store.interned < A.config.joinLimit ∨
      ∀ n q x d m t, Respects (A.problem.returnEdge n q x d m t).apply) : PostFixpoint A s := by
  refine ⟨h.inside, h.enter, fun n a d φ hφ q t e sp he hsp x u σ hσ m w e' he' => ⟨σ, rfl, ?_⟩⟩
  obtain ⟨τ, hτ, ψ, hψ, hle⟩ := h.across n a d φ hφ q t e sp he hsp x u σ hσ m w e' he'
  refine ⟨ψ, hψ, fun _ v => ?_⟩
  rcases hτ with rfl | ⟨htable, hlimit, rfl⟩
  · exact hle trivial v
  · have := hlaws.join
    rcases hreturns with hoff | hlt | hrespects
    · rw [hoff] at htable
      cases htable
    · exact absurd hlimit (Nat.not_le.2 hlt)
    · refine Below.trans ?_ (hle trivial v)
      cases he' with
      | intro => exact hrespects _ _ _ _ _ _ _ _ (below_bottom _)

variable [DecidableEq L]

theorem Complete.pathEdge?_eq_some (h : Complete A s) {ef : EdgeRef} :
    Solver.pathEdge? s n a d = some ef ↔ ∃ k i j, s.HasNode k n ∧ s.HasFact i a ∧ s.HasFact j d ∧
      s.paths.get? k i j = some ef := Solver.pathEdge?_eq_some h.nodes h.facts

/-- What a run stores can be evaluated. -/
theorem Complete.exists_stores (h : Complete A s)
    (halive : ∀ n a b ef, s.paths.get? n a b = some ef → s.store.Alive ef)
    (hpath : s.HasPath n a d) : ∃ φ, s.Stores n a d φ := by
  obtain ⟨k, i, j, ef, hk, hi, hj, hef⟩ := hpath
  obtain ⟨φ, hφ⟩ := h.regular.means (halive k i j ef hef)
  exact ⟨φ, ef, h.pathEdge?_eq_some.2 ⟨k, i, j, hk, hi, hj, hef⟩, h.regular.eval hφ⟩

theorem Complete.stores_identity (h : Complete A s)
    (hef : Solver.pathEdge? s n a d = some .identity) : s.Stores n a d id :=
  ⟨_, hef, h.regular.eval (.leaf h.regular.identity rfl)⟩

/-- What is stored was crossed, with the stored function as label. -/
theorem Complete.crossed_of_stores (h : Complete A s) {φ : L → L} (hφ : s.Stores n a d φ) :
    ∃ x ψ, s.HasFact x.source a ∧ s.paths.get? x.node x.source x.target = some x.edge ∧
      CrossedAs A s x n d ψ ∧ (A.Valued → ψ = φ) := by
  obtain ⟨ef, hlookup, heval⟩ := hφ
  obtain ⟨k, i, j, hk, hi, hj, hef⟩ := h.pathEdge?_eq_some.1 hlookup
  obtain ⟨node, fact, ψ, hx⟩ := h.crossed k i j ef hef
  obtain rfl := Option.some.inj (hx.hasNode.symm.trans hk)
  obtain rfl := Option.some.inj (hx.hasFact.symm.trans hj)
  refine ⟨_, ψ, hi, hef, hx, fun hv => funext fun v => ?_⟩
  exact ((hx.label hv).eval_eq (heval v)).symm

/-- Covered functions are below stored ones. -/
theorem Covered.storesAbove (h : Complete A s) (hlaws : LawfulLabels L K)
    (halive : ∀ n a b ef, s.paths.get? n a b = some ef → s.store.Alive ef) {i : FactId}
    (hi : s.HasFact i a) {φ φ' : L → L} (hcov : Covered A s n i d φ)
    (hφ : A.Valued → ∀ v, Below (φ' v) (φ v)) :
    s.StoresAbove (A.config.computeValues = true) n a d φ' := by
  obtain ⟨k, j, ef, hk, hj, hef, hcov⟩ := hcov
  obtain ⟨ψ, hψ⟩ := h.regular.means (halive k i j ef hef)
  refine ⟨ψ, ⟨ef, h.pathEdge?_eq_some.2 ⟨k, i, j, hk, hi, hj, hef⟩, h.regular.eval hψ⟩,
    fun hv v => ?_⟩
  have := hlaws.join
  obtain ⟨ψ', hψ', hle⟩ := hcov ⟨hv, hlaws⟩
  rw [hψ.unique hψ']
  exact (hφ ⟨hv, hlaws⟩ v).trans (hle v)

/-! ## What callees return -/

/-- A summary that is read at a call is what is stored at the exit point, or was widened. -/
theorem Complete.summary_returns (h : Complete A s) (hgc : A.config.gcMode = .disabled)
    (hv : A.Valued) {x : PathEdge} {ψ σ : L → L} {p : ProcId} {ef : EdgeRef}
    (hx : s.paths.get? x.node x.source x.target = some x.edge) (hψ : s.store.Means x.edge ψ)
    (hsum : Summary A s p x.source x.node x.target ef) (hcov : A.Covers s.store ef ψ)
    (hσ : s.store.Means ef σ) : A.ReturnsAs s ψ σ := by
  have := hv.2.join
  cases hsum with
  | table htable hsum =>
    rcases (h.summaries _ _ _ _ _ hsum).2 hv with ⟨ef', hef', hle⟩ | ⟨hbottom, hlimit⟩
    · obtain rfl := Option.some.inj (hx.symm.trans hef')
      obtain ⟨ψ', hψ', hle⟩ := hle hv σ hσ
      obtain rfl := hψ.unique hψ'
      obtain ⟨σ', hσ', hge⟩ := hcov hv
      obtain rfl := hσ.unique hσ'
      exact .inl (funext fun v => (hle v).antisymm (hge v))
    · exact .inr ⟨htable, hlimit hgc, funext (hbottom σ hσ)⟩
  | path _ _ hef _ =>
    obtain rfl := Option.some.inj (hx.symm.trans hef)
    exact .inl (hσ.unique hψ)

/-- Everything that the rules of propagation ask for is stored. -/
theorem Complete.closed (h : Complete A s) (hlaws : LawfulLabels L K)
    (hgc : A.config.gcMode = .disabled)
    (halive : ∀ n a b ef, s.paths.get? n a b = some ef → s.store.Alive ef) :
    Closed A (A.config.computeValues = true) (A.ReturnsAs s) s := by
  have := hlaws.join
  refine ⟨fun n a d φ hφ m t e he => ?_, fun n a d φ hφ q t e sp he hsp => ?_,
    fun n a d φ hφ q t e sp he hsp exit u σ hσ m w e' he' => ?_⟩
  · obtain ⟨x, ψ, hsource, -, hx, hlabel⟩ := h.crossed_of_stores hφ
    refine (hx.inside m t e he).storesAbove h hlaws halive hsource fun hv v => ?_
    rw [← hlabel hv]
    exact Below.refl _
  · obtain ⟨x, ψ, -, -, hx, -⟩ := h.crossed_of_stores hφ
    obtain ⟨c, -, -, -, -, hentry, -, hcov⟩ := hx.enter q t e sp he hsp
    exact hcov.storesAbove h hlaws halive hentry fun _ v => Below.refl _
  · obtain ⟨x, ψ, hsource, -, hx, hlabel⟩ := h.crossed_of_stores hφ
    obtain ⟨c, hc, hcsource, hcsite, hcallee, hentry, hcall, -⟩ := hx.enter q t e sp he hsp
    obtain ⟨y, χ, hysource, hy, hcrossed, hylabel⟩ := h.crossed_of_stores hσ
    have heq : y.source = c.entry :=
      congrArg FactId.mk (Interner.get?_inj h.facts hysource hentry)
    obtain ⟨hexit, hno⟩ : A.graph.ExitOf q exit ∧ A.graph.isCallSite exit = .ok false := by
      cases he' with
      | intro hexit hno => exact ⟨hexit, hno⟩
    -- The exit point has a summary, and it was applied to the call.
    obtain ⟨ef, hsum, hcov⟩ := h.summary hy hcrossed hexit hno hcallee
    obtain ⟨site', callee', exit', fact', χ', τ, happ⟩ := h.returned c hc _ _ _ (heq ▸ hsum)
    obtain rfl := Option.some.inj (happ.hasSite.symm.trans (hcsite ▸ hx.hasNode))
    obtain rfl := Option.some.inj (happ.hasCallee.symm.trans hcallee)
    obtain rfl := Option.some.inj (happ.hasExit.symm.trans hcrossed.hasNode)
    obtain rfl := Option.some.inj (happ.hasFact.symm.trans hcrossed.hasFact)
    have hleave := happ.leave m w e' he'
    by_cases hv : A.Valued
    · refine ⟨τ, ?_, hleave.storesAbove h hlaws halive (hcsource ▸ hsource) fun _ v => ?_⟩
      · rw [← hylabel hv]
        exact h.summary_returns hgc hv hy (hcrossed.label hv) hsum hcov (happ.summary hv)
      · rw [(happ.call hv).unique (hcall hv), hlabel hv]
        exact Below.refl _
    · refine ⟨σ, .inl rfl, hleave.storesAbove h hlaws halive (hcsource ▸ hsource) fun hv' => ?_⟩
      exact absurd hv' hv

variable [Std.TransOrd D] [Std.LawfulEqOrd D]

/-- The handles of path edges are alive after a run, whether or not it computes values. -/
theorem Solver.alive_of_run (hlaws : LawfulLabels L K) (hgraph : A.graph.Built) {s₀ : State D L K}
    {steps : Nat} (hcreate : create A = .ok s₀) (hrun : run A steps s₀ = .ok s)
    (h : Complete A s) (k : NodeId) (i j : FactId) (ef : EdgeRef)
    (hef : s.paths.get? k i j = some ef) : s.store.Alive ef := by
  have := hlaws.transL
  have := hlaws.lawfulL
  have := hlaws.transK
  have := hlaws.lawfulK
  have hseeds : ∀ x ∈ A.problem.seeds.toList, A.graph.Known x.1 := by
    rintro ⟨sp, a, v⟩ hx
    obtain ⟨_, -, -, -, -, k, j, ef, hk, -, hef, -⟩ := h.submitted sp a v hx
    obtain ⟨_, node, _, _, _, hfacts⟩ := h.paths _ _ _ _ hef
    obtain rfl := Option.some.inj (hfacts.hasNode.symm.trans hk)
    exact Supergraph.known_of_procOf hfacts.procOf
  have hreachable := ((Reachable.create hcreate).run hrun).1
  exact ((hreachable.grounded (.of_built hgraph hseeds)).paths k i j ef hef).edge

open Solver in
/-- After fact propagation, all stored functions can be evaluated and they are closed under the
rules of propagation, except that a callee may return bottom if a summary in the table may have been
widened, and that in a run without values only the presence of functions is known. With values, they
are a post-fixpoint if there is no such summary, or if return edges respect the order. -/
theorem postFixpoint_of_run (A : Analysis D L K) (hlaws : LawfulLabels L K)
    (hgraph : A.graph.Built) (hgc : A.config.gcMode = .disabled) {steps : Nat} {s₀ s : State D L K}
    (hcreate : create A = .ok s₀) (hrun : run A steps s₀ = .ok s) :
    (∀ n a d ef, pathEdge? s n a d = some ef → ∃ φ, s.Stores n a d φ) ∧
      Closed A (A.config.computeValues = true) (A.ReturnsAs s) s ∧
      (A.config.computeValues = true →
        (A.config.useSummaryTable = false ∨ s.store.interned < A.config.joinLimit ∨
          ∀ n q x d m t, Respects (A.problem.returnEdge n q x d m t).apply) →
        PostFixpoint A s) := by
  have hA : Scope A := .of_disabled hgraph hgc fun _ => hlaws.orders
  have hs := run_create_spec hA hcreate hrun
  have halive := alive_of_run hlaws hgraph hcreate hrun hs
  have hclosed := hs.closed hlaws hgc halive
  refine ⟨fun n a d ef hef => ?_, hclosed, fun hv hreturns => ?_⟩
  · obtain ⟨k, i, j, hk, hi, hj, hef⟩ := hs.pathEdge?_eq_some.1 hef
    exact hs.exists_stores halive ⟨k, i, j, ef, hk, hi, hj, hef⟩
  · simp only [hv] at hclosed
    exact hclosed.postFixpoint hlaws hreturns

open Solver in
/-- The function of the callee arrives behind its first call. -/
theorem postFixpoint_of_run_twoCalls :
    ∃ g s₀ s ψ, TwoCalls.graph = .ok g ∧ create (TwoCalls.analysis g) = .ok s₀ ∧
      run (TwoCalls.analysis g) 40 s₀ = .ok s ∧ s.Stores "b" 1 1 ψ ∧ Below ⟨2⟩ (ψ ⟨1⟩) := by
  have hrun : (do
      let g ← TwoCalls.graph
      let s₀ ← create (TwoCalls.analysis g)
      let s ← run (TwoCalls.analysis g) 40 s₀
      return (pathEdge? s "a" 1 1, pathEdge? s "e" 1 1, s.store.eval ⟨0⟩ ⟨1⟩, s.store.eval ⟨3⟩ ⟨1⟩,
        s.store.interned, g.callees "a", g.startPoints "p", g.exitPoints "p", g.isCallSite "e",
        g.succs "a")) =
      .ok (some ⟨0⟩, some ⟨3⟩, .ok ⟨1⟩, .ok ⟨2⟩, 2, .ok ["p"], .ok ["s"], .ok ["e"], .ok false,
        .ok ["b"]) := by
    set_option synthInstance.maxSize 16384 in
    decide +kernel
  simp only [bind_eq_ok, pure_eq_ok, Prod.mk.injEq] at hrun
  obtain ⟨g, hg, s₀, hcreate, s, hrun, ha, he, hid, hshift, hinterned, hcallees, hstarts, hexits,
    hno, hsuccs⟩ := hrun
  obtain ⟨hstored, -, hpost⟩ := postFixpoint_of_run (TwoCalls.analysis g) Mask.lawfulLabels
    (.ofSteps hg) rfl hcreate hrun
  obtain ⟨φ, hφ⟩ := hstored _ _ _ _ ha
  obtain ⟨σ, hσ⟩ := hstored _ _ _ _ he
  have hacross := (hpost rfl (.inr (.inl (hinterned ▸ (by decide : 2 < 8))))).across "a" 1 1 φ hφ
    "p" 1 _ "s" (.intro ⟨_, hcallees, by decide⟩ rfl (TwoCalls.mem_targets g))
    ⟨_, hstarts, by decide⟩ "e" 1
    σ hσ "b" 1 _ (.intro ⟨_, hexits, by decide⟩ hno ⟨_, hsuccs, by decide⟩ (TwoCalls.mem_targets g))
  obtain ⟨σ, rfl, ψ, hψ, hle⟩ := hacross
  refine ⟨g, s₀, s, ψ, hg, hcreate, hrun, hψ, ?_⟩
  have hle : Below (σ (φ ⟨1⟩)) (ψ ⟨1⟩) := hle trivial ⟨1⟩
  rwa [hφ.eval_eq ha hid, hσ.eval_eq he hshift] at hle

/-! ## Labels that are not above -/

/-- The straight procedure, without values. -/
def Straight.plain (g : Supergraph) : Analysis Nat Mask MaskMap :=
  ⟨problem, g, { computeValues := false }⟩

/-- The identity under many names, and the exchange of the two values. -/
inductive Guise where
  | name (k : Nat)
  | exchange
  deriving DecidableEq

namespace Guise

def code : Guise → Nat
  | .exchange => 0
  | .name k => k + 1

instance : Ord Guise := ⟨compareOn code⟩
instance : Std.TransOrd Guise := inferInstanceAs (Std.TransCmp (compareOn code))

instance : Std.LawfulEqOrd Guise where
  eq_of_compare {a b} h := by
    have hcode : a.code = b.code := Std.LawfulEqOrd.eq_of_compare h
    cases a <;> cases b <;> simp_all [code]

def apply : Guise → Binary → Binary
  | .name _, v => v
  | .exchange, .top => .bottom
  | .exchange, .bottom => .top

/-- Two names in a row are joined under the next one. -/
def join? : Guise → Guise → Option Guise
  | .name i, .name j => if i + 1 = j then some (.name (j + 1)) else none
  | _, _ => none

instance : Payload Guise Binary where
  apply := apply
  join? := join?

instance : LawfulPayload Guise Binary where
  apply_compose h := by cases h
  apply_join {f g h} hjoin v := by
    cases f <;> cases g <;> simp only [Payload.join?, join?, reduceCtorEq] at hjoin
    split at hjoin <;> cases hjoin
    exact (LawfulJoin.join_self v).symm
  apply_constant h := by cases h

theorem lawfulLabels : LawfulLabels Binary Guise :=
  ⟨inferInstance, inferInstance, inferInstance, inferInstance, inferInstance, inferInstance⟩

/-- A call of a procedure with three ways to its exit point. -/
def graph : Except Fault Supergraph := Supergraph.ofSteps
  [.proc "main" ["a", "r"], .edge "a" "r", .proc "p" ["s", "x", "y", "z", "e"],
   .chain ["s", "x", "e"], .chain ["s", "y", "e"], .chain ["s", "z", "e"], .call "a" "p"]

/-- At the exit point, the names 0 and 1 are joined under 2, and 2 and 3 under 4. The summary has
the names 0, 2 and 4, which are too many. -/
def problem : Problem Nat Binary Guise where
  zero := 0
  seeds := Seeds.empty.add "a" 1 .bottom
  normalFlow _ _ := .identity
  callFlow _ _ := .identity
  returnFlow _ _ _ _ := .identity
  bypassFlow _ _ _ := .killAll
  normalEdge node _ _ _ :=
    match node with
    | "x" => .custom (.name 0)
    | "y" => .custom (.name 1)
    | "z" => .custom (.name 3)
    | _ => .identity
  returnEdge _ _ _ _ _ _ := .custom .exchange

def analysis (g : Supergraph) : Analysis Nat Binary Guise :=
  ⟨problem, g, { joinLimit := 2, queueOrder := .fifo }⟩

end Guise

open Solver in
/-- Without values, the function of an edge is not in the labels. With values, a callee whose
summary was widened returns bottom, which is exchanged for top. -/
theorem not_postFixpoint :
    (LawfulLabels Mask MaskMap ∧ ∃ g s₀ s, Straight.graph = .ok g ∧
      create (Straight.plain g) = .ok s₀ ∧ run (Straight.plain g) 20 s₀ = .ok s ∧
      ¬ PostFixpoint (Straight.plain g) s) ∧
    (LawfulLabels Binary Guise ∧ ∃ g s₀ s, Guise.graph = .ok g ∧
      create (Guise.analysis g) = .ok s₀ ∧ run (Guise.analysis g) 40 s₀ = .ok s ∧
      ¬ PostFixpoint (Guise.analysis g) s) := by
  refine ⟨⟨Mask.lawfulLabels, ?_⟩, ⟨Guise.lawfulLabels, ?_⟩⟩
  · have hrun : (do
        let g ← Straight.graph
        let s₀ ← create (Straight.plain g)
        let s ← run (Straight.plain g) 20 s₀
        return (pathEdge? s "a" 1 1, pathEdge? s "b" 1 1, s.store.eval ⟨0⟩ ⟨0⟩, g.isCallSite "a",
          g.succs "a")) =
        .ok (some ⟨0⟩, some ⟨0⟩, .ok ⟨0⟩, .ok false, .ok ["b"]) := by
      set_option synthInstance.maxSize 1024 in
      decide +kernel
    simp only [bind_eq_ok, pure_eq_ok, Prod.mk.injEq] at hrun
    obtain ⟨g, hg, s₀, hcreate, s, hrun, ha, hb, hid, hno, hsuccs⟩ := hrun
    refine ⟨g, s₀, s, hg, hcreate, hrun, fun hpost => ?_⟩
    have hbuilt := Supergraph.Built.ofSteps hg
    have hs := run_create_spec (.of_disabled hbuilt rfl fun _ => Mask.lawfulLabels.orders) hcreate
      hrun
    obtain ⟨ψ, hψ, hle⟩ := hpost.inside "a" 1 1 id (hs.stores_identity ha) "b" 1 _
      (.normal hno ⟨_, hsuccs, by decide⟩ Analysis.mem_targets_identity)
    have hle : Below (⟨1⟩ : Mask) (ψ ⟨0⟩) := hle trivial ⟨0⟩
    rw [hψ.eval_eq hb hid] at hle
    exact absurd hle (by unfold Below; decide)
  · have hrun : (do
        let g ← Guise.graph
        let s₀ ← create (Guise.analysis g)
        let s ← run (Guise.analysis g) 40 s₀
        return (pathEdge? s "a" 1 1, pathEdge? s "e" 1 1, pathEdge? s "r" 1 1,
          s.store.eval ⟨7⟩ .bottom, s.store.eval ⟨7⟩ .top, s.store.eval ⟨1⟩ .top, g.callees "a",
          g.startPoints "p", g.exitPoints "p", g.isCallSite "e", g.succs "a")) =
        .ok (some ⟨0⟩, some ⟨7⟩, some ⟨1⟩, .ok .bottom, .ok .top, .ok .top, .ok ["p"], .ok ["s"],
          .ok ["e"], .ok false, .ok ["r"]) := by
      set_option synthInstance.maxSize 16384 in
      decide +kernel
    simp only [bind_eq_ok, pure_eq_ok, Prod.mk.injEq] at hrun
    obtain ⟨g, hg, s₀, hcreate, s, hrun, ha, he, hr, hbottom, htop, hreturned, hcallees, hstarts,
      hexits, hno, hsuccs⟩ := hrun
    refine ⟨g, s₀, s, hg, hcreate, hrun, fun hpost => ?_⟩
    have hbuilt := Supergraph.Built.ofSteps hg
    have hs := run_create_spec (.of_disabled hbuilt rfl fun _ => Guise.lawfulLabels.orders) hcreate
      hrun
    have hexit : s.Stores "e" 1 1 id := ⟨_, he, fun v => by cases v; exacts [hbottom, htop]⟩
    obtain ⟨_, rfl, ψ, hψ, hle⟩ := hpost.across "a" 1 1 id (hs.stores_identity ha) "p" 1 _ "s"
      (.intro ⟨_, hcallees, by decide⟩ rfl Analysis.mem_targets_identity) ⟨_, hstarts, by decide⟩
      "e" 1 id hexit "r" 1 _ (.intro ⟨_, hexits, by decide⟩ hno ⟨_, hsuccs, by decide⟩
        Analysis.mem_targets_identity)
    have hle : Below (Binary.bottom) (ψ .top) := hle trivial .top
    rw [hψ.eval_eq hr hreturned] at hle
    exact absurd hle (by unfold Below; decide)

end Tabulation
