import Tabulation.Proofs.EdgeStore.Denotation
import Tabulation.Proofs.LiveHandles
import Tabulation.Proofs.MaskMap

/-!
# Remembered answers are never mixed up

Answers of the client are remembered under packed numbers, and two of the five kinds of edges have
keys that leave a part of the question out: that of a return has no callee, and that of a bypass no
list of callees. `remembered_answers` says that an answer that is found under a key is nevertheless
the client's answer about the one edge that the key encodes, in every state of a run and whatever
the configuration. Remembered edge functions are live handles, and evaluating them is applying the
client's function.

Nothing is assumed of the lattice, and of payloads only that constants are what they claim to be.
Runs may end with any fault.
-/

namespace Tabulation

variable {D L K : Type} [Ord D] [Ord L] [Ord K] [JoinLattice L] [Payload K L]

/-! ## Along a run -/

/-- Answers belong to their keys, and what keys leave out is what the supergraph says. -/
structure Truthful (A : Analysis D L K) (s : State D L K) : Prop where
  answers : AnswersOk A s
  questions : ∀ x ∈ s.answers.questions, x.1.FromGraph A

section Runs

variable {A : Analysis D L K} {s t : State D L K}

theorem Truthful.mono (h : Truthful A s) (hn : s.nodes ≤ t.nodes) (hd : s.facts ≤ t.facts)
    (hp : s.procs ≤ t.procs) (hst : s.store ≤ t.store) (ha : t.answers = s.answers) :
    Truthful A t :=
  ⟨h.answers.mono hn hd hp hst ha, ha ▸ h.questions⟩

/-- The numberings, the store and the answers are all that matters. -/
theorem Truthful.congr (h : Truthful A s) (hn : t.nodes = s.nodes) (hd : t.facts = s.facts)
    (hp : t.procs = s.procs) (hst : t.store = s.store) (ha : t.answers = s.answers) :
    Truthful A t :=
  h.mono (hn ▸ Interner.le_refl _) (hd ▸ Interner.le_refl _) (hp ▸ Interner.le_refl _)
    (hst ▸ EdgeStore.le_refl _) ha

/-- The store may be any once edge functions are forgotten. -/
theorem Truthful.clearEdges (h : Truthful A s) (hn : t.nodes = s.nodes) (hd : t.facts = s.facts)
    (hp : t.procs = s.procs) (ha : t.answers = s.answers.clearEdges) : Truthful A t := by
  have hcleared : Truthful A { s with store := t.store, answers := s.answers.clearEdges } :=
    ⟨Solver.AnswersOk.clearEdges h.answers t.store, h.questions⟩
  exact hcleared.congr hn hd hp rfl ha

theorem Truthful.clear (h : Truthful A s) (ha : t.answers = s.answers.clear) : Truthful A t := by
  refine ⟨?_, ha ▸ h.questions⟩
  constructor <;> rw [ha]
  case zero => exact h.answers.zero
  case autoAddZero => exact h.answers.autoAddZero
  all_goals exact Solver.Memo.holds_clear _ _

variable [DecidableEq D] [DecidableEq L] {F : D → Prop}

theorem Solver.Trims.truthful (h : Truthful A s) (ht : Trims A F s t) : Truthful A t := by
  rcases ht.answers with ⟨ha, hst⟩ | ⟨-, ha⟩
  · exact h.congr ht.nodes ht.facts ht.procs hst ha
  · exact h.clearEdges ht.nodes ht.facts ht.procs ha

variable [Std.TransOrd L] [Std.LawfulEqOrd L] [Std.TransOrd K] [Std.LawfulEqOrd K]

theorem Truthful.lookUp (h : Truthful A s) (hg : A.graph.Consistent) (hs : Basis A F s)
    (hlook : LookUp A s t) : Truthful A t := by
  obtain ⟨q, isNew, hq⟩ := hlook.answered hs.nodes hs.facts hs.procs
  refine ⟨hlook.answersOk hg hs.store h.answers, ?_⟩
  rw [hq.log]
  intro x hx
  rcases List.mem_cons.1 hx with rfl | hx
  · exact hq.fromGraph
  · exact h.questions x hx

theorem Effect.truthful (hg : A.graph.Consistent) (hs : Grounded A F s) (h : Truthful A s)
    (he : Effect A F s t) : Truthful A t := by
  cases he with
  | quiet _ hq _ _ ha =>
    rcases ha with ha | hlook
    · exact h.mono hq.nodes hq.facts hq.procs hq.store ha
    · exact h.lookUp hg hs.toBasis hlook
  | _ => exact h.congr rfl rfl rfl rfl rfl

theorem Effects.truthful (hg : A.graph.Consistent) (hs : Grounded A F s) (h : Truthful A s)
    (he : Effects A F s t) : Truthful A t := by
  induction he with
  | refl => exact h
  | tail he he' ih => exact he'.truthful hg (Effects.grounded hs he) ih

theorem Solver.Transition.truthful (hg : A.graph.Consistent) (hs : Grounded A F s)
    (h : Truthful A s) (ht : Transition A F s t) : Truthful A t := by
  cases ht with
  | begin _ he _ => exact (Effects.truthful hg hs h he).congr rfl rfl rfl rfl rfl
  | take _ hpop _ hr he =>
    exact Effects.truthful hg (Grounded.withJob hs hpop hr) (h.congr rfl rfl rfl rfl rfl) he
  | keys _ _ _ => exact h.congr rfl rfl rfl rfl rfl
  | replay hstage he =>
    exact Effects.truthful hg (hs.withStage (hs.rest hstage)) (h.congr rfl rfl rfl rfl rfl) he
  | stop _ htrim _ _ => exact (htrim.truthful h).congr rfl rfl rfl rfl rfl
  | again _ htrim _ _ _ => exact (htrim.truthful h).congr rfl rfl rfl rfl rfl

variable [Std.TransOrd D] [Std.LawfulEqOrd D]

theorem Solver.Reachable.truthful (hgraph : A.graph.Built) (hs : Reachable A s) :
    Truthful A s := by
  refine hs.keeps hgraph (fun s hs => ?_) fun s t hP hg h hn => ?_
  · simp only [Solver.create, bind_eq_ok, pure_eq_ok] at hs
    obtain ⟨_, _, _, _, _, _, rfl⟩ := hs
    exact ⟨answersOk_empty rfl, fun _ hx => absurd hx List.not_mem_nil⟩
  · cases hn with
    | move hstage hrun => exact ((step_ensures hP hg hstage).elim hrun).truthful hP.graph hg h
    | drop _ hrun =>
      obtain ⟨-, -, -, -, -, ha⟩ := (dropPending_ensures (E := fun _ => True) hg).elim hrun
      exact h.clear ha

end Runs

/-! ## What is found under a key -/

/-- The handle is alive and evaluates like the edge function that belongs to the key. -/
def EvaluatesAs {κ : Type} (s : State D L K) (P : κ → EdgeFunction L K → Prop) (k : κ)
    (ef : EdgeRef) : Prop :=
  ∃ e, P k e ∧ s.store.Alive ef ∧ ∀ v, s.store.eval ef v = .ok (e.apply v)

/-- What is remembered is what the client says of the edge that the key encodes. Exit points have
one owner, and no callee but the owner is ever asked for. -/
structure RemembersClient (A : Analysis D L K) (s : State D L K) : Prop where
  normalFlow : s.answers.normalFlows.Holds (NormalFlowKey A s)
  callFlow : s.answers.callFlows.Holds (CallFlowKey A s)
  returnFlow : s.answers.returnFlows.Holds (ReturnFlowKey A s)
  bypassFlow : s.answers.bypassFlows.Holds (BypassFlowKey A s)
  summaryFlow : s.answers.summaryFlows.Holds (SummaryFlowKey A s)
  normalEdge : s.answers.normalEdges.Holds (EvaluatesAs s (NormalEdgeKey A s))
  callEdge : s.answers.callEdges.Holds (EvaluatesAs s (CallEdgeKey A s))
  returnEdge : s.answers.returnEdges.Holds (EvaluatesAs s (ReturnEdgeKey A s))
  bypassEdge : s.answers.bypassEdges.Holds (EvaluatesAs s (BypassEdgeKey A s))
  summaryEdge : s.answers.summaryEdges.Holds (EvaluatesAs s (SummaryEdgeKey A s))
  owner : ∀ p q z, A.graph.ExitOf p z → A.graph.ExitOf q z → p = q
  questions : ∀ x ∈ s.answers.questions, x.1.FromGraph A

open Solver in
/-- In every state of a run, an answer that is found under a key is the client's answer about the
edge that the key encodes. Return functions are only looked up for the callee that owns the exit
point. -/
theorem remembered_answers [DecidableEq D] [DecidableEq L] [Std.TransOrd D] [Std.LawfulEqOrd D]
    [Std.TransOrd L] [Std.LawfulEqOrd L] [Std.TransOrd K] [Std.LawfulEqOrd K] (A : Analysis D L K)
    (hgraph : A.graph.Built)
    (hconstant : ∀ (k : K) (c : L), Payload.constant? k = some c → ∀ v : L, Payload.apply k v = c)
    {s : State D L K} (hs : Reachable A s) : RemembersClient A s := by
  have h := hs.truthful hgraph
  have hstore : s.store.Regular := hs.keeps hgraph
    (fun _ hs => (create_grounded A.confined_true hs).1.store)
    fun _ _ hP hg _ hn => (hn.grounded hP hg).store
  have hedge : ∀ {κ : Type} {P : κ → EdgeFunction L K → Prop} (k : κ) (ef : EdgeRef),
      LeafKey s P k ef → EvaluatesAs s P k ef := by
    intro κ P k ef ⟨e, he, hat⟩
    have hmeans := hstore.means_leafAt_of_constant hconstant hat
    exact ⟨e, he, hmeans.node?, fun v => hstore.eval hmeans v⟩
  exact {
    normalFlow := h.answers.normalFlow
    callFlow := h.answers.callFlow
    returnFlow := h.answers.returnFlow
    bypassFlow := h.answers.bypassFlow
    summaryFlow := h.answers.summaryFlow
    normalEdge := h.answers.normalEdge.imp hedge
    callEdge := h.answers.callEdge.imp hedge
    returnEdge := h.answers.returnEdge.imp hedge
    bypassEdge := h.answers.bypassEdge.imp hedge
    summaryEdge := h.answers.summaryEdge.imp hedge
    owner := fun _ _ _ hp hq => hp.unique hgraph.consistent hq
    questions := h.questions }

namespace TwoCallees

/-- A call site with two callees. -/
def graph : Except Fault Supergraph := Supergraph.ofSteps
  [.proc "main" ["a", "b"], .edge "a" "b", .proc "p" ["s"], .proc "q" ["t"], .call "a" "p",
   .call "a" "q"]

/-- The callees generate different bits on return. -/
def problem : Problem Nat Mask MaskMap where
  zero := 0
  seeds := Seeds.empty.add "a" 0 ⟨0⟩
  normalFlow _ _ := .identity
  callFlow _ _ := .identity
  returnFlow _ _ _ _ := .identity
  bypassFlow _ _ _ := .killAll
  returnEdge _ callee _ _ _ _ := .custom (.genKill (if callee = "p" then 1 else 2) 0 true)

def analysis (g : Supergraph) : Analysis Nat Mask MaskMap := ⟨problem, g, {}⟩

end TwoCallees

open Solver in
/-- The two returns to one site have keys that differ in the exit point only, and functions of their
own. -/
theorem remembered_answers_twoCallees :
    ∃ g s, TwoCallees.graph = .ok g ∧ Reachable (TwoCallees.analysis g) s ∧
      s.answers.returnEdges.table[(pack 0 2, (⟨1⟩ : NodeId), factPair ⟨0⟩ ⟨0⟩)]? = some ⟨5⟩ ∧
      s.answers.returnEdges.table[(pack 0 3, (⟨1⟩ : NodeId), factPair ⟨0⟩ ⟨0⟩)]? = some ⟨3⟩ ∧
      RemembersClient (TwoCallees.analysis g) s := by
  have hrun : (do
      let g ← TwoCallees.graph
      let s₀ ← create (TwoCallees.analysis g)
      let s ← run (TwoCallees.analysis g) 20 s₀
      return (s.answers.returnEdges.table[(pack 0 2, (⟨1⟩ : NodeId), factPair ⟨0⟩ ⟨0⟩)]?,
        s.answers.returnEdges.table[(pack 0 3, (⟨1⟩ : NodeId), factPair ⟨0⟩ ⟨0⟩)]?)) =
      .ok (some ⟨5⟩, some ⟨3⟩) := by
    decide +kernel
  simp only [bind_eq_ok, pure_eq_ok, Prod.mk.injEq] at hrun
  obtain ⟨g, hg, s₀, hcreate, s, hs, hp, hq⟩ := hrun
  have hreach := ((Reachable.create hcreate).run hs).1
  exact ⟨g, s, hg, hreach, hp, hq, remembered_answers (TwoCallees.analysis g) (.ofSteps hg)
    (fun _ _ hc => LawfulPayload.apply_constant hc) hreach⟩

end Tabulation
