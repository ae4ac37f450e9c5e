import Tabulation.Proofs.LiveHandles

/-!
# How often the client is asked

`asked_once` says that no flow function is asked for twice in a run, and no edge function twice in a
round. At the end of a round edge functions that no table mentions are freed; their handles must not
be remembered any longer, so all remembered edge functions are forgotten, and in the next round the
client is asked again. Without such sweeps no edge function is asked for twice either.

The invariant is `AskedOnce`: a question that was asked since some point has its answer under its
key. Sweeps keep it for flow functions, all other moves for all questions.
-/

namespace Tabulation

variable {D L K : Type}

theorem Answers.asked_of_log {a a' : Answers D} {q : Query D} {isNew : Bool}
    (h : a'.questions = (q, isNew) :: a.questions) :
    a'.asked = if isNew then q :: a.asked else a.asked := by
  unfold Answers.asked
  rw [h]
  cases isNew <;> rfl

variable [Ord D] [Ord L] [Ord K] [DecidableEq D]

/-- Edge functions are freed at the end of every round. -/
def Analysis.SweepsEdges (A : Analysis D L K) : Prop :=
  A.config.gcMode.isEnabled = true ∧ A.config.sweepEdges = true ∧ A.config.computeValues = true

/-- Each question in `P` was asked at most once since the client had been asked for it `b` times,
and if it was, its answer is remembered. -/
def AskedOnce (P : Query D → Prop) (b : Query D → Nat) (s : State D L K) : Prop :=
  ∀ q, P q → s.answers.asked.count q ≤ b q + 1 ∧ (b q < s.answers.asked.count q → s.Remembers q)

variable {A : Analysis D L K} {s t : State D L K} {P : Query D → Prop} {b : Query D → Nat}

theorem AskedOnce.mono (h : AskedOnce P b s) (hn : s.nodes ≤ t.nodes) (hd : s.facts ≤ t.facts)
    (hp : s.procs ≤ t.procs) (ha : t.answers = s.answers) : AskedOnce P b t := by
  intro q hq
  obtain ⟨hle, hrem⟩ := h q hq
  rw [ha]
  exact ⟨hle, fun hlt => (hrem hlt).mono hn hd hp (ha ▸ .refl _) fun _ => ha ▸ .refl _⟩

/-- Numberings and answers are all that matters. -/
theorem AskedOnce.congr (h : AskedOnce P b s) (hn : t.nodes = s.nodes) (hd : t.facts = s.facts)
    (hp : t.procs = s.procs) (ha : t.answers = s.answers) : AskedOnce P b t :=
  h.mono (hn ▸ Interner.le_refl _) (hd ▸ Interner.le_refl _) (hp ▸ Interner.le_refl _) ha

/-- Forgetting edge functions does not matter to flow functions. -/
theorem AskedOnce.clearEdges (h : AskedOnce P b s) (hP : ∀ q, P q → q.getter.isFlow = true)
    (hn : t.nodes = s.nodes) (hd : t.facts = s.facts) (hp : t.procs = s.procs)
    (ha : t.answers = s.answers.clearEdges) : AskedOnce P b t := by
  intro q hq
  obtain ⟨hle, hrem⟩ := h q hq
  have hasked : t.answers.asked = s.answers.asked := by rw [ha]; rfl
  have hflows : s.answers.KeepsFlows t.answers := ha ▸ { Answers.KeepsFlows.refl _ with }
  rw [hasked]
  refine ⟨hle, fun hlt => (hrem hlt).mono (hn ▸ Interner.le_refl _) (hd ▸ Interner.le_refl _)
    (hp ▸ Interner.le_refl _) hflows fun hedge => ?_⟩
  rw [hP q hq] at hedge
  cases hedge

namespace Solver

/-- After the first phase nothing is asked any more, and answers need not be remembered. -/
structure Counted (P : Query D → Prop) (b : Query D → Nat) (s : State D L K) : Prop where
  count : ∀ q, P q → s.answers.asked.count q ≤ b q + 1
  once : s.stage ≠ .done → AskedOnce P b s

theorem Counted.of_askedOnce (h : AskedOnce P b s) : Counted P b s :=
  ⟨fun q hq => (h q hq).1, fun _ => h⟩

/-- Before a run nothing was asked. -/
theorem create_counted (h : create A = .ok s) : Counted P b s := by
  simp only [create, bind_eq_ok, pure_eq_ok] at h
  obtain ⟨_, _, _, _, _, _, rfl⟩ := h
  exact .of_askedOnce fun q _ => ⟨Nat.zero_le _, fun h => absurd h (Nat.not_lt_zero _)⟩

end Solver

/-! ## Along a run -/

variable [JoinLattice L] [DecidableEq L] [Payload K L] {F : D → Prop}

/-- A question is put to the client only if its answer is not remembered, hence was not asked for
before. -/
theorem AskedOnce.lookUp (h : AskedOnce P b s) (hs : Basis A F s) (hlook : LookUp A s t) :
    AskedOnce P b t := by
  obtain ⟨q₀, isNew, hans⟩ := hlook.answered hs.nodes hs.facts hs.procs
  intro q hq
  obtain ⟨hle, hrem⟩ := h q hq
  have hmono : s.Remembers q → t.Remembers q := fun hr =>
    hr.mono (hans.nodes ▸ Interner.le_refl _) (hans.facts ▸ Interner.le_refl _)
      (hans.procs ▸ Interner.le_refl _) hans.flows fun _ => hans.edges
  rw [Answers.asked_of_log hans.log]
  by_cases hnew : isNew = true
  · rw [if_pos hnew]
    by_cases heq : q₀ = q
    · subst heq
      have hbefore : s.answers.asked.count q₀ ≤ b q₀ := by
        by_contra hlt
        exact hans.new hnew (hrem (by omega))
      rw [List.count_cons_self]
      exact ⟨by omega, fun _ => hans.found⟩
    · rw [List.count_cons_of_ne heq]
      exact ⟨hle, fun hlt => hmono (hrem hlt)⟩
  · rw [if_neg hnew]
    exact ⟨hle, fun hlt => hmono (hrem hlt)⟩

theorem Effect.askedOnce (hs : Grounded A F s) (h : AskedOnce P b s) (he : Effect A F s t) :
    AskedOnce P b t := by
  cases he with
  | quiet _ hq _ _ ha =>
    rcases ha with ha | hlook
    · exact h.mono hq.nodes hq.facts hq.procs ha
    · exact h.lookUp hs.toBasis hlook
  | _ => exact h.congr rfl rfl rfl rfl

theorem Effects.askedOnce (hs : Grounded A F s) (h : AskedOnce P b s) (he : Effects A F s t) :
    AskedOnce P b t := by
  induction he with
  | refl => exact h
  | tail he he' ih => exact he'.askedOnce (Effects.grounded hs he) ih

namespace Solver

/-- The end of a round forgets edge functions only if they are swept. -/
theorem Trims.askedOnce (h : AskedOnce P b s) (ht : Trims A F s t)
    (hoff : A.config.gcMode.isEnabled = false → t = s)
    (hsweep : A.SweepsEdges → ∀ q, P q → q.getter.isFlow = true) : AskedOnce P b t := by
  by_cases hgc : A.config.gcMode.isEnabled = true
  · rcases ht.answers with ⟨ha, -⟩ | ⟨hasked, ha⟩
    · exact h.congr ht.nodes ht.facts ht.procs ha
    · obtain ⟨hedges, hv⟩ := Bool.and_eq_true_iff.1 hasked
      exact h.clearEdges (hsweep ⟨hgc, hedges, hv⟩) ht.nodes ht.facts ht.procs ha
  · rw [hoff (by simpa using hgc)]
    exact h

theorem Transition.askedOnce (hs : Grounded A F s) (h : AskedOnce P b s)
    (ht : Transition A F s t)
    (hsweep : s.stage = .replay [] → A.SweepsEdges → ∀ q, P q → q.getter.isFlow = true) :
    AskedOnce P b t := by
  cases ht with
  | begin _ he _ => exact (Effects.askedOnce hs h he).congr rfl rfl rfl rfl
  | take _ hpop _ hr he =>
    exact Effects.askedOnce (Grounded.withJob hs hpop hr) (h.congr rfl rfl rfl rfl) he
  | keys _ _ _ => exact h.congr rfl rfl rfl rfl
  | replay hstage he =>
    exact Effects.askedOnce (hs.withStage (hs.rest hstage)) (h.congr rfl rfl rfl rfl) he
  | stop hstage htrim hoff _ =>
    exact (htrim.askedOnce h hoff (hsweep hstage)).congr rfl rfl rfl rfl
  | again hstage htrim hoff _ _ =>
    exact (htrim.askedOnce h hoff (hsweep hstage)).congr rfl rfl rfl rfl

/-- The second state comes after the first one in the same round. -/
def SameRound (A : Analysis D L K) : State D L K → State D L K → Prop :=
  Relation.ReflTransGen fun s t => s.stage ≠ .replay [] ∧ Next A s t

variable [Std.TransOrd D] [Std.LawfulEqOrd D] [Std.TransOrd L] [Std.LawfulEqOrd L] [Std.TransOrd K]
  [Std.LawfulEqOrd K]

theorem Next.counted {E : Fault → Prop} (hP : Premises A F E) (hs : Grounded A F s)
    (h : Counted P b s) (hn : Next A s t)
    (hsweep : s.stage = .replay [] → A.SweepsEdges → ∀ q, P q → q.getter.isFlow = true) :
    Counted P b t := by
  cases hn with
  | move hstage hrun =>
    have ht := (step_ensures hP hs hstage).elim hrun
    exact .of_askedOnce (ht.askedOnce hs (h.once hstage) hsweep)
  | drop hdone hrun =>
    obtain ⟨-, -, -, -, hstage, ha⟩ := (dropPending_ensures (E := E) hs).elim hrun
    have hasked : t.answers.asked = s.answers.asked := by rw [ha]; rfl
    exact ⟨hasked ▸ h.count, fun hne => absurd (hstage.trans hdone) hne⟩

theorem SameRound.counted (hgraph : A.graph.Built) (hs : Reachable A s) (h : SameRound A s t) :
    Reachable A t ∧ Counted (fun _ => True) s.answers.asked.count t := by
  induction h with
  | refl =>
    exact ⟨hs, .of_askedOnce fun q _ => ⟨Nat.le_succ _, fun h => absurd h (Nat.lt_irrefl _)⟩⟩
  | tail _ hn ih =>
    obtain ⟨hreach, hcount⟩ := ih
    obtain ⟨hstage, hn⟩ := hn
    have hP := hn.premises hgraph hreach
    exact ⟨hreach.next hn, hn.counted hP (hreach.grounded hP) hcount fun h => absurd h hstage⟩

end Solver

open Solver in
/-- In a run no flow function is asked for twice with the same arguments. No edge function is,
either, unless edge functions are swept at the end of rounds; then none is asked for twice in one
round. -/
theorem asked_once [Std.TransOrd D] [Std.LawfulEqOrd D] [Std.TransOrd L] [Std.LawfulEqOrd L]
    [Std.TransOrd K] [Std.LawfulEqOrd K] (A : Analysis D L K) (hgraph : A.graph.Built)
    (hs : Reachable A s) (hround : SameRound A s t) :
    (∀ q, q.getter.isFlow = true → s.answers.asked.count q ≤ 1) ∧
    (¬A.SweepsEdges → ∀ q, s.answers.asked.count q ≤ 1) ∧
    ∀ q, t.answers.asked.count q ≤ s.answers.asked.count q + 1 := by
  refine ⟨fun q hq => ?_, fun hkeep q => ?_, fun q => ?_⟩
  · have hflows := hs.keeps hgraph (I := Counted (fun q => q.getter.isFlow = true) fun _ => 0)
      (fun _ hs => create_counted hs)
      fun _ _ hP hg h hn => hn.counted hP hg h fun _ _ _ hq => hq
    exact hflows.count q hq
  · have hall := hs.keeps hgraph (I := Counted (fun _ => True) fun _ => 0)
      (fun _ hs => create_counted hs)
      fun _ _ hP hg h hn => hn.counted hP hg h fun _ hsweep => absurd hsweep hkeep
    exact hall.count q trivial
  · exact (hround.counted hgraph hs).2.count q trivial

/-- Any number of moves leads to a state of the run. -/
theorem Solver.Reachable.moves {n : Nat} {u : Unit} (hs : Reachable A s)
    (h : ((List.replicate n ()).forM fun _ => step A).run s = .ok (u, t)) : Reachable A t := by
  refine run_forM_ok (fun _ t => Reachable A t) h hs fun _ _ t t' _ ht hstep => ?_
  by_cases hdone : t.stage = .done
  · obtain ⟨_, _, hget, hstep⟩ := run_bind_ok hstep
    obtain ⟨rfl, rfl⟩ := run_get_ok hget
    simp only [hdone] at hstep
    obtain ⟨-, rfl⟩ := run_pure_ok hstep
    exact ht
  · exact ht.next (.move hdone hstep)

namespace Repeated

/-- A call whose return refines the value at the return site. -/
def graph : Except Fault Supergraph := Supergraph.ofSteps
  [.proc "main" ["a", "b", "c"], .chain ["a", "b", "c"], .proc "p" ["s"], .call "a" "p"]

/-- The zero fact passes by the callee at once, and gets a bit when the callee returns. -/
def problem : Problem Nat Mask MaskMap where
  zero := 0
  seeds := Seeds.empty.add "a" 0 ⟨0⟩
  normalFlow _ _ := .identity
  callFlow _ _ := .identity
  returnFlow _ _ _ _ := .identity
  bypassFlow _ _ _ := .killAll
  returnEdge _ _ _ _ _ _ := .custom (.genKill 1 0 true)

def analysis (g : Supergraph) : Analysis Nat Mask MaskMap :=
  ⟨problem, g, { gcMode := .enabled }⟩

/-- The question for the edge function behind the return site. -/
def question : Query Nat := .normalEdge "b" 0 "c" 0

end Repeated

open Solver in
/-- The first move of the second round puts the question once more. -/
theorem asked_once_repeated :
    ∃ g s t, Repeated.graph = .ok g ∧ Reachable (Repeated.analysis g) s ∧
      SameRound (Repeated.analysis g) s t ∧ s.stats.rounds = 2 ∧
      s.answers.asked.count Repeated.question = 1 ∧ t.answers.asked.count Repeated.question = 2 ∧
      t.answers.asked.count Repeated.question ≤ s.answers.asked.count Repeated.question + 1 ∧
      s.answers.asked.count (.normalFlow "b" "c") ≤ 1 := by
  have hrun : (do
      let g ← Repeated.graph
      let s₀ ← create (Repeated.analysis g)
      let r ← ((List.replicate 9 ()).forM fun _ => step (Repeated.analysis g)).run s₀
      let r' ← (step (Repeated.analysis g)).run r.2
      return (r.2.stage, r.2.stats.rounds, r.2.answers.asked.count Repeated.question,
        r'.2.answers.asked.count Repeated.question)) = .ok (.drain, 2, 1, 2) := by
    decide +kernel
  simp only [bind_eq_ok, pure_eq_ok, Prod.mk.injEq] at hrun
  obtain ⟨g, hg, s₀, hcreate, ⟨_, s⟩, hs, ⟨_, t⟩, ht, hstage, hrounds, hbefore, hafter⟩ := hrun
  dsimp only at hstage
  have hreach := (Reachable.create hcreate).moves hs
  have hround : SameRound (Repeated.analysis g) s t :=
    .single ⟨by simp [hstage], .move (by simp [hstage]) ht⟩
  obtain ⟨hflow, -, hedge⟩ := asked_once (Repeated.analysis g) (.ofSteps hg) hreach hround
  exact ⟨g, s, t, hg, hreach, hround, hrounds, hbefore, hafter, hedge _, hflow _ rfl⟩

open Solver in
/-- With sweeps, an edge function is asked for in each of two rounds. -/
theorem asked_again_after_sweep :
    ∃ g s, Repeated.graph = .ok g ∧ Reachable (Repeated.analysis g) s ∧
      s.answers.asked.count Repeated.question = 2 := by
  have hrun : (do
      let g ← Repeated.graph
      let s₀ ← create (Repeated.analysis g)
      let s ← run (Repeated.analysis g) 20 s₀
      return s.answers.asked.count Repeated.question) = .ok 2 := by
    decide +kernel
  simp only [bind_eq_ok, pure_eq_ok] at hrun
  obtain ⟨g, hg, s₀, hcreate, s, hs, hasked⟩ := hrun
  exact ⟨g, s, hg, ((Reachable.create hcreate).run hs).1, hasked⟩

end Tabulation
