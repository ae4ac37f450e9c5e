import Tabulation.EdgeFunction.NumberMap
import Tabulation.Proofs.Solver.Tally

/-!
# Fact propagation comes to an end

Every move either stores path edges, of which there is a bounded number, or takes something off a
queue. `Solver.measure` puts these together into a pair that every move lowers, so a run whose
labels are graded ends, `run_ends`.

**Bounds.** Without values every path edge is stored exactly once. With values it is stored again
when its label changes, so as often as there are levels: in a lattice whose chains have at most `h`
steps, and with payloads that the client cannot join, that is `h` and the join limit and one,
`propagation_terminates`.
-/

namespace Tabulation

variable {D L K : Type} {A : Analysis D L K}

/-- Numbers may run out where there are not enough of them, and nothing else can go wrong. -/
theorem Solver.premises_of_confined [DecidableEq D] (hgraph : A.graph.Built)
    (hgc : A.config.gcMode = .disabled)
    (hseeds : ∀ x ∈ A.problem.seeds.toList, A.graph.Known x.1) {facts : Finset D}
    (hfacts : A.Confined (· ∈ facts)) :
    Premises A (· ∈ facts) fun f => f = .idsExhausted ∧
      ¬ (A.graph.nodes.size < UInt32.size ∧ facts.card < UInt32.size) where
  graph := hgraph.consistent
  confined := hfacts
  seeds := hseeds
  room := by
    by_cases hroom : A.graph.nodes.size < UInt32.size ∧ facts.card < UInt32.size
    · refine .inr ⟨A.graph.names, facts, fun x hx => Supergraph.mem_names.2 hx, ?_, fun _ h => h,
        hroom.2⟩
      exact Nat.lt_of_le_of_lt A.graph.card_names_le hroom.1
    · exact .inl ⟨rfl, hroom⟩
  idle h := by rw [hgc] at h; cases h

variable [Ord D] [Ord L] [Ord K] {s t : State D L K}

theorem Solver.two_le_joinLimit (h : create A = .ok s) : 2 ≤ A.config.joinLimit := by
  simp only [create, bind_eq_ok] at h
  obtain ⟨_, _, _, _, _, hstore, _⟩ := h
  exact (EdgeStore.create_eq_ok.1 hstore).1

variable [DecidableEq D] [JoinLattice L] [DecidableEq L] [Payload K L]

namespace Solver

/-- How much is left to do before path edges are taken from the queue again. -/
def phase (s : State D L K) : Nat :=
  match s.stage with
  | .fresh => 0
  | .drain => if s.queue.toList = [] then s.callQueue.keys.size + 3 else 1
  | .replay keys => keys.length + 2
  | .done => 0

/-- What is left to do, if no more than `M` path edges are ever stored. A path edge counts twice
until it is stored and once until it is taken from the queue. -/
def measure (M : Nat) (s : State D L K) : Nat ×ₗ Nat :=
  toLex (2 * (M - s.stats.pathEdges) + s.queue.toList.length + (if s.stage = .fresh then 1 else 0),
    phase s)

section Moves

variable {grade : EdgeStore L K → EdgeRef → Nat} {B : Nat}

/-- Every move lowers the measure. -/
theorem Transition.measure_lt {F : D → Prop} {M : Nat}
    (hgc : A.config.gcMode.isEnabled = false) (hG : Graded A grade B) (hs : Grounded A F s)
    (h : Transition A F s t) (hM : t.stats.pathEdges ≤ M) : measure M t < measure M s := by
  obtain ⟨js, queue, hpending, hjs⟩ := h.stores hgc hG hs
  have hlen : t.queue.toList.length = queue.toList.length + js.length := by
    rw [hjs.queue, List.length_append]
  have hedges : t.stats.pathEdges = s.stats.pathEdges + js.length := hjs.pathEdges
  unfold measure
  rw [Prod.Lex.toLex_lt_toLex]
  cases h with
  | begin hstage ht hstats =>
    have hq : queue.toList = s.queue.toList := by rw [← hpending]; simp [pending, hstage]
    rw [hq] at hlen
    left
    dsimp only at hlen hedges hM
    simp only [hstage, if_true, reduceCtorEq, if_false]
    omega
  | @take _ job queue' _ _ hstage hpop _ _ ht =>
    have hq : queue.toList = queue'.toList := by rw [← hpending]; simp [pending, hstage, hpop]
    have hpop' : s.queue.toList.length = queue'.toList.length + 1 := by
      rw [(Worklist.pop?_perm hpop).length_eq, List.length_cons]
    have hdrain : t.stage = .drain := ht.stage.trans hstage
    rw [hq] at hlen
    left
    simp only [hstage, hdrain, reduceCtorEq, if_false]
    omega
  | keys hstage hpop hstats =>
    have hnil := (Worklist.pop?_eq_none_iff _).1 hpop
    right
    refine ⟨?_, ?_⟩
    · simp only [hstage, reduceCtorEq, if_false, hstats]
    · simp [phase, hstage, hnil, CallQueue.take]
  | @replay _ key keys hstage ht =>
    have hq : queue.toList = s.queue.toList := by rw [← hpending]; simp [pending, hstage]
    have hreplay : t.stage = .replay keys := ht.stage
    rw [hq] at hlen
    simp only [hstage, hreplay, reduceCtorEq, if_false, phase, List.length_cons]
    omega
  | stop hstage _ hoff _ =>
    obtain rfl := hoff hgc
    right
    exact ⟨by simp [hstage], by simp [phase, hstage]⟩
  | again hstage _ hoff hne hstats =>
    obtain rfl := hoff hgc
    right
    exact ⟨by simp [hstage, hstats], by simp [phase, hstage, hne]⟩

theorem run_of_done (n : Nat) (h : s.stage = .done) : run A n s = .ok s := by
  cases n <;> simp [run, h]

variable [Std.TransOrd D] [Std.LawfulEqOrd D] [Std.TransOrd L] [Std.LawfulEqOrd L] [Std.TransOrd K]
  [Std.LawfulEqOrd K]

/-- With enough steps, a run always has the same outcome: it returns with all path edges known, or
ends with a fault that is allowed. -/
theorem run_ends {E : Fault → Prop} {facts : Finset D} (hP : Premises A (· ∈ facts) E)
    (hgc : A.config.gcMode.isEnabled = false) (hG : Graded A grade B) {log : List PathEdge}
    (h : Logged A log s) :
    ∃ n r, (∀ m, n ≤ m → run A m s = r) ∧
      Returns E r fun t => t.stage = .done ∧ ∃ log, Logged A log t := by
  generalize hM : A.graph.nodes.size * facts.card * facts.card * (B + 1) = M
  induction hμ : measure M s using WellFoundedLT.induction generalizing s log with
  | ind μ ih =>
  obtain ⟨hs, -⟩ := h.tallied hP hgc hG
  by_cases hstage : s.stage = .done
  · exact ⟨0, .ok s, fun m _ => run_of_done m hstage, hstage, log, h⟩
  have hstep := step_ensures hP hs hstage
  have hrun : ∀ m, run A (m + 1) s = (do run A m (← (step A).run s).2) := fun m => by
    rw [run, if_neg hstage]
  cases hnext : (step A).run s with
  | error f =>
    refine ⟨1, .error f, fun m hm => ?_, hstep.allowed hnext⟩
    obtain ⟨m, rfl⟩ := Nat.exists_eq_add_of_le' hm
    rw [hrun, hnext]
    rfl
  | ok r =>
    obtain ⟨⟨⟩, t⟩ := r
    have htrans := hstep.elim hnext
    obtain ⟨js, queue, hpending, hjs⟩ := htrans.stores hgc hG hs
    have ht : Logged A (log ++ js) t := .move h hstage hnext (hpending ▸ hjs.queue)
    obtain ⟨hgt, htally⟩ := ht.tallied hP hgc hG
    have hle : t.stats.pathEdges ≤ M := hM ▸ htally.length ▸ htally.length_le hG hgt
    obtain ⟨n, r, hr, hreturns⟩ := ih _ (hμ ▸ htrans.measure_lt hgc hG hs hle) ht rfl
    refine ⟨n + 1, r, fun m hm => ?_, hreturns⟩
    obtain ⟨m, rfl⟩ := Nat.exists_eq_add_of_le' (Nat.le_trans (Nat.le_add_left 1 n) hm)
    rw [hrun, hnext]
    exact hr m (by omega)

end Moves

/-- With enough steps, a run from `s` always has the same outcome, and does not run out of steps. It
returns with all path edges known if there are numbers for all nodes and facts. -/
def Terminates (A : Analysis D L K) (facts : Finset D) (s : State D L K) : Prop :=
  ∃ n r, (∀ m, n ≤ m → run A m s = r) ∧ r ≠ .error .outOfSteps ∧
    (A.graph.nodes.size < UInt32.size → facts.card < UInt32.size →
      ∃ t log, r = .ok t ∧ t.stage = .done ∧ Logged A log t)

end Solver

section Bounds

variable [Std.TransOrd D] [Std.LawfulEqOrd D] [Std.TransOrd L] [Std.LawfulEqOrd L] [Std.TransOrd K]
  [Std.LawfulEqOrd K] {facts : Finset D} {grade : EdgeStore L K → EdgeRef → Nat} {B : Nat}

open Solver

theorem Graded.terminates (hG : Graded A grade B) (hgraph : A.graph.Built)
    (hgc : A.config.gcMode = .disabled)
    (hseeds : ∀ x ∈ A.problem.seeds.toList, A.graph.Known x.1) (hfacts : A.Confined (· ∈ facts))
    (hcreate : create A = .ok s) : Terminates A facts s := by
  have hP := premises_of_confined hgraph hgc hseeds hfacts
  obtain ⟨n, r, hr, hreturns⟩ := run_ends hP (by rw [hgc]; rfl) hG (.create hcreate)
  refine ⟨n, r, hr, fun hsteps => ?_, fun hnodes hcard => ?_⟩
  · cases (hreturns.allowed hsteps).1
  · cases r with
    | ok t =>
      obtain ⟨hdone, log, hlog⟩ := hreturns
      exact ⟨t, log, rfl, hdone, hlog⟩
    | error f => exact absurd ⟨hnodes, hcard⟩ (hreturns.allowed rfl).2

/-- What the log of a run says about the number of path edges that were stored. -/
theorem Graded.logged (hG : Graded A grade B) (hgraph : A.graph.Built)
    (hgc : A.config.gcMode = .disabled)
    (hseeds : ∀ x ∈ A.problem.seeds.toList, A.graph.Known x.1) (hfacts : A.Confined (· ∈ facts))
    {log : List PathEdge} (hlog : Logged A log s) :
    log.length = s.stats.pathEdges ∧ (∀ k, (log.map PathEdge.key).count k ≤ B + 1) ∧
      (∀ k, (s.label? k).isSome = true ↔ k ∈ log.map PathEdge.key) ∧
      s.stats.pathEdges ≤ A.graph.nodes.size * facts.card * facts.card * (B + 1) := by
  have hP := premises_of_confined hgraph hgc hseeds hfacts
  obtain ⟨hs, htally⟩ := hlog.tallied hP (by rw [hgc]; rfl) hG
  refine ⟨htally.length, fun k => ?_, htally.stored, htally.length ▸ htally.length_le hG hs⟩
  exact Nat.le_trans (htally.count k) (weight_le hG hs k)

end Bounds

open Solver in
/-- Fact propagation on `N` nodes and `D` facts comes to an end.

Without values, every path edge is stored exactly once, and at most `N * D * D` of them. With values
from a lattice whose chains have at most `h` steps, and with payloads that the client cannot join,
each is stored at most `h + joinLimit + 1` times. -/
theorem propagation_terminates [Std.TransOrd D] [Std.LawfulEqOrd D] [Std.TransOrd L]
    [Std.LawfulEqOrd L] [Std.TransOrd K] [Std.LawfulEqOrd K] (A : Analysis D L K)
    (hgraph : A.graph.Built) (hgc : A.config.gcMode = .disabled)
    (hseeds : ∀ x ∈ A.problem.seeds.toList, A.graph.Known x.1) (facts : Finset D)
    (hfacts : A.Confined (· ∈ facts)) {s₀ : State D L K} (hcreate : create A = .ok s₀) :
    (A.config.computeValues = false → Terminates A facts s₀ ∧
      ∀ log s, Logged A log s → log.length = s.stats.pathEdges ∧
        (∀ k, (log.map PathEdge.key).count k = if (s.label? k).isSome then 1 else 0) ∧
        s.stats.pathEdges ≤ A.graph.nodes.size * facts.card * facts.card) ∧
    (A.config.computeValues = true → LawfulJoin L → ∀ h, ChainsWithin L h →
      (∀ f g : K, Payload.join? L f g = none) → Terminates A facts s₀ ∧
      ∀ log s, Logged A log s → log.length = s.stats.pathEdges ∧
        (∀ k, (log.map PathEdge.key).count k ≤ h + A.config.joinLimit + 1) ∧
        s.stats.pathEdges ≤
          A.graph.nodes.size * facts.card * facts.card * (h + A.config.joinLimit + 1)) := by
  constructor
  · intro hplain
    have hG := graded_plain hplain
    refine ⟨hG.terminates hgraph hgc hseeds hfacts hcreate, fun log s hlog => ?_⟩
    obtain ⟨hlen, hcount, hstored, hle⟩ := hG.logged hgraph hgc hseeds hfacts hlog
    refine ⟨hlen, fun k => ?_, by simpa using hle⟩
    have hpos : (s.label? k).isSome = true ↔ 0 < (log.map PathEdge.key).count k :=
      (hstored k).trans List.count_pos_iff.symm
    have hone := hcount k
    split
    · next hsome =>
      have := hpos.1 hsome
      omega
    · next hnone =>
      have := mt hpos.2 hnone
      omega
  · intro _ _ h hchains hjoin
    have hG := graded_level (Scale.ofChains hchains hjoin) (two_le_joinLimit hcreate)
    have hmax : (Scale.ofChains hchains hjoin).maxHeight +
        (Scale.ofChains hchains hjoin).maxDepth + A.config.joinLimit =
        h + A.config.joinLimit := congrArg (· + _) (Nat.zero_add h)
    rw [hmax] at hG
    refine ⟨hG.terminates hgraph hgc hseeds hfacts hcreate, fun log s hlog => ?_⟩
    obtain ⟨hlen, hcount, -, hle⟩ := hG.logged hgraph hgc hseeds hfacts hlog
    exact ⟨hlen, hcount, hle⟩

/-- Flat lattices have three levels. -/
theorem Flat.chainsWithin {T : Type} [DecidableEq T] : ChainsWithin (Flat T) 2 := by
  refine .of_depth Flat.rank (fun u v huv hne => ?_) fun v => ?_
  · change Flat.join v u = v at huv
    cases u <;> cases v <;> grind [Flat.join, Flat.rank]
  · cases v <;> simp [Flat.rank]

namespace Counting

/-- A procedure that goes around in its second node. -/
def graph : Except Fault Supergraph := Supergraph.ofSteps
  [.proc "main" ["a", "b"], .edge "a" "b", .edge "b" "b"]

/-- Every edge adds one, so that there is a new function for each time around. -/
def problem : Problem Nat (Flat Int64) NumberMap where
  zero := 0
  seeds := Seeds.empty.add "a" 0 (.value 0)
  normalFlow _ _ := .identity
  callFlow _ _ := .identity
  returnFlow _ _ _ _ := .identity
  bypassFlow _ _ _ := .identity
  normalEdge _ _ _ _ := .custom (.linear 1 1)

def analysis (g : Supergraph) (computeValues : Bool) : Analysis Nat (Flat Int64) NumberMap :=
  ⟨problem, g, { computeValues, joinLimit := 2 }⟩

theorem confined (g : Supergraph) (computeValues : Bool) :
    (analysis g computeValues).Confined (· ∈ ({0} : Finset Nat)) := by
  refine Analysis.confined_of_identity (Finset.mem_singleton_self 0) (fun x hx => ?_)
    (fun _ _ => rfl) (fun _ _ => rfl) (fun _ _ _ _ => rfl) (fun _ _ _ => rfl) fun _ _ => rfl
  exact List.mem_singleton.1 hx ▸ Finset.mem_singleton_self 0

end Counting

open Solver in
/-- Each time around adds one to the label of the second node, until the join is widened. -/
theorem propagation_terminates_counting :
    ∃ g s₀ s₁ s, Counting.graph = .ok g ∧ create (Counting.analysis g false) = .ok s₀ ∧
      create (Counting.analysis g true) = .ok s₁ ∧
      Terminates (Counting.analysis g false) {0} s₀ ∧
      Terminates (Counting.analysis g true) {0} s₁ ∧
      run (Counting.analysis g true) 20 s₁ = .ok s ∧ s.stats.pathEdges = 4 ∧
      ∀ log t, Logged (Counting.analysis g true) log t → t.stats.pathEdges ≤ 10 := by
  have hrun : (do
      let g ← Counting.graph
      let s₀ ← create (Counting.analysis g false)
      let s₁ ← create (Counting.analysis g true)
      let s ← run (Counting.analysis g true) 20 s₁
      return (g.procOf "a", g.nodes.size, s.stats.pathEdges)) = .ok (.ok "main", 2, 4) := by
    decide +kernel
  simp only [bind_eq_ok, pure_eq_ok, Prod.mk.injEq] at hrun
  obtain ⟨g, hg, s₀, hcreate₀, s₁, hcreate₁, s, hs, hproc, hsize, hedges⟩ := hrun
  have hseeds : ∀ x ∈ Counting.problem.seeds.toList, g.Known x.1 := by
    intro x hx
    obtain rfl := List.mem_singleton.1 hx
    exact Supergraph.known_of_procOf hproc
  have hplain := (propagation_terminates (Counting.analysis g false) (.ofSteps hg) rfl hseeds
    {0} (Counting.confined g false) hcreate₀).1 rfl
  have hvalued := (propagation_terminates (Counting.analysis g true) (.ofSteps hg) rfl hseeds
    {0} (Counting.confined g true) hcreate₁).2 rfl inferInstance 2 Flat.chainsWithin
    fun _ _ => rfl
  refine ⟨g, s₀, s₁, s, hg, hcreate₀, hcreate₁, hplain.1, hvalued.1, hs, hedges, ?_⟩
  intro log t hlog
  have hle := (hvalued.2 log t hlog).2.2
  change t.stats.pathEdges ≤ g.nodes.size * 1 * 1 * (2 + 2 + 1) at hle
  rw [hsize] at hle
  exact hle

end Tabulation
