import Tabulation.Proofs.Solver.Domain

/-!
# Facts hold exactly where paths lead

A run that computes no values reports a fact at a node if and only if a realizable path leads there
from a seed, `entries_iff_realizable`.

One direction is that fact propagation covers all paths, the other that its path edges stand for
nothing else.
-/

namespace Tabulation

variable {D L K : Type} [Ord D] [Ord L] [Ord K] [DecidableEq D] [JoinLattice L] [Payload K L]
  [DecidableEq L] {A : Analysis D L K} {s : State D L K}

/-- A path that leads to a fact at a node has reached it. -/
theorem Complete.hasPath (hA : Setting A) (hmono : A.config.computeValues = true → A.Monotone)
    (h : Complete A s) (hseeds : A.SeedsAtStarts) {n : String} {d : D} {v : L}
    (hpath : A.Realizable n d v) : ∃ a, s.HasPath n a d := by
  obtain ⟨cs, p, a, u, φ, henters, hlevel, -⟩ := hpath.split hseeds hA.graph
  obtain ⟨i, hi⟩ := h.started hA.scope hmono henters
  obtain ⟨m, j, ef, hm, hj, hef, -⟩ := h.covered hA.scope hmono hlevel hi
  exact ⟨a, m, i, j, ef, hm, hi.1, hj, hef⟩

/-- Where labels are exact, what was reached is reached by a path. -/
theorem Complete.exists_realizable (hA : Setting A) (h : Complete A s) (hp : Exactly A s)
    {n : String} {a d : D} (hpath : s.HasPath n a d) : ∃ v, A.Realizable n d v := by
  obtain ⟨m, i, j, ef, hm, hi, hj, hef⟩ := hpath
  obtain ⟨_, _, p, a, _, hpath⟩ := h.paths m i j ef hef
  obtain rfl := Option.some.inj (hpath.hasNode.symm.trans hm)
  obtain rfl := Option.some.inj (hpath.hasSource.symm.trans hi)
  obtain ⟨⟨φ, hlevel⟩, -⟩ := hp.paths m i j ef _ _ _ _ hef hm hi hj hpath.procOf
  obtain ⟨cs, u, henters⟩ := hpath.entered.enters hA.scope hp
  exact ⟨φ u, (Analysis.realizable_iff hp.seeds hA.graph).2 ⟨cs, p, a, u, φ, henters, hlevel, rfl⟩⟩

variable {σ : Type} [ValueCode σ L]

/-- The names of what was reached. -/
theorem Complete.hasPath_iff (h : Complete A s) {n : String} {d : D} :
    (∃ a, s.HasPath n a d) ↔ ∃ i j, s.nodes.get? i = some n ∧ s.facts.get? j = some d ∧
      s.reached.contains (pack i j) = true := by
  constructor
  · rintro ⟨a, ⟨i⟩, k, ⟨j⟩, ef, hi, -, hj, hef⟩
    exact ⟨i, j, hi, hj, (h.reached i j).2 ⟨k, ef, hef⟩⟩
  · rintro ⟨i, j, hi, hj, hk⟩
    obtain ⟨k, ef, hef⟩ := (h.reached i j).1 hk
    obtain ⟨_, _, _, source, _, hfacts⟩ := h.paths _ _ _ _ hef
    exact ⟨source, ⟨i⟩, k, ⟨j⟩, ef, hi, hfacts.hasSource, hj, hef⟩

variable [Std.TransOrd D] [Std.LawfulEqOrd D] [LawfulCode σ L]

/-- Entries are the path edges by their targets, with values as well as without. -/
theorem Solver.exists_hasPath_iff (hA : Scope A) {steps : Nat} {r : Results σ D L}
    (hsolve : solve A σ steps = .ok r) :
    ∃ s, Ends A steps s ∧ ∀ n d, (∃ v, (n, d, v) ∈ r.entries) ↔ ∃ a, s.HasPath n a d := by
  obtain ⟨s, hends, hnodes, hfacts, hreached⟩ := solve_onReached hA hsolve
  refine ⟨s, hends, fun n d => ?_⟩
  rw [(hends.complete hA).hasPath_iff, ← hnodes, ← hfacts]
  constructor
  · rintro ⟨v, hv⟩
    obtain ⟨i, j, hi, hj, hv⟩ := Results.mem_entries.1 hv
    exact ⟨i, j, hi, hj, (hreached.find?_iff _ _).1 ⟨v, hv⟩⟩
  · rintro ⟨i, j, hi, hj, hk⟩
    obtain ⟨v, hv⟩ := (hreached.find?_iff ⟨i⟩ ⟨j⟩).2 hk
    exact ⟨v, Results.mem_entries.2 ⟨i, j, hi, hj, hv⟩⟩

/-- Without values, a run that returns reports a fact at a node if and only if a realizable path
leads from a seed to it. -/
theorem entries_iff_realizable (A : Analysis D L K) (hgraph : A.graph.Built)
    (hseeds : A.SeedsAtStarts) (hplain : A.config.computeValues = false)
    (hgc : A.config.gcMode = .disabled) (hsum : A.config.useSummaryTable = true) {steps : Nat}
    {r : Results σ D L} (hsolve : Solver.solve A σ steps = .ok r) (n : String) (d : D) :
    (∃ v, (n, d, v) ∈ r.entries) ↔ ∃ v, A.Realizable n d v := by
  have hvalued : ¬ A.config.computeValues = true := by rw [hplain]; exact nofun
  have hA : Setting A := ⟨hgraph.consistent, fun _ => hseeds, .inl hgc, fun hv => absurd hv hvalued⟩
  obtain ⟨s, hends, hentries⟩ := Solver.exists_hasPath_iff hA.scope hsolve
  have hs := hends.complete hA.scope
  have hexact := hends.exactly hA.scope hseeds (.inl hsum) fun hv => absurd hv hvalued
  rw [hentries]
  constructor
  · rintro ⟨a, hpath⟩
    exact hs.exists_realizable hA hexact hpath
  · rintro ⟨v, hpath⟩
    exact hs.hasPath hA (fun hv => absurd hv hvalued) hseeds hpath

namespace Recursion

/-- `main` calls a procedure that calls itself. -/
def graph : Except Fault Supergraph := Supergraph.ofSteps
  [.proc "main" ["a", "b", "c"], .chain ["a", "b", "c"], .proc "rec" ["s", "t", "e"],
   .chain ["s", "t", "e"], .edge "s" "e", .call "b" "rec", .call "t" "rec"]

/-- The recursive procedure generates fact 1. -/
def problem : ReachabilityProblem Nat where
  zero := 0
  seeds := Seeds.empty.addFact "a" 0
  normalFlow node _ := if node = "s" then .gen 0 [1] else .identity
  callFlow _ _ := .identity
  returnFlow _ _ _ _ := .identity
  bypassFlow _ _ _ := .killAll

def analysis (g : Supergraph) : Analysis Nat Binary NoPayload :=
  ⟨problem.toProblem, g, { computeValues := false }⟩

end Recursion

/-- What the recursive procedure generates is returned to where it was called from, and holds
nowhere before. -/
theorem entries_iff_realizable_recursion :
    ∃ g r, Recursion.graph = .ok g ∧
      Solver.solve (Recursion.analysis g) (Verbatim Binary) 40 = .ok r ∧
      (∃ v, (Recursion.analysis g).Realizable "c" 1 v) ∧
      ¬ ∃ v, (Recursion.analysis g).Realizable "b" 1 v := by
  have hrun : (do
      let g ← Recursion.graph
      let r ← Solver.solve (Recursion.analysis g) (Verbatim Binary) 40
      return (g.isStart "a", r.entries)) = .ok (.ok true, [("a", 0, .top), ("b", 0, .top),
        ("c", 0, .top), ("c", 1, .top), ("s", 0, .top), ("s", 1, .top), ("e", 0, .top),
        ("e", 1, .top), ("t", 0, .top), ("t", 1, .top)]) := by
    decide +kernel
  simp only [bind_eq_ok, pure_eq_ok] at hrun
  obtain ⟨g, hg, r, hr, heq⟩ := hrun
  obtain ⟨hstart, hentries⟩ := Prod.mk.inj heq
  have hseeds : (Recursion.analysis g).SeedsAtStarts := by
    intro x hx
    obtain rfl := List.mem_singleton.1 hx
    exact hstart
  have hiff := entries_iff_realizable (Recursion.analysis g) (.ofSteps hg) hseeds rfl rfl rfl hr
  refine ⟨g, r, hg, hr, (hiff "c" 1).1 ?_, fun hpath => ?_⟩
  · exact ⟨.top, by rw [hentries]; decide⟩
  · obtain ⟨v, hv⟩ := (hiff "b" 1).2 hpath
    rw [hentries] at hv
    cases v <;> revert hv <;> decide

end Tabulation
