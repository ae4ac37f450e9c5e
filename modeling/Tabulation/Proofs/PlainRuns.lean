import Tabulation.EdgeFunction.PeakMap
import Tabulation.Proofs.Derivation

/-!
# Runs with and without values

A run that computes values stores a path edge again whenever its label changes, and values arrive at
start points later. None of this decides which facts are found: they are the derived ones in either
case, and what is derived mentions no label. So a run without values has the entries of one with
values, all of them top, `entries_computeValues`. No law is needed, neither of values nor of the
functions on edges.
-/

namespace Tabulation

variable {D L K : Type} [Ord L] [Ord K] [JoinLattice L] [Payload K L] {A B : Analysis D L K}

theorem Scope.of_disabled (hgraph : A.graph.Built) (hgc : A.config.gcMode = .disabled)
    (horders : A.config.computeValues = true → LawfulOrders L K) : Scope A where
  graph := hgraph.consistent
  seeds henabled := by
    rw [hgc] at henabled
    cases henabled
  mode := .inl hgc
  orders := horders

variable [Ord D] [DecidableEq D] [DecidableEq L] {σ : Type} [ValueCode σ L] [LawfulCode σ L]

theorem Solver.entry_eq_top (hplain : A.config.computeValues = false) {steps : Nat}
    {r : Results σ D L} (hr : solve A σ steps = .ok r) {n : String} {d : D} {v : L}
    (hv : (n, d, v) ∈ r.entries) : v = top := by
  obtain ⟨s, -, -, -, -, hfind⟩ := solve_plain_spec hplain hr
  obtain ⟨i, j, -, -, hv⟩ := Results.mem_entries.1 hv
  exact ((hfind _ _ _).1 hv).2

variable [Std.TransOrd D] [Std.LawfulEqOrd D]

/-- Two runs about one problem report the same facts if callees are sealed in both. -/
theorem Solver.exists_entry_congr (hA : Scope A) (hB : Scope B) (hAB : A.Agrees B)
    (hsealed : A.Sealed) (hsealed' : B.Sealed) {steps steps' : Nat} {r r' : Results σ D L}
    (hr : solve A σ steps = .ok r) (hr' : solve B σ steps' = .ok r') (n : String) (d : D) :
    (∃ v, (n, d, v) ∈ r.entries) ↔ ∃ v, (n, d, v) ∈ r'.entries := by
  obtain ⟨hfound, hderived⟩ := entries_derived hA hr n d
  obtain ⟨hfound', hderived'⟩ := entries_derived hB hr' n d
  constructor
  · intro hentry
    obtain ⟨p, a, hd⟩ := hderived hsealed hentry
    exact hfound' ⟨p, a, hd.congr hAB⟩
  · intro hentry
    obtain ⟨p, a, hd⟩ := hderived' hsealed' hentry
    exact hfound ⟨p, a, hd.congr hAB.symm⟩

theorem Solver.valueAt_plain (hA : Scope A) (hplain : A.config.computeValues = false) {steps : Nat}
    {r : Results σ D L} (hr : solve A σ steps = .ok r) (n : String) (d : D) :
    r.valueAt n d = top := by
  obtain ⟨s, hends, hnodes, hfacts, hdefault, hfind⟩ := solve_plain_spec hplain hr
  have hs := hends.complete hA
  rcases Results.valueAt_cases (hnodes ▸ hs.nodes) (hfacts ▸ hs.facts) n d with
    ⟨i, j, -, -, heq⟩ | heq
  · rw [heq, ValueTable.get_eq]
    cases hv : r.values.find? ⟨i⟩ ⟨j⟩ with
    | none => exact hdefault
    | some v => exact ((hfind _ _ _).1 hv).2
  · rw [heq, hdefault]

/-- With the summary table, a run reports the same facts whether or not it computes values. If it
does not, they all have the value top. -/
theorem entries_computeValues [Std.TransOrd L] [Std.LawfulEqOrd L] [Std.TransOrd K]
    [Std.LawfulEqOrd K] (A B : Analysis D L K) (hAB : A.Agrees B) (hgraph : A.graph.Built)
    (hplain : B.config.computeValues = false) (hgcA : A.config.gcMode = .disabled)
    (hgcB : B.config.gcMode = .disabled) (htableA : A.config.useSummaryTable = true)
    (htableB : B.config.useSummaryTable = true)
    {steps steps' : Nat} {r r' : Results σ D L} (hr : Solver.solve A σ steps = .ok r)
    (hr' : Solver.solve B σ steps' = .ok r') :
    (∀ n d, (∃ v, (n, d, v) ∈ r.entries) ↔ ∃ v, (n, d, v) ∈ r'.entries) ∧
      ∀ n d v, (n, d, v) ∈ r'.entries → v = top := by
  have horders : LawfulOrders L K := ⟨inferInstance, inferInstance, inferInstance, inferInstance⟩
  have hscope : Scope A := .of_disabled hgraph hgcA fun _ => horders
  have hscope' : Scope B := .of_disabled (hAB.graph ▸ hgraph) hgcB fun _ => horders
  constructor
  · exact Solver.exists_entry_congr hscope hscope' hAB (.inl htableA) (.inl htableB) hr hr'
  · intro n d v hv
    exact Solver.entry_eq_top hplain hr' hv

namespace SeedInside

/-- A call of a procedure with two ways to its exit point. -/
def graph : Except Fault Supergraph := Supergraph.ofSteps
  [.proc "main" ["a", "b", "c"], .chain ["a", "b", "c"], .proc "p" ["s", "t", "e"],
   .chain ["s", "t", "e"], .edge "s" "e", .exit "e", .call "b" "p"]

/-- The seed is at the call site. Sums stop at the bound, so how they compose matters. -/
def problem : Problem Nat Peak PeakMap where
  zero := 0
  seeds := Seeds.empty.add "b" 0 ⟨5⟩
  normalFlow _ _ := .identity
  callFlow _ _ := .identity
  returnFlow _ _ _ _ := .gen 0 [1]
  bypassFlow _ _ _ := .killAll
  normalEdge x _ y _ :=
    if x = "s" ∧ y = "e" then .custom (.cap 1) else .custom (.add Int64.maxValue)
  returnEdge _ _ _ _ _ _ := .custom (.add (-1))

def analysis (g : Supergraph) (computeValues : Bool) (queueOrder : QueueOrder) :
    Analysis Nat Peak PeakMap := ⟨problem, g, { computeValues, queueOrder }⟩

end SeedInside

/-- With values, the summary of the callee changes and is returned again. Both runs find fact 1
after the call and nothing before it. -/
theorem entries_computeValues_seedInside :
    ∃ g r r', SeedInside.graph = .ok g ∧
      Solver.solve (SeedInside.analysis g true .lifo) (Verbatim Peak) 40 = .ok r ∧
      Solver.solve (SeedInside.analysis g false .fifo) (Verbatim Peak) 40 = .ok r' ∧
      r'.stats.pathEdges < r.stats.pathEdges ∧ ("c", 1, top) ∈ r'.entries ∧
      ¬ ∃ v, ("a", 0, v) ∈ r'.entries := by
  have hrun : (do
      let g ← SeedInside.graph
      let r ← Solver.solve (SeedInside.analysis g true .lifo) (Verbatim Peak) 40
      let r' ← Solver.solve (SeedInside.analysis g false .fifo) (Verbatim Peak) 40
      return (r.stats.pathEdges, r'.stats.pathEdges,
        r.entries.map fun x : String × Nat × Peak => (x.1, x.2.1))) =
      .ok (8, 6, [("b", 0), ("c", 0), ("c", 1), ("s", 0), ("e", 0), ("t", 0)]) := by
    decide +kernel
  simp only [bind_eq_ok, pure_eq_ok, Prod.mk.injEq] at hrun
  obtain ⟨g, hg, r, hr, r', hr', hstored, hstored', hkeys⟩ := hrun
  obtain ⟨hiff, htop⟩ := entries_computeValues (SeedInside.analysis g true .lifo)
    (SeedInside.analysis g false .fifo) ⟨rfl, rfl, rfl⟩ (.ofSteps hg) rfl rfl rfl rfl rfl hr hr'
  refine ⟨g, r, r', hg, hr, hr', ?_, ?_, fun ha => ?_⟩
  · rw [hstored, hstored']
    decide
  · obtain ⟨v, hv⟩ := (hiff "c" 1).1 (mem_keys.1 (by rw [hkeys]; decide))
    rwa [htop _ _ _ hv] at hv
  · have ha' := mem_keys.2 ((hiff "a" 0).2 ha)
    rw [hkeys] at ha'
    revert ha'
    decide

end Tabulation
