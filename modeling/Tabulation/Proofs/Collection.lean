import Tabulation.EdgeFunction.Affine
import Tabulation.Proofs.PlainRuns
import Tabulation.Proofs.Solver.MirrorValues

/-!
# Collection does not show in the results

A procedure is collected when nothing can happen to it any more: none of its path edges is queued,
and nobody who may call it has work to do. Then its path edges are dropped, except where callers and
results look for them, and its callers no longer wait for it.

A run that collects follows a run that does not, move by move. Without values it may come across
path edges that it has dropped and go through them again, which leads to nothing new. With values it
never does, and its labels are those of the other run under other handles. So if the run without
collection returns, the others do, too:

- `enabled` collection reports the same entries,
- `aggressive` collection reports those at start points, exit points, nodes after call sites and
  nodes that the client is interested in.

Main results: `entries_collected_plain` for runs without values, `entries_collected` for runs with
values.
-/

namespace Tabulation

variable {σ D L K : Type} [Ord D] [Ord L] [Ord K] [DecidableEq D] [JoinLattice L] [Payload K L]
  [DecidableEq L] [ValueCode σ L] [LawfulCode σ L] [ThriftyCode σ L] [Std.TransOrd D]
  [Std.LawfulEqOrd D]

/-- With enough steps a run returns, always with the same results, and these have exactly the given
entries. -/
def Solver.Yields (A : Analysis D L K) (σ : Type) [ValueCode σ L] (E : String → D → L → Prop) :
    Prop :=
  ∃ N, ∃ r : Results σ D L, (∀ n, N ≤ n → solve A σ n = .ok r) ∧
    ∀ node fact v, (node, fact, v) ∈ r.entries ↔ E node fact v

section Modes

variable {A : Analysis D L K} {steps : Nat} {r : Results σ D L} [Std.TransOrd L]
  [Std.LawfulEqOrd L] [Std.TransOrd K] [Std.LawfulEqOrd K]

theorem Comparable.yields_enabled (hA : Comparable A) (hr : Solver.solve A σ steps = .ok r) :
    Solver.Yields (A.withGc .enabled) σ fun node fact v => (node, fact, v) ∈ r.entries := by
  obtain ⟨N, r', hN, hentries⟩ := Solver.exists_solve_collected (m := .enabled) hA rfl hr
  refine ⟨N, r', hN, fun node fact v => (hentries node fact v).trans ?_⟩
  exact and_iff_left_of_imp fun _ => nofun

theorem Comparable.yields_aggressive (hA : Comparable A) (hr : Solver.solve A σ steps = .ok r) :
    Solver.Yields (A.withGc .aggressive) σ fun node fact v =>
      (node, fact, v) ∈ r.entries ∧ A.ShownAt node := by
  obtain ⟨N, r', hN, hentries⟩ := Solver.exists_solve_collected (m := .aggressive) hA rfl hr
  refine ⟨N, r', hN, fun node fact v => (hentries node fact v).trans ?_⟩
  exact and_congr_right fun _ => ⟨fun h => h rfl, fun h _ => h⟩

end Modes

/-- Collection does not show in runs without values. -/
theorem entries_collected_plain [Std.TransOrd L] [Std.LawfulEqOrd L] [Std.TransOrd K]
    [Std.LawfulEqOrd K] (A : Analysis D L K) (hgraph : A.graph.Built)
    (hgc : A.config.gcMode = .disabled) (hplain : A.config.computeValues = false) {steps : Nat}
    {r : Results σ D L} (hr : Solver.solve A σ steps = .ok r) :
    Solver.Yields (A.withGc .enabled) σ (fun node fact v => (node, fact, v) ∈ r.entries) ∧
      Solver.Yields (A.withGc .aggressive) σ fun node fact v =>
        (node, fact, v) ∈ r.entries ∧ A.ShownAt node := by
  have hoff : A.config.computeValues ≠ true := by
    rw [hplain]
    nofun
  have hA : Comparable A := ⟨hgraph.consistent, hgc, fun hv => absurd hv hoff,
    fun hv => absurd hv hoff, fun hv => absurd hv hoff⟩
  exact ⟨hA.yields_enabled hr, hA.yields_aggressive hr⟩

/-- Both kinds of collection find the fact after the call. Only one of them reports what holds
inside the callee. -/
theorem entries_collected_plain_seedInside :
    ∃ g r r', SeedInside.graph = .ok g ∧
      (∃ N, ∀ n, N ≤ n → Solver.solve ((SeedInside.analysis g false .fifo).withGc .enabled)
        (Verbatim Peak) n = .ok r) ∧
      (∃ N, ∀ n, N ≤ n → Solver.solve ((SeedInside.analysis g false .fifo).withGc .aggressive)
        (Verbatim Peak) n = .ok r') ∧
      ("c", 1, top) ∈ r.entries ∧ ("t", 0, top) ∈ r.entries ∧
      ("c", 1, top) ∈ r'.entries ∧ ("t", 0, top) ∉ r'.entries := by
  have hrun : (do
      let g ← SeedInside.graph
      let r ← Solver.solve (SeedInside.analysis g false .fifo) (Verbatim Peak) 40
      return (g.procOf "c", g.procOf "t",
        Solver.keepAt (SeedInside.analysis g false .fifo) "c" true,
        Solver.keepAt (SeedInside.analysis g false .fifo) "t" true, r.entries)) =
      .ok (.ok "main", .ok "p", .ok true, .ok false, [("b", 0, top), ("c", 0, top), ("c", 1, top),
        ("s", 0, top), ("e", 0, top), ("t", 0, top)]) := by
    set_option synthInstance.maxSize 1024 in
    decide +kernel
  simp only [bind_eq_ok, pure_eq_ok, Prod.mk.injEq] at hrun
  obtain ⟨g, hg, r, hr, hc, ht, hkeep, hdrop, hentries⟩ := hrun
  have hbuilt := Supergraph.Built.ofSteps hg
  obtain ⟨⟨N, r₁, hN, hiff⟩, N', r₂, hN', hiff'⟩ :=
    entries_collected_plain (SeedInside.analysis g false .fifo) hbuilt rfl rfl hr
  have hshown := (Solver.keepAt_results_iff (A := SeedInside.analysis g false .fifo)
    hbuilt.consistent (Supergraph.known_of_procOf hc)).1 hkeep
  have hhidden := mt (Solver.keepAt_results_iff (A := SeedInside.analysis g false .fifo)
    hbuilt.consistent (Supergraph.known_of_procOf ht)).2 (by rw [hdrop]; nofun)
  have hin : ("c", 1, top) ∈ r.entries := by
    rw [hentries]
    decide
  have hin' : ("t", 0, top) ∈ r.entries := by
    rw [hentries]
    decide
  exact ⟨g, r₁, r₂, hg, ⟨N, hN⟩, ⟨N', hN'⟩, (hiff _ _ _).2 hin, (hiff _ _ _).2 hin',
    (hiff' _ _ _).2 ⟨hin, hshown⟩, fun h => hhidden ((hiff' _ _ _).1 h).2⟩

/-- Collection does not show in runs with values, if all payloads are shared. -/
theorem entries_collected (A : Analysis D L K) (hgraph : A.graph.Built)
    (hgc : A.config.gcMode = .disabled) (hseeds : A.SeedsAtStarts) (hlaws : LawfulLabels L K)
    (hshared : EdgeStore.SharedPayloads L K)
    {steps : Nat} {r : Results σ D L} (hr : Solver.solve A σ steps = .ok r) :
    Solver.Yields (A.withGc .enabled) σ (fun node fact v => (node, fact, v) ∈ r.entries) ∧
      Solver.Yields (A.withGc .aggressive) σ fun node fact v =>
        (node, fact, v) ∈ r.entries ∧ A.ShownAt node := by
  obtain ⟨_, _, _, _⟩ := hlaws.orders
  have hA : Comparable A := ⟨hgraph.consistent, hgc, fun _ => hseeds, fun _ => hlaws,
    fun _ => hshared⟩
  exact ⟨hA.yields_enabled hr, hA.yields_aggressive hr⟩

namespace Affine

theorem lawfulLabels : LawfulLabels (Flat Int64) Affine :=
  ⟨inferInstance, inferInstance, inferInstance, inferInstance, inferInstance, inferInstance⟩

theorem sharedPayloads : EdgeStore.SharedPayloads (Flat Int64) Affine :=
  ⟨fun _ => rfl, fun _ _ => rfl⟩

end Affine

namespace Detour

/-- The callee computes `3 * v + 2` in one step and in two. -/
def step (node succ : String) : EdgeFunction (Flat Int64) Affine :=
  match node, succ with
  | "s", "t" => .custom ⟨3, 1, Affine.odd_three⟩
  | "t", "e" => .custom ⟨1, 1, Affine.odd_one⟩
  | "s", "e" => .custom ⟨3, 2, Affine.odd_three⟩
  | _, _ => .identity

def problem : Problem Nat (Flat Int64) Affine where
  zero := 0
  seeds := Seeds.empty.add "a" 1 (.value 5)
  normalFlow _ _ := .identity
  callFlow _ _ := .identity
  returnFlow _ _ _ _ := .identity
  bypassFlow _ _ _ := .killAll
  normalEdge node _ succ _ := step node succ

def analysis (g : Supergraph) : Analysis Nat (Flat Int64) Affine := ⟨problem, g, {}⟩

theorem seedsAtStarts {g : Supergraph} (h : g.isStart "a" = .ok true) :
    (analysis g).SeedsAtStarts := by
  intro x hx
  obtain rfl := List.mem_singleton.1 hx
  exact h

end Detour

/-- All runs find the value 17 after the call. The value inside the callee is not reported by
aggressive collection. -/
theorem entries_collected_detour :
    ∃ g r r', SeedInside.graph = .ok g ∧
      (∃ N, ∀ n, N ≤ n → Solver.solve ((Detour.analysis g).withGc .enabled)
        (Interner (Flat Int64)) n = .ok r) ∧
      (∃ N, ∀ n, N ≤ n → Solver.solve ((Detour.analysis g).withGc .aggressive)
        (Interner (Flat Int64)) n = .ok r') ∧
      ("c", 1, .value 17) ∈ r.entries ∧ ("t", 1, .value 16) ∈ r.entries ∧
      ("c", 1, .value 17) ∈ r'.entries ∧ ("t", 1, .value 16) ∉ r'.entries := by
  have hrun : (do
      let g ← SeedInside.graph
      let r ← Solver.solve (Detour.analysis g) (Interner (Flat Int64)) 40
      return (g.isStart "a", g.procOf "c", g.procOf "t", Solver.keepAt (Detour.analysis g) "c" true,
        Solver.keepAt (Detour.analysis g) "t" true, r.entries)) =
      .ok (.ok true, .ok "main", .ok "p", .ok true, .ok false, [("a", 1, .value 5),
        ("b", 1, .value 5), ("c", 1, .value 17), ("s", 1, .value 5), ("e", 1, .value 17),
        ("t", 1, .value 16)]) := by
    set_option synthInstance.maxSize 4096 in
    decide +kernel
  simp only [bind_eq_ok, pure_eq_ok, Prod.mk.injEq] at hrun
  obtain ⟨g, hg, r, hr, hstart, hc, ht, hkeep, hdrop, hentries⟩ := hrun
  have hbuilt := Supergraph.Built.ofSteps hg
  obtain ⟨⟨N, r₁, hN, hiff⟩, N', r₂, hN', hiff'⟩ := entries_collected (Detour.analysis g) hbuilt rfl
    (Detour.seedsAtStarts hstart) Affine.lawfulLabels Affine.sharedPayloads hr
  have hshown := (Solver.keepAt_results_iff (A := Detour.analysis g) hbuilt.consistent
    (Supergraph.known_of_procOf hc)).1 hkeep
  have hhidden := mt (Solver.keepAt_results_iff (A := Detour.analysis g) hbuilt.consistent
    (Supergraph.known_of_procOf ht)).2 (by rw [hdrop]; nofun)
  have hin : ("c", 1, .value 17) ∈ r.entries := by
    rw [hentries]
    decide
  have hin' : ("t", 1, .value 16) ∈ r.entries := by
    rw [hentries]
    decide
  exact ⟨g, r₁, r₂, hg, ⟨N, hN⟩, ⟨N', hN'⟩, (hiff _ _ _).2 hin, (hiff _ _ _).2 hin',
    (hiff' _ _ _).2 ⟨hin, hshown⟩, fun h => hhidden ((hiff' _ _ _).1 h).2⟩

end Tabulation
