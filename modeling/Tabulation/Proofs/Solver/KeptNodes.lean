import Tabulation.Proofs.Solver.Effects

/-!
# The nodes that keep their information

A collected procedure keeps its path edges at the nodes where others look for them: its start and
exit points, where it is entered and left, and the nodes after its call sites, where callees return.
Results are kept at these nodes and at those that the client is interested in.
-/

namespace Tabulation

variable {D L K : Type} {A : Analysis D L K}

/-- A start point, an exit point or a node after a call site. -/
def Supergraph.Boundary (g : Supergraph) (x : String) : Prop :=
  g.isExit x = .ok true ∨ g.isStart x = .ok true ∨ ∃ n, g.Succ n x ∧ g.isCallSite n = .ok true

/-- A node whose results are kept. -/
def Analysis.ShownAt (A : Analysis D L K) (x : String) : Prop :=
  A.graph.Boundary x ∨ A.problem.interesting x = true

theorem Supergraph.mem_preds_iff {g : Supergraph} (hg : g.Consistent) {n x : String}
    {ms : List String} (hx : g.preds x = .ok ms) : n ∈ ms ↔ g.Succ n x := by
  refine ⟨fun hn => ?_, fun h => mem_preds hg h hx⟩
  obtain ⟨info, hinfo, rfl⟩ := preds_eq_ok.1 hx
  obtain ⟨info', hinfo', hmem⟩ := hg.preds x info n hinfo hn
  exact ⟨info'.succs, succs_eq_ok.2 ⟨info', hinfo', rfl⟩, hmem⟩

/-- A search whose tests all return finds what it looks for. -/
theorem anyM_eq_ok_true {ε α : Type} {p : α → Except ε Bool} {l : List α}
    (h : ∀ a ∈ l, ∃ b, p a = .ok b) : l.anyM p = .ok true ↔ ∃ a ∈ l, p a = .ok true := by
  induction l with
  | nil => simp [pure_eq_ok]
  | cons a l ih =>
    obtain ⟨b, hb⟩ := h a List.mem_cons_self
    have ih := ih fun a' ha' => h a' (List.mem_cons_of_mem a ha')
    rw [List.exists_mem_cons_iff, ← ih, List.anyM_cons, hb]
    cases b with
    | true => exact iff_of_true rfl (.inl rfl)
    | false => exact ⟨.inr, fun h => h.resolve_left nofun⟩

namespace Solver

theorem keepAt_iff (hg : A.graph.Consistent) {x : String} (hx : A.graph.Known x)
    (forResults : Bool) : keepAt A x forResults = .ok true ↔ A.graph.Boundary x ∨
      ((forResults || A.config.computeValues) && A.problem.interesting x) = true ∨
      (!forResults && A.config.computeValues && !A.config.gcMode.isAggressive) = true := by
  obtain ⟨exit, hexit⟩ := hx.isExit
  obtain ⟨start, hstart⟩ := hx.isStart
  obtain ⟨ms, hms, hknown⟩ := hx.preds hg
  have hany := anyM_eq_ok_true fun m hm => (hknown m hm).isCallSite
  obtain ⟨called, hcalled⟩ := anyM_total fun m hm => (hknown m hm).isCallSite
  have hsite : called = true ↔ ∃ n, A.graph.Succ n x ∧ A.graph.isCallSite n = .ok true := by
    rw [hcalled, Except.ok.injEq] at hany
    rw [hany]
    exact exists_congr fun n => and_congr_left fun _ => Supergraph.mem_preds_iff hg hms
  have hboundary : A.graph.Boundary x ↔ (exit || start || called) = true := by
    rw [Supergraph.Boundary, hexit, hstart, ← hsite]
    simp [or_assoc]
  rw [hboundary]
  unfold keepAt
  rw [hexit, ok_bind, hstart, ok_bind]
  split
  · next h => simp [h, pure_eq_ok]
  rw [hms, ok_bind, hcalled, ok_bind]
  split
  · next h => simp [h, pure_eq_ok]
  split
  · next h => simp [h, pure_eq_ok]
  · next h₁ h₂ h₃ => simp [h₁, h₂, h₃, pure_eq_ok]

theorem keepAt_of_boundary (hg : A.graph.Consistent) {x : String} (hx : A.graph.Known x)
    (h : A.graph.Boundary x) (forResults : Bool) : keepAt A x forResults = .ok true :=
  (keepAt_iff hg hx forResults).2 (.inl h)

/-- Results are kept at the nodes that are reported. -/
theorem keepAt_results_iff (hg : A.graph.Consistent) {x : String} (hx : A.graph.Known x) :
    keepAt A x true = .ok true ↔ A.ShownAt x := by
  rw [keepAt_iff hg hx]
  simp [Analysis.ShownAt]

end Solver

end Tabulation
