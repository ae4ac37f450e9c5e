import Tabulation.Proofs.PathValues
import Tabulation.Proofs.PlainRuns

/-!
# The order of work does not matter

The facts that are found are the derived ones, whatever the order in which path edges and values are
taken from their queues. If edge functions distribute over joins and no join is widened, the value
of a fact at a node is the least one above the values of the paths that are `Reported` there. This
does not mention an order either, so all orders lead to the same results, `entries_queueOrder`.

Widening is different: how many functions meet in a join depends on which of them were joined before
they were composed with others, and a join with too many parts is widened to bottom. So the order
can decide whether a value is bottom, `entries_queueOrder_widened`.
-/

namespace Tabulation

section Paths

variable {D L K : Type} [JoinLattice L] [Payload K L] {A B : Analysis D L K}

theorem Analysis.Agrees.distributive (hAB : A.Agrees B) (h : A.Distributive) : B.Distributive := by
  intro e he
  refine h e ?_
  cases he <;> rw [← hAB.problem]
  exacts [.normal .., .call .., .ret .., .bypass .., .summary ..]

theorem Analysis.Distributive.monotone (h : A.Distributive) : A.Monotone :=
  fun e he => (h e he).respects

variable [DecidableEq D]

theorem Analysis.SameLevel.congr (hAB : A.Agrees B) {p n : String} {a d : D} {φ : L → L}
    (h : A.SameLevel p a n d φ) : B.SameLevel p a n d φ := by
  induction h with
  | start hs => exact .start (hAB.graph ▸ hs)
  | inside _ he ih => exact ih.inside (he.congr hAB)
  | across _ he _ he' ih ih' => exact ih.across (he.congr hAB) ih' (he'.congr hAB)

theorem Analysis.Enters.congr (hAB : A.Agrees B) {cs : List (String × String)} {p : String} {a : D}
    {u : L} (h : A.Enters cs p a u) : B.Enters cs p a u := by
  induction h with
  | seed hseed hs => exact .seed (hAB.problem ▸ hseed) (hAB.graph ▸ hs)
  | call _ hlevel he hs ih => exact ih.call (hlevel.congr hAB) (he.congr hAB) (hAB.graph ▸ hs)

/-- The values of the paths that count at a node. At a start point these are the paths that enter
its procedure. -/
inductive Analysis.Reported (A : Analysis D L K) (n : String) (d : D) : L → Prop
  | start {cs : List (String × String)} {p : String} {u : L} : A.graph.StartOf p n →
      A.Enters cs p d u → Reported A n d u
  | inner {cs : List (String × String)} {p : String} {a : D} {u : L} {φ : L → L} :
      A.graph.isStart n ≠ .ok true → A.Enters cs p a u → A.SameLevel p a n d φ →
      Reported A n d (φ u)

theorem Analysis.Reported.congr (hAB : A.Agrees B) {n : String} {d : D} {v : L}
    (h : A.Reported n d v) : B.Reported n d v := by
  cases h with
  | start hs henters => exact .start (hAB.graph ▸ hs) (henters.congr hAB)
  | inner hn henters hlevel =>
    exact .inner (hAB.graph ▸ hn) (henters.congr hAB) (hlevel.congr hAB)

end Paths

variable {σ D L K : Type} [Ord D] [Ord L] [Ord K] [DecidableEq D] [JoinLattice L] [Payload K L]
  [DecidableEq L] [ValueCode σ L] [LawfulCode σ L] [Std.TransOrd D] [Std.LawfulEqOrd D]
  {A B : Analysis D L K} {steps : Nat} {r : Results σ D L}

/-- Values are above what is reported. -/
theorem Analysis.Reported.below (hA : Setting A) (hv : A.config.computeValues = true)
    (hmono : A.Monotone) (hsolve : Solver.solve A σ steps = .ok r) {n : String} {d : D} {v : L}
    (h : A.Reported n d v) : Below v (r.valueAt n d) := by
  obtain ⟨s, hends, hnodes, hfacts, -, hspec⟩ := Solver.solve_valued_spec hA hv hsolve
  have hs := hends.complete hA.scope
  obtain ⟨e, hempty, hvisited, hacc⟩ := hspec _ (Solver.kept_startPoint hA hv hs)
  cases h with
  | start hsn henters =>
    obtain ⟨k, j, ⟨sp, hsp, hk, hj⟩, -, -, hle⟩ :=
      hvisited.entered hA hv hmono hs hempty henters
    obtain rfl := hsp.unique hA.graph hsn
    rwa [hs.valueAt_eq hnodes hfacts hk hj, hacc.starts _ _ ⟨sp, _, hk, hsp⟩]
  | inner hn henters hlevel =>
    obtain ⟨k, j, hk, hj, hle⟩ :=
      hacc.below_of_path hA hv hmono hs hvisited hempty henters hlevel (.inl hn)
    rwa [hs.valueAt_eq hnodes hfacts hk hj]

/-- In a run without widening, values are joins of what is reported. -/
theorem exists_reported (hA : Setting A) (hv : A.config.computeValues = true)
    (hseeds : A.SeedsAtStarts) (hgc : A.config.gcMode = .disabled) (hsealed : A.Sealed)
    (hdist : A.Distributive) (hwide : A.Unwidened steps)
    (hsolve : Solver.solve A σ steps = .ok r) (n : String) (d : D) :
    ∃ vs, r.valueAt n d = joinAll vs ∧ ∀ v ∈ vs, A.Reported n d v := by
  obtain ⟨s, hends, hnodes, hfacts, hdefault, hspec⟩ := Solver.solve_valued_spec hA hv hsolve
  have hs := hends.complete hA.scope
  have hp := hends.exactly hA.scope hseeds hsealed fun _ => ⟨hdist, hgc, hwide⟩
  obtain ⟨e, hempty, hvisited, hacc⟩ := hspec _ (kept_joinsEntries hA hv hdist hs hp)
  rcases Results.valueAt_cases (hnodes ▸ hs.nodes) (hfacts ▸ hs.facts) n d with
    ⟨k, j, hk, hj, heq⟩ | heq
  swap
  · exact ⟨[], heq.trans hdefault, fun v hv => absurd hv List.not_mem_nil⟩
  rw [heq]
  rw [hnodes] at hk
  rw [hfacts] at hj
  by_cases hn : A.graph.isStart n = .ok true
  · obtain ⟨p, hsp⟩ := Supergraph.exists_startOf hA.graph hn
    rw [hacc.starts _ _ ⟨n, p, hk, hsp⟩]
    by_cases hseen : e.Seen ⟨k⟩ ⟨j⟩
    · obtain ⟨⟨q, a, us, hentry, -, hus, henters⟩, -⟩ := hvisited.seen _ _ hseen
      obtain ⟨rfl, rfl⟩ := hentry.inj hA ⟨n, hsp, hk, hj⟩
      exact ⟨us, hus, fun u hu => (henters u hu).elim fun cs h => .start hsp h⟩
    · exact ⟨[], hvisited.unseen _ _ hseen, fun v hv => absurd hv List.not_mem_nil⟩
  · obtain ⟨vs, hvs, hpaths⟩ := hacc.joinAll_of_path hA hv hdist hs hp hvisited hempty hk hj
    refine ⟨vs, hvs, fun v hv => ?_⟩
    obtain ⟨cs, p, a, u, φ, henters, hlevel, rfl⟩ := (hpaths v hv).split hseeds hA.graph
    exact .inner hn henters hlevel

/-- Entries show the values of facts. -/
theorem Solver.mem_entries_iff (hA : Setting A) (hv : A.config.computeValues = true)
    (hsolve : solve A σ steps = .ok r) (n : String) (d : D) (v : L) :
    (n, d, v) ∈ r.entries ↔ (∃ w, (n, d, w) ∈ r.entries) ∧ v = r.valueAt n d := by
  obtain ⟨s, hends, hnodes, hfacts, -⟩ := solve_valued_spec hA hv hsolve
  have hs := hends.complete hA.scope
  have hvalue : ∀ w, (n, d, w) ∈ r.entries → w = r.valueAt n d := by
    intro w hw
    obtain ⟨i, j, hi, hj, hfind⟩ := Results.mem_entries.1 hw
    rw [Results.valueAt_eq_get (hnodes ▸ hs.nodes) (hfacts ▸ hs.facts) hi hj, ValueTable.get_eq,
      hfind, Option.getD_some]
  constructor
  · exact fun h => ⟨⟨v, h⟩, hvalue v h⟩
  · rintro ⟨⟨w, hw⟩, rfl⟩
    exact hvalue w hw ▸ hw

/-- Two runs find the same facts, whatever the orders of their queues, and runs without widening
report the same values. -/
theorem entries_queueOrder (A B : Analysis D L K) (hAB : A.Agrees B) (hgraph : A.graph.Built)
    (hseeds : A.SeedsAtStarts) (hvA : A.config.computeValues = true)
    (hvB : B.config.computeValues = true) (hgcA : A.config.gcMode = .disabled)
    (hgcB : B.config.gcMode = .disabled) (hsealedA : A.Sealed) (hsealedB : B.Sealed)
    (hlaws : LawfulLabels L K) {steps steps' : Nat} {r r' : Results σ D L}
    (hr : Solver.solve A σ steps = .ok r) (hr' : Solver.solve B σ steps' = .ok r') (n : String)
    (d : D) :
    ((∃ v, (n, d, v) ∈ r.entries) ↔ ∃ v, (n, d, v) ∈ r'.entries) ∧
      (A.Distributive → A.Unwidened steps → B.Unwidened steps' →
        ∀ v, (n, d, v) ∈ r.entries ↔ (n, d, v) ∈ r'.entries) := by
  have hA : Setting A := ⟨hgraph.consistent, fun _ => hseeds, .inl hgcA, fun _ => hlaws⟩
  have hB : Setting B := ⟨hAB.graph ▸ hgraph.consistent, fun _ => hAB.seedsAtStarts hseeds,
    .inl hgcB, fun _ => hlaws⟩
  have := hA.join hvA
  have hentry := Solver.exists_entry_congr hA.scope hB.scope hAB hsealedA hsealedB hr hr' n d
  refine ⟨hentry, fun hdist hwide hwide' v => ?_⟩
  have hdistB : B.Distributive := hAB.distributive hdist
  have hvalue : r.valueAt n d = r'.valueAt n d := by
    obtain ⟨vs, hvs, hreported⟩ :=
      exists_reported hA hvA hseeds hgcA hsealedA hdist hwide hr n d
    obtain ⟨ws, hws, hreported'⟩ :=
      exists_reported hB hvB (hAB.seedsAtStarts hseeds) hgcB hsealedB hdistB hwide' hr' n d
    refine Below.antisymm ?_ ?_
    · rw [hvs]
      exact joinAll_below fun v hv => ((hreported v hv).congr hAB).below hB hvB hdistB.monotone hr'
    · rw [hws]
      exact joinAll_below fun w hw =>
        ((hreported' w hw).congr hAB.symm).below hA hvA hdist.monotone hr
  rw [Solver.mem_entries_iff hA hvA hr, Solver.mem_entries_iff hB hvB hr', hentry, hvalue]

namespace Braid

/-- Two branches meet at `n`, and meet a third one at `m`. -/
def graph : Except Fault Supergraph := Supergraph.ofSteps
  [.proc "main" ["a", "b1", "b2", "b3", "n", "m"], .chain ["a", "b1"], .chain ["a", "b2"],
   .chain ["a", "b3"], .chain ["b1", "n"], .chain ["b2", "n"], .chain ["n", "m"],
   .chain ["b3", "m"]]

/-- The first and the third branch shift alike. -/
def shift (node succ : String) : EdgeFunction Mask MaskMap :=
  match node, succ with
  | "a", "b1" | "a", "b3" => .custom (.shiftLeft 1)
  | "a", "b2" => .custom (.shiftLeft 2)
  | "n", "m" | "b3", "m" => .custom (.shiftLeft 3)
  | _, _ => .identity

def problem : Problem Nat Mask MaskMap where
  zero := 0
  seeds := Seeds.empty.add "a" 0 ⟨1⟩
  normalFlow _ _ := .identity
  callFlow _ _ := .identity
  returnFlow _ _ _ _ := .identity
  bypassFlow _ _ _ := .killAll
  normalEdge node _ succ _ := shift node succ

def analysis (g : Supergraph) (queueOrder : QueueOrder) : Analysis Nat Mask MaskMap :=
  ⟨problem, g, { joinLimit := 2, queueOrder }⟩

/-- Three functions may meet in a join. -/
def wide (g : Supergraph) (queueOrder : QueueOrder) : Analysis Nat Mask MaskMap :=
  ⟨problem, g, { joinLimit := 3, queueOrder }⟩

end Braid

/-- With joins of up to three parts, both orders report the same values, though far more functions
are stored than that. -/
theorem entries_queueOrder_braid :
    ∃ g r r', Braid.graph = .ok g ∧
      Solver.solve (Braid.wide g .lifo) (Verbatim Mask) 40 = .ok r ∧
      Solver.solve (Braid.wide g .fifo) (Verbatim Mask) 40 = .ok r' ∧
      r.stats.edgesInterned = 9 ∧ ("m", 0, ⟨48⟩) ∈ r'.entries := by
  have hrun : (do
      let g ← Braid.graph
      let s₀ ← Solver.create (Braid.wide g .lifo)
      let s ← Solver.run (Braid.wide g .lifo) 40 s₀
      let t₀ ← Solver.create (Braid.wide g .fifo)
      let t ← Solver.run (Braid.wide g .fifo) 40 t₀
      let r ← Solver.solve (Braid.wide g .lifo) (Verbatim Mask) 40
      let _ ← Solver.solve (Braid.wide g .fifo) (Verbatim Mask) 40
      return (g.isStart "a", s.store.joined.table.toList.all (·.2 ≠ EdgeRef.allBottom),
        t.store.joined.table.toList.all (·.2 ≠ EdgeRef.allBottom), r.stats.edgesInterned,
        r.entries)) =
      .ok (.ok true, true, true, 9, [("a", 0, ⟨1⟩), ("b1", 0, ⟨2⟩), ("b2", 0, ⟨4⟩),
        ("b3", 0, ⟨2⟩), ("m", 0, ⟨48⟩), ("n", 0, ⟨6⟩)]) := by
    set_option synthInstance.maxSize 1024 in
    decide +kernel
  simp only [bind_eq_ok, pure_eq_ok, Prod.mk.injEq] at hrun
  obtain ⟨g, hg, s₀, hs₀, s, hs, t₀, ht₀, t, ht, r, hr, r', hr', hstart, hsj, htj, hinterned,
    hentries⟩ := hrun
  have hbuilt := Supergraph.Built.ofSteps hg
  have hseeds : (Braid.wide g .lifo).SeedsAtStarts := by
    intro x hx
    obtain rfl := List.mem_singleton.1 hx
    exact hstart
  have hwide : (Braid.wide g .lifo).Unwidened 40 := Solver.unwidened_of_joined
    (.of_disabled hbuilt rfl fun _ => Mask.lawfulLabels.orders) Mask.lawfulLabels hs₀ hs hsj
  have hwide' : (Braid.wide g .fifo).Unwidened 40 := Solver.unwidened_of_joined
    (.of_disabled hbuilt rfl fun _ => Mask.lawfulLabels.orders) Mask.lawfulLabels ht₀ ht htj
  refine ⟨g, r, r', hg, hr, hr', hinterned, ?_⟩
  have hsame := entries_queueOrder (Braid.wide g .lifo) (Braid.wide g .fifo) ⟨rfl, rfl, rfl⟩ hbuilt
    hseeds rfl rfl rfl rfl (.inl rfl) (.inl rfl) Mask.lawfulLabels hr hr' "m" 0
  refine (hsame.2 (Mask.distributive _) hwide hwide' ⟨48⟩).1 ?_
  rw [hentries]
  decide

/-- With joins of at most two parts, the order decides whether three functions meet in a join. -/
theorem entries_queueOrder_widened :
    ∃ g r r', Braid.graph = .ok g ∧
      Solver.solve (Braid.analysis g .lifo) (Verbatim Mask) 40 = .ok r ∧
      Solver.solve (Braid.analysis g .fifo) (Verbatim Mask) 40 = .ok r' ∧
      r.valueAt "m" 0 = bottom ∧ r'.valueAt "m" 0 = ⟨48⟩ := by
  have hrun : (do
      let g ← Braid.graph
      let r ← Solver.solve (Braid.analysis g .lifo) (Verbatim Mask) 40
      let r' ← Solver.solve (Braid.analysis g .fifo) (Verbatim Mask) 40
      return (r.valueAt "m" 0, r'.valueAt "m" 0)) = .ok (bottom, ⟨48⟩) := by
    decide +kernel
  simp only [bind_eq_ok, pure_eq_ok, Prod.mk.injEq] at hrun
  obtain ⟨g, hg, r, hr, r', hr', hlifo, hfifo⟩ := hrun
  exact ⟨g, r, r', hg, hr, hr', hlifo, hfifo⟩

end Tabulation
