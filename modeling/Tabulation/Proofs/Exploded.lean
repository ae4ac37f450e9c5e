import Tabulation.Proofs.Graph
import Tabulation.Solver.State

/-!
# Realizable paths in the exploded supergraph

What an analysis should find out, said without the solver. The exploded supergraph has a point for
each node and fact. Its edges follow the flow functions of the problem:

- `Inside`: edges within a procedure. A node that is no call site has normal edges. A call site has
  edges past its callees, and edges across the callees that the client summarises.
- `Enter`: from a call site into a callee that is not summarised.
- `Leave`: from an exit point of a callee, which is not itself a call site, to a return site.

**Paths.** A path remembers the calls that it has not returned from, so it returns to where it was
called from. `Realizable A n d v` says that such a path leads from a seed to fact `d` at node `n`,
and that its edge functions take the value of the seed to `v`.

**Decomposition.** `realizable_iff` takes a path apart: first it enters procedures, `Enters`, and
then it stays at the level of the last one, `SameLevel`, whose calls all return.
-/

namespace Tabulation

namespace Analysis

variable {D L K : Type} [DecidableEq D]

/-- The facts after an edge, as the configuration filters them. -/
def targets (A : Analysis D L K) (f : FlowFunction D) (d : D) : List D :=
  (Answers.empty A.problem.zero A.config.autoAddZero).targets f d

/-- All seeds are at start points. -/
def SeedsAtStarts (A : Analysis D L K) : Prop :=
  ∀ x ∈ A.problem.seeds.toList, A.graph.isStart x.1 = .ok true

/-! ## Edges -/

/-- The edges within a procedure. -/
inductive Inside (A : Analysis D L K) (n : String) (d : D) (m : String) (t : D) :
    EdgeFunction L K → Prop
  | normal : A.graph.isCallSite n = .ok false → A.graph.Succ n m →
      t ∈ A.targets (A.problem.normalFlow n m) d → Inside A n d m t (A.problem.normalEdge n d m t)
  | bypass {ps : List String} : A.graph.callees n = .ok ps → ps ≠ [] → A.graph.Succ n m →
      t ∈ A.targets (A.problem.bypassFlow n m ps) d →
      Inside A n d m t (A.problem.bypassEdge n d m t ps)
  | summary {p : String} {f : FlowFunction D} : A.graph.Calls n p →
      A.problem.summaryFlow n p = some f → A.graph.Succ n m → t ∈ A.targets f d →
      Inside A n d m t (A.problem.summaryEdge n d m t)

/-- The edges into a callee. -/
inductive Enter (A : Analysis D L K) (site : String) (d : D) (callee : String) (t : D) :
    EdgeFunction L K → Prop
  | intro : A.graph.Calls site callee → A.problem.summaryFlow site callee = none →
      t ∈ A.targets (A.problem.callFlow site callee) d →
      Enter A site d callee t (A.problem.callEdge site d callee t)

/-- The edges from an exit point of a callee back to a return site. -/
inductive Leave (A : Analysis D L K) (site callee exit : String) (d : D) (ret : String) (t : D) :
    EdgeFunction L K → Prop
  | intro : A.graph.ExitOf callee exit → A.graph.isCallSite exit = .ok false →
      A.graph.Succ site ret → t ∈ A.targets (A.problem.returnFlow site callee exit ret) d →
      Leave A site callee exit d ret t (A.problem.returnEdge site callee exit d ret t)

variable {A : Analysis D L K}

theorem Inside.succ {n m : String} {d t : D} {e : EdgeFunction L K} (h : Inside A n d m t e) :
    A.graph.Succ n m := by
  cases h <;> assumption

theorem Leave.succ {site p n m : String} {d t : D} {e : EdgeFunction L K}
    (h : Leave A site p n d m t e) : A.graph.Succ site m := by
  cases h
  assumption

/-! ## Facts that are derived -/

/-- A callee is only left through exit points that are no call sites: the summary table has no
others, and without it there must not be any. -/
def Sealed (A : Analysis D L K) : Prop :=
  A.config.useSummaryTable = true ∨ ∀ p x, A.graph.ExitOf p x → A.graph.isCallSite x = .ok false

/-- What follows from the seeds, wherever they are: if `p` is entered with `a`, then `d` holds at
the node `n` of `p`. -/
inductive Derives (A : Analysis D L K) : String → D → String → D → Prop
  | seed {p n : String} {a : D} {u : L} : (n, a, u) ∈ A.problem.seeds.toList →
      A.graph.procOf n = .ok p → Derives A p a n a
  | enter {p q site sp : String} {a b c : D} {e : EdgeFunction L K} : Derives A p a site b →
      Enter A site b q c e → A.graph.StartOf q sp → Derives A q c sp c
  | inside {p n m : String} {a d t : D} {e : EdgeFunction L K} : Derives A p a n d →
      Inside A n d m t e → Derives A p a m t
  | across {p q site sp exit m : String} {a b c d t : D} {e e' : EdgeFunction L K} :
      Derives A p a site b → Enter A site b q c e → A.graph.StartOf q sp → Derives A q c exit d →
      Leave A site q exit d m t e' → Derives A p a m t

/-! ## Paths -/

/-- Where a path stands. -/
structure Point (D L : Type) where
  /-- The call sites and callees of the calls that have not returned, the last one first. -/
  calls : List (String × String)
  node : String
  fact : D
  value : L

variable [JoinLattice L] [Payload K L]

/-- One edge of a path. -/
inductive Step (A : Analysis D L K) : Point D L → Point D L → Prop
  | inside {cs : List (String × String)} {n m : String} {d t : D} {v : L} {e : EdgeFunction L K} :
      Inside A n d m t e → Step A ⟨cs, n, d, v⟩ ⟨cs, m, t, e.apply v⟩
  | call {cs : List (String × String)} {n p sp : String} {d t : D} {v : L}
      {e : EdgeFunction L K} : Enter A n d p t e → A.graph.StartOf p sp →
      Step A ⟨cs, n, d, v⟩ ⟨(n, p) :: cs, sp, t, e.apply v⟩
  | ret {cs : List (String × String)} {site p n m : String} {d t : D} {v : L}
      {e : EdgeFunction L K} : Leave A site p n d m t e →
      Step A ⟨(site, p) :: cs, n, d, v⟩ ⟨cs, m, t, e.apply v⟩

/-- A path from a seed leads to a fact at a node with a value. -/
def Realizable (A : Analysis D L K) (n : String) (d : D) (v : L) : Prop :=
  ∃ sp a u cs, (sp, a, u) ∈ A.problem.seeds.toList ∧
    Relation.ReflTransGen (Step A) ⟨[], sp, a, u⟩ ⟨cs, n, d, v⟩

/-- Paths that begin at the start point of a procedure and return from all calls. -/
inductive SameLevel (A : Analysis D L K) : String → D → String → D → (L → L) → Prop
  | start {p sp : String} {a : D} : A.graph.StartOf p sp → SameLevel A p a sp a id
  | inside {p n m : String} {a d t : D} {φ : L → L} {e : EdgeFunction L K} :
      SameLevel A p a n d φ → Inside A n d m t e → SameLevel A p a m t (e.apply ∘ φ)
  | across {p q site exit m : String} {a b c d t : D} {φ ψ : L → L} {e₁ e₂ : EdgeFunction L K} :
      SameLevel A p a site b φ → Enter A site b q c e₁ → SameLevel A q c exit d ψ →
      Leave A site q exit d m t e₂ →
      SameLevel A p a m t (e₂.apply ∘ ψ ∘ e₁.apply ∘ φ)

/-- Paths from a seed to the start point of a procedure, with all calls on the way pending. -/
inductive Enters (A : Analysis D L K) : List (String × String) → String → D → L → Prop
  | seed {p sp : String} {a : D} {u : L} : (sp, a, u) ∈ A.problem.seeds.toList →
      A.graph.StartOf p sp → Enters A [] p a u
  | call {cs : List (String × String)} {p q site sp : String} {a b c : D} {u : L} {φ : L → L}
      {e : EdgeFunction L K} : Enters A cs p a u → SameLevel A p a site b φ →
      Enter A site b q c e → A.graph.StartOf q sp →
      Enters A ((site, q) :: cs) q c (e.apply (φ u))

/-! ## Decomposition of paths -/

/-- A path, taken apart at its last pending call. -/
def Split (A : Analysis D L K) (x : Point D L) : Prop :=
  ∃ p a u φ, Enters A x.calls p a u ∧ SameLevel A p a x.node x.fact φ ∧ x.value = φ u

theorem Split.step {x y : Point D L} (h : Split A x) (hxy : Step A x y) : Split A y := by
  obtain ⟨p, a, u, φ, henters, hlevel, hvalue⟩ := h
  cases hxy with
  | inside he =>
    subst hvalue
    exact ⟨p, a, u, _, henters, hlevel.inside he, rfl⟩
  | call he hs =>
    subst hvalue
    exact ⟨_, _, _, id, henters.call hlevel he hs, .start hs, rfl⟩
  | ret he =>
    subst hvalue
    -- The frame on top says which call the path returns to.
    cases henters with
    | call henters' hlevel' he' hs =>
      exact ⟨_, _, _, _, henters', hlevel'.across he' hlevel he, rfl⟩

theorem Split.steps {x y : Point D L} (h : Split A x)
    (hxy : Relation.ReflTransGen (Step A) x y) : Split A y := by
  induction hxy with
  | refl => exact h
  | tail _ hstep ih => exact ih.step hstep

theorem Realizable.split (hseeds : A.SeedsAtStarts) (hg : A.graph.Consistent) {n : String} {d : D}
    {v : L} (h : Realizable A n d v) :
    ∃ cs p a u φ, Enters A cs p a u ∧ SameLevel A p a n d φ ∧ v = φ u := by
  obtain ⟨sp, a, u, cs, hseed, hpath⟩ := h
  have hstart : Split A ⟨[], sp, a, u⟩ := by
    obtain ⟨p, hsp⟩ := Supergraph.exists_startOf hg (hseeds _ hseed)
    exact ⟨p, a, u, id, .seed hseed hsp, .start hsp, rfl⟩
  exact ⟨cs, hstart.steps hpath⟩

theorem SameLevel.exists_start {p n : String} {a d : D} {φ : L → L}
    (h : SameLevel A p a n d φ) : ∃ sp, A.graph.StartOf p sp := by
  induction h with
  | start hs => exact ⟨_, hs⟩
  | inside _ _ ih => exact ih
  | across _ _ _ _ ih _ => exact ih

/-- Paths at a level stay in their procedure. -/
theorem SameLevel.procOf (hg : A.graph.Consistent) {p n : String} {a d : D} {φ : L → L}
    (h : SameLevel A p a n d φ) : A.graph.procOf n = .ok p := by
  induction h with
  | start hs => exact ((Supergraph.startOf_iff hg).1 hs).1
  | inside _ he ih => exact Supergraph.procOf_succ hg he.succ ih
  | across _ _ _ he ih _ => exact Supergraph.procOf_succ hg he.succ ih

theorem SameLevel.path (hg : A.graph.Consistent) {p sp n : String} {a d : D} {φ : L → L}
    (h : SameLevel A p a n d φ) (hsp : A.graph.StartOf p sp) (cs : List (String × String))
    (v : L) : Relation.ReflTransGen (Step A) ⟨cs, sp, a, v⟩ ⟨cs, n, d, φ v⟩ := by
  induction h generalizing sp cs v with
  | start hs =>
    rw [hsp.unique hg hs]
    exact .refl
  | inside _ he ih => exact (ih hsp cs v).tail (.inside he)
  | across _ he₁ hlevel he₂ ih₁ ih₂ =>
    -- Into the callee, through it with one more pending call, and out again.
    obtain ⟨sq, hsq⟩ := hlevel.exists_start
    exact ((((ih₁ hsp cs v).tail (.call he₁ hsq)).trans (ih₂ hsq _ _)).tail (.ret he₂))

theorem Enters.path (hg : A.graph.Consistent) {cs : List (String × String)} {p : String} {a : D}
    {u : L} (h : Enters A cs p a u) :
    ∃ s₀ a₀ u₀ sp, (s₀, a₀, u₀) ∈ A.problem.seeds.toList ∧ A.graph.StartOf p sp ∧
      Relation.ReflTransGen (Step A) ⟨[], s₀, a₀, u₀⟩ ⟨cs, sp, a, u⟩ := by
  induction h with
  | seed hseed hs => exact ⟨_, _, _, _, hseed, hs, .refl⟩
  | call _ hlevel he hs ih =>
    obtain ⟨s₀, a₀, u₀, sp, hseed, hsp, hpath⟩ := ih
    exact ⟨s₀, a₀, u₀, _, hseed, hs, (hpath.trans (hlevel.path hg hsp _ _)).tail (.call he hs)⟩

/-- A realizable path enters procedures and then stays at the level of the last one. -/
theorem realizable_iff (hseeds : A.SeedsAtStarts) (hg : A.graph.Consistent) {n : String} {d : D}
    {v : L} : Realizable A n d v ↔
      ∃ cs p a u φ, Enters A cs p a u ∧ SameLevel A p a n d φ ∧ v = φ u := by
  constructor
  · exact Realizable.split hseeds hg
  · rintro ⟨cs, p, a, u, φ, henters, hlevel, rfl⟩
    obtain ⟨s₀, a₀, u₀, sp, hseed, hsp, hpath⟩ := henters.path hg
    exact ⟨s₀, a₀, u₀, cs, hseed, hpath.trans (hlevel.path hg hsp cs u)⟩

/-- What is derived from seeds at start points has a path. -/
theorem Derives.exists_path (hseeds : A.SeedsAtStarts) (hg : A.graph.Consistent) {p n : String}
    {a d : D} (h : Derives A p a n d) : ∃ cs u φ, Enters A cs p a u ∧ SameLevel A p a n d φ := by
  induction h with
  | seed hseed hp =>
    have hsp := (Supergraph.startOf_iff hg).2 ⟨hp, hseeds _ hseed⟩
    exact ⟨[], _, id, .seed hseed hsp, .start hsp⟩
  | enter _ he hsp ih =>
    obtain ⟨cs, u, φ, henters, hlevel⟩ := ih
    exact ⟨_, _, id, henters.call hlevel he hsp, .start hsp⟩
  | inside _ he ih =>
    obtain ⟨cs, u, φ, henters, hlevel⟩ := ih
    exact ⟨cs, u, _, henters, hlevel.inside he⟩
  | across _ he _ _ he' ih ih' =>
    obtain ⟨cs, u, φ, henters, hlevel⟩ := ih
    obtain ⟨_, _, ψ, -, hlevel'⟩ := ih'
    exact ⟨cs, u, _, henters, hlevel.across he hlevel' he'⟩

end Analysis

end Tabulation
