import Tabulation.Proofs.EdgeStore.Leaves
import Tabulation.Proofs.Exploded

/-!
# What labels say

A run labels path edges, summaries and calls with handles. In a run that computes values, labels
stand for functions; in one that does not, they all are the identity and say nothing. What labels
say can only be relied on if values obey the laws, too, `Valued`. The predicates here have these
distinctions built in.

- `Labelled A s ef`: the label stands for some function.
- `Covers A s ef φ`: the label covers the function `φ` of some path.
- `Exact A s ef F`: there is a path with a function in `F`, and the label is a join of such
  functions, so it stands for nothing but paths.
- `Spelled A s ef F`: the label is an edge function of the client that is in `F`.

A label can only be kept exact along edges that distribute over joins, `Distributive`. Labels are
edge functions of the client if these can be composed and there is one for each path edge,
`Spelling`.
-/

namespace Tabulation

/-- The orders by which stored functions are found again. -/
structure LawfulOrders (L K : Type) [Ord L] [Ord K] : Prop where
  transL : Std.TransOrd L
  lawfulL : Std.LawfulEqOrd L
  transK : Std.TransOrd K
  lawfulK : Std.LawfulEqOrd K

/-- The laws of values, payloads and their orders. -/
structure LawfulLabels (L K : Type) [Ord L] [Ord K] [JoinLattice L] [Payload K L] : Prop where
  join : LawfulJoin L
  payload : LawfulPayload K L
  transL : Std.TransOrd L
  lawfulL : Std.LawfulEqOrd L
  transK : Std.TransOrd K
  lawfulK : Std.LawfulEqOrd K

theorem LawfulLabels.orders {L K : Type} [Ord L] [Ord K] [JoinLattice L] [Payload K L]
    (h : LawfulLabels L K) : LawfulOrders L K := ⟨h.transL, h.lawfulL, h.transK, h.lawfulK⟩

section Functions

variable {L : Type} [JoinLattice L] {F G : (L → L) → Prop} {φ ψ χ : L → L}

/-- The function distributes over joins. -/
def Distributes (φ : L → L) : Prop := ∀ v w, φ (join v w) = join (φ v) (φ w)

/-- The function respects the order. -/
def Respects (φ : L → L) : Prop := ∀ v w, Below v w → Below (φ v) (φ w)

theorem Distributes.comp (hψ : Distributes ψ) (hφ : Distributes φ) : Distributes (ψ ∘ φ) :=
  fun v w => by simp only [Function.comp_apply, hφ v w, hψ (φ v) (φ w)]

theorem Respects.comp (hψ : Respects ψ) (hφ : Respects φ) : Respects (ψ ∘ φ) :=
  fun v w h => hψ _ _ (hφ v w h)

theorem Distributes.respects (h : Distributes φ) : Respects φ := fun v w hle => by
  unfold Below at hle ⊢
  rw [← h, hle]

/-- A pointwise join of functions with a property, at least one of them. -/
inductive JoinOf (F : (L → L) → Prop) : (L → L) → Prop
  | one {φ : L → L} : F φ → JoinOf F φ
  | more {φ ψ : L → L} : JoinOf F φ → JoinOf F ψ → JoinOf F fun v => join (φ v) (ψ v)

theorem foldl_join [LawfulJoin L] (a : L) (vs : List L) :
    vs.foldl join a = join a (joinAll vs) := by
  unfold joinAll
  induction vs generalizing a with
  | nil => exact (LawfulJoin.join_top a).symm
  | cons v vs ih =>
    rw [List.foldl_cons, List.foldl_cons, ih, ih (join top v), top_join, LawfulJoin.join_assoc]

theorem joinAll_cons [LawfulJoin L] (v : L) (vs : List L) :
    joinAll (v :: vs) = join v (joinAll vs) := by
  rw [joinAll, List.foldl_cons, foldl_join, top_join]

theorem joinAll_singleton [LawfulJoin L] (v : L) : joinAll [v] = v := top_join v

theorem joinAll_append [LawfulJoin L] (us vs : List L) :
    joinAll (us ++ vs) = join (joinAll us) (joinAll vs) := by
  rw [joinAll, List.foldl_append, foldl_join]
  rfl

theorem joinAll_below [LawfulJoin L] {vs : List L} {w : L} (h : ∀ v ∈ vs, Below v w) :
    Below (joinAll vs) w := by
  induction vs with
  | nil => exact top_below w
  | cons v vs ih =>
    rw [joinAll_cons]
    exact join_below (h v (.head vs)) (ih fun v hv => h v (.tail _ hv))

theorem below_joinAll [LawfulJoin L] {vs : List L} {v : L} (hv : v ∈ vs) :
    Below v (joinAll vs) := by
  induction vs with
  | nil => cases hv
  | cons w vs ih =>
    rw [joinAll_cons]
    rcases List.mem_cons.1 hv with rfl | hv
    · exact below_join_left _ _
    · exact (ih hv).trans (below_join_right _ _)

/-- A join of joins is a join. -/
theorem exists_joinAll [LawfulJoin L] {P : L → Prop} {vs : List L}
    (h : ∀ v ∈ vs, ∃ ws, v = joinAll ws ∧ ∀ w ∈ ws, P w) :
    ∃ ws, joinAll vs = joinAll ws ∧ ∀ w ∈ ws, P w := by
  induction vs with
  | nil => exact ⟨[], rfl, nofun⟩
  | cons v vs ih =>
    obtain ⟨us, rfl, hus⟩ := h v (.head vs)
    obtain ⟨ws, hws, hP⟩ := ih fun v hv => h v (.tail _ hv)
    refine ⟨us ++ ws, ?_, fun w hw => (List.mem_append.1 hw).elim (hus w) (hP w)⟩
    rw [joinAll_cons, hws, joinAll_append]

theorem Distributes.joinAll [LawfulJoin L] (h : Distributes φ) {us : List L} (hus : us ≠ []) :
    φ (joinAll us) = Tabulation.joinAll (us.map φ) := by
  induction us with
  | nil => exact absurd rfl hus
  | cons u us ih =>
    cases us with
    | nil => rw [List.map_singleton, joinAll_singleton, joinAll_singleton]
    | cons w ws =>
      rw [List.map_cons, joinAll_cons u, joinAll_cons (φ u), h, ih (List.cons_ne_nil w ws)]

namespace JoinOf

theorem map (h : JoinOf F φ) (hχ : Distributes χ) (hF : ∀ φ, F φ → G (χ ∘ φ)) :
    JoinOf G (χ ∘ φ) := by
  induction h with
  | one hφ => exact .one (hF _ hφ)
  | @more φ ψ _ _ ihφ ihψ =>
    have heq : (χ ∘ fun v => join (φ v) (ψ v)) = fun v => join ((χ ∘ φ) v) ((χ ∘ ψ) v) :=
      funext fun v => hχ (φ v) (ψ v)
    rw [heq]
    exact ihφ.more ihψ

theorem precomp (h : JoinOf F φ) (hF : ∀ φ, F φ → JoinOf G (φ ∘ χ)) : JoinOf G (φ ∘ χ) := by
  induction h with
  | one hφ => exact hF _ hφ
  | more _ _ ihφ ihψ => exact ihφ.more ihψ

/-- A join of functions takes a join of values to the join of all results. -/
theorem apply_joinAll [LawfulJoin L] (h : JoinOf F φ) (hF : ∀ φ, F φ → Distributes φ) {us : List L}
    (hus : us ≠ []) : ∃ ws, ws ≠ [] ∧ φ (joinAll us) = joinAll ws ∧
      ∀ w ∈ ws, ∃ ψ u, F ψ ∧ u ∈ us ∧ w = ψ u := by
  induction h with
  | @one φ hφ =>
    refine ⟨us.map φ, by simpa using hus, (hF φ hφ).joinAll hus, fun w hw => ?_⟩
    obtain ⟨u, hu, rfl⟩ := List.mem_map.1 hw
    exact ⟨φ, u, hφ, hu, rfl⟩
  | @more φ ψ _ _ ihφ ihψ =>
    obtain ⟨vs, hne, hvs, hvs'⟩ := ihφ
    obtain ⟨ws, -, hws, hws'⟩ := ihψ
    refine ⟨vs ++ ws, by simp [hne], ?_, fun w hw => (List.mem_append.1 hw).elim (hvs' w) (hws' w)⟩
    rw [joinAll_append, ← hvs, ← hws]

end JoinOf

end Functions

namespace Analysis

variable {D L K : Type} {A : Analysis D L K}

/-! ## Edge functions of the client -/

/-- The edge functions that the client can be asked for. -/
inductive EdgeOf (A : Analysis D L K) : EdgeFunction L K → Prop
  | normal (n : String) (d : D) (m : String) (t : D) : EdgeOf A (A.problem.normalEdge n d m t)
  | call (n : String) (d : D) (p : String) (t : D) : EdgeOf A (A.problem.callEdge n d p t)
  | ret (n p x : String) (d : D) (m : String) (t : D) : EdgeOf A (A.problem.returnEdge n p x d m t)
  | bypass (n : String) (d : D) (m : String) (t : D) (ps : List String) :
      EdgeOf A (A.problem.bypassEdge n d m t ps)
  | summary (n : String) (d : D) (m : String) (t : D) : EdgeOf A (A.problem.summaryEdge n d m t)

section Paths

variable [DecidableEq D]

theorem Inside.edgeOf {n m : String} {d t : D} {e : EdgeFunction L K} (h : A.Inside n d m t e) :
    A.EdgeOf e := by
  cases h with
  | normal => exact .normal ..
  | bypass => exact .bypass ..
  | summary => exact .summary ..

theorem Enter.edgeOf {n p : String} {d t : D} {e : EdgeFunction L K} (h : A.Enter n d p t e) :
    A.EdgeOf e := by
  cases h
  exact .call ..

theorem Leave.edgeOf {n p x m : String} {d t : D} {e : EdgeFunction L K}
    (h : A.Leave n p x d m t e) : A.EdgeOf e := by
  cases h
  exact .ret ..

variable [JoinLattice L] [Payload K L]

/-- All edge functions respect the order. -/
def Monotone (A : Analysis D L K) : Prop := ∀ e, A.EdgeOf e → Respects e.apply

/-- All edge functions distribute over joins. -/
def Distributive (A : Analysis D L K) : Prop := ∀ e, A.EdgeOf e → Distributes e.apply

theorem SameLevel.distributes (hA : A.Distributive) {p n : String} {a d : D} {φ : L → L}
    (h : A.SameLevel p a n d φ) : Distributes φ := by
  induction h with
  | start _ => exact fun _ _ => rfl
  | inside _ he ih => exact (hA _ he.edgeOf).comp ih
  | across _ he₁ _ he₂ ih₁ ih₂ =>
    exact (hA _ he₂.edgeOf).comp (ih₂.comp ((hA _ he₁.edgeOf).comp ih₁))

theorem SameLevel.respects (hA : A.Monotone) {p n : String} {a d : D} {φ : L → L}
    (h : A.SameLevel p a n d φ) : Respects φ := by
  induction h with
  | start _ => exact fun _ _ hle => hle
  | inside _ he ih => exact (hA _ he.edgeOf).comp ih
  | across _ he₁ _ he₂ ih₁ ih₂ =>
    exact (hA _ he₂.edgeOf).comp (ih₂.comp ((hA _ he₁.edgeOf).comp ih₁))

/-- Functions of the paths at the level of the caller that enter a callee through a call site. -/
inductive CallPath (A : Analysis D L K) (p : String) (a : D) (site q : String) (c : D) :
    (L → L) → Prop
  | intro {b : D} {φ : L → L} {e : EdgeFunction L K} : A.SameLevel p a site b φ →
      A.Enter site b q c e → CallPath A p a site q c (e.apply ∘ φ)

theorem CallPath.distributes (hA : A.Distributive) {p site q : String} {a c : D} {φ : L → L}
    (h : A.CallPath p a site q c φ) : Distributes φ := by
  cases h with
  | intro hlevel he => exact (hA _ he.edgeOf).comp (hlevel.distributes hA)

end Paths

/-! ## Labels -/

variable [Ord L] [Ord K] [JoinLattice L] [Payload K L] {s s' : EdgeStore L K} {ef : EdgeRef}

/-- In a run that computes values, the label stands for a function. -/
def Labelled (A : Analysis D L K) (s : EdgeStore L K) (ef : EdgeRef) : Prop :=
  A.config.computeValues = true → ∃ ψ, s.Means ef ψ

/-- The run computes values, and they obey the laws. -/
def Valued (A : Analysis D L K) : Prop := A.config.computeValues = true ∧ LawfulLabels L K

theorem Labelled.mono (h : A.Labelled s ef) (hle : s ≤ s') : A.Labelled s' ef := fun hv => by
  obtain ⟨ψ, hψ⟩ := h hv
  exact ⟨ψ, hψ.mono hle⟩

/-- Without values, any function will do. -/
theorem Labelled.exists_means (h : A.Labelled s ef) :
    ∃ ψ, A.Valued → s.Means ef ψ := by
  by_cases hv : A.Valued
  · obtain ⟨ψ, hψ⟩ := h hv.1
    exact ⟨ψ, fun _ => hψ⟩
  · exact ⟨id, fun hv' => absurd hv' hv⟩

/-- The label covers the function. -/
def Covers (A : Analysis D L K) (s : EdgeStore L K) (ef : EdgeRef) (φ : L → L) : Prop :=
  A.Valued → ∃ ψ, s.Means ef ψ ∧ ∀ v, Below (φ v) (ψ v)

/-- There are paths with functions in `F`, and the label stands for a join of them. -/
def Exact (A : Analysis D L K) (s : EdgeStore L K) (ef : EdgeRef) (F : (L → L) → Prop) : Prop :=
  (∃ φ, F φ) ∧ (A.Valued → ∃ ψ, JoinOf F ψ ∧ s.Means ef ψ)

theorem Exact.mono {F : (L → L) → Prop} (h : A.Exact s ef F)
    (hle : s ≤ s') : A.Exact s' ef F := by
  refine ⟨h.1, fun hv => ?_⟩
  obtain ⟨ψ, hψ, hmeans⟩ := h.2 hv
  exact ⟨ψ, hψ, hmeans.mono hle⟩

/-- Edge functions from a fact at the entry of a procedure to a fact at a node. -/
abbrev Labelling (D L K : Type) := String → D → String → D → EdgeFunction L K → Prop

variable [DecidableEq D]

/-- There is one edge function for each path edge: the functions along its paths can all be
composed, and lead to no other one. -/
structure Spelling (A : Analysis D L K) (R : Labelling D L K) : Prop where
  valued : A.Valued
  shared : EdgeStore.SharedPayloads L K
  exits : A.Sealed
  unique : ∀ {p n a d f g}, R p a n d f → R p a n d g → f = g
  seed : ∀ {p n a u}, (n, a, u) ∈ A.problem.seeds.toList → A.graph.procOf n = .ok p →
    R p a n a .identity
  inside : ∀ {p n m a d t f e}, R p a n d f → A.Inside n d m t e →
    ∃ h, f.andThen? e = some h ∧ R p a m t h
  call : ∀ {p n q a b c f e}, R p a n b f → A.Enter n b q c e → ∃ h, f.andThen? e = some h
  enter : ∀ {p n q sp a b c f e}, R p a n b f → A.Enter n b q c e → A.graph.StartOf q sp →
    R q c sp c .identity
  across : ∀ {p n q x m a b c d t f e g e' i}, R p a n b f → A.Enter n b q c e →
    f.andThen? e = some i → R q c x d g → A.Leave n q x d m t e' →
    ∃ j h, i.andThen? g = some j ∧ j.andThen? e' = some h ∧ R p a m t h

/-- If there is one edge function for each path edge, the label is one in `F`. -/
def Spelled (A : Analysis D L K) (s : EdgeStore L K) (ef : EdgeRef)
    (F : Labelling D L K → EdgeFunction L K → Prop) : Prop :=
  ∀ R, A.Spelling R → ∃ f, F R f ∧ s.LeafAt f ef

/-- The edge functions of a recorded call: one to the call site, then the one into the callee. -/
def CallLabel (A : Analysis D L K) (p : String) (a : D) (site q : String) (c : D)
    (R : Labelling D L K) (h : EdgeFunction L K) : Prop :=
  ∃ b f e, R p a site b f ∧ A.Enter site b q c e ∧ f.andThen? e = some h

theorem Spelled.imp {F : Labelling D L K → EdgeFunction L K → Prop} (h : A.Spelled s ef F)
    (himp : ∀ f, s.LeafAt f ef → s'.LeafAt f ef) : A.Spelled s' ef F := fun R hR =>
  (h R hR).imp fun f => And.imp_right (himp f)

theorem Spelled.mono {F : Labelling D L K → EdgeFunction L K → Prop} (h : A.Spelled s ef F)
    (hle : s ≤ s') : A.Spelled s' ef F := h.imp fun _ hf => hf.mono hle

end Analysis

end Tabulation
