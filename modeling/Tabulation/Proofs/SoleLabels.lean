import Tabulation.Proofs.PathValues

/-!
# Values where path edges have one label each

If there is one edge function for each path edge, labels are never joined, so nothing is ever
widened. The values at a node are then those of the edge functions that lead there.

**From above.** Every path edge that a run stores is labelled with its edge function,
`Spelling.valueAt_below`.

**From below.** The edge functions along a path compose to the one of the path edge,
`Spelling.sameLevel`, so a derived fact has at least the value of its edge function,
`Spelling.label_below_valueAt`.

Where all edge functions for a fact at a node agree, that is its value: `Spelling.valueAt_eq`, and
`Spelling.valueAt_eq_top` if there are none.
-/

namespace Tabulation

namespace Analysis

variable {D L K : Type} [Ord L] [Ord K] [DecidableEq D] [JoinLattice L] [Payload K L]
  {A : Analysis D L K} {R : Labelling D L K} {p n : String} {a d : D}

/-- The edge functions along a path compose to that of the path edge. -/
theorem Spelling.sameLevel (hR : A.Spelling R) {φ : L → L} (h : A.SameLevel p a n d φ)
    (hstart : ∀ sp, A.graph.StartOf p sp → R p a sp a .identity) :
    ∃ f, R p a n d f ∧ f.apply = φ := by
  have := hR.valued.2.payload
  induction h with
  | start hsp => exact ⟨.identity, hstart _ hsp, rfl⟩
  | inside _ he ih =>
    obtain ⟨f, hf, rfl⟩ := ih hstart
    obtain ⟨h, hh, hRh⟩ := hR.inside hf he
    exact ⟨h, hRh, EdgeFunction.apply_andThen? hh⟩
  | across _ he _ he' ih ih' =>
    obtain ⟨f, hf, rfl⟩ := ih hstart
    obtain ⟨g, hg, rfl⟩ := ih' fun sp hsp => hR.enter hf he hsp
    obtain ⟨i, hi⟩ := hR.call hf he
    obtain ⟨j, h, hj, hh, hRh⟩ := hR.across hf he hi hg he'
    refine ⟨h, hRh, ?_⟩
    rw [EdgeFunction.apply_andThen? hh, EdgeFunction.apply_andThen? hj,
      EdgeFunction.apply_andThen? hi]

/-- Where a procedure is entered, its path edges begin with the identity. -/
theorem Spelling.enters (hR : A.Spelling R) (hg : A.graph.Consistent) {cs : List (String × String)}
    {u : L} (h : A.Enters cs p a u) {sp : String} (hsp : A.graph.StartOf p sp) :
    R p a sp a .identity := by
  induction h generalizing sp with
  | seed hseed hsp' =>
    obtain rfl := hsp.unique hg hsp'
    exact hR.seed hseed ((Supergraph.startOf_iff hg).1 hsp').1
  | call _ hlevel he _ ih =>
    obtain ⟨f, hf, -⟩ := hR.sameLevel hlevel fun sp => ih
    exact hR.enter hf he hsp

/-- A derived fact has a path with its edge function. -/
theorem Spelling.exists_path (hR : A.Spelling R) (hseeds : A.SeedsAtStarts)
    (hg : A.graph.Consistent) (h : A.Derives p a n d) :
    ∃ cs u f, A.Enters cs p a u ∧ A.SameLevel p a n d f.apply ∧ R p a n d f := by
  obtain ⟨cs, u, φ, henters, hlevel⟩ := h.exists_path hseeds hg
  obtain ⟨f, hf, rfl⟩ := hR.sameLevel hlevel fun sp => hR.enters hg henters
  exact ⟨cs, u, f, henters, hlevel, hf⟩

variable {σ : Type} [Ord D] [Std.TransOrd D] [Std.LawfulEqOrd D] [DecidableEq L] [ValueCode σ L]
  [LawfulCode σ L] {steps : Nat} {r : Results σ D L} {w : L}

/-- No value is above all that edge functions make of values. -/
theorem Spelling.valueAt_below (hR : A.Spelling R) (hA : Setting A)
    (hsolve : Solver.solve A σ steps = .ok r) (hproc : A.graph.procOf n = .ok p)
    (hn : A.graph.isStart n ≠ .ok true) (hw : ∀ b f u, R p b n d f → Below (f.apply u) w) :
    Below (r.valueAt n d) w := by
  have hv := hR.valued.1
  have := hA.join hv
  have := hR.valued.2.payload
  obtain ⟨s, hends, hnodes, hfacts, hdefault, hspec⟩ := Solver.solve_valued_spec hA hv hsolve
  have hs := hends.complete hA.scope
  obtain ⟨e, -, hvisited, hacc⟩ := hspec _ (Solver.kept_startPoint hA hv hs)
  rcases Results.valueAt_cases (hnodes ▸ hs.nodes) (hfacts ▸ hs.facts) n d with
    ⟨k, j, hk, hj, heq⟩ | heq
  · rw [hnodes] at hk
    rw [hfacts] at hj
    obtain ⟨vs, hjoin, hvs⟩ := hacc.join ⟨k⟩ ⟨j⟩
    have hunseen : e.values.get ⟨k⟩ ⟨j⟩ = top := hvisited.unseen _ _ fun hseen => by
      obtain ⟨n', q, hn', hq⟩ := (hvisited.seen _ _ hseen).2
      obtain rfl := Option.some.inj (hk.symm.trans hn')
      exact hn ((Supergraph.startOf_iff hA.graph).1 hq).2
    rw [heq, hjoin, hunseen, top_join]
    refine joinAll_below fun v hv => ?_
    obtain ⟨_, _, -, sp, q, node, i, ef, φ, -, -, hnode, -, -, hef, hφ, rfl⟩ := hvs v hv
    obtain rfl := Option.some.inj (hk.symm.trans hnode)
    -- The label of the path edge is its edge function.
    obtain ⟨_, n', q', b, d', hpath⟩ := hs.paths _ _ _ _ hef
    obtain rfl := Option.some.inj (hk.symm.trans hpath.hasNode)
    obtain rfl := Option.some.inj (hj.symm.trans hpath.hasTarget)
    obtain rfl := Except.ok.inj (hproc.symm.trans hpath.procOf)
    obtain ⟨f, hf, hleaf⟩ := hpath.spelled R hR
    rw [hφ.unique (hs.regular.means_leafAt hleaf)]
    exact hw b f _ hf
  · rw [heq, hdefault]
    exact top_below w

/-- A derived fact has at least the value of its edge function. -/
theorem Spelling.label_below_valueAt (hR : A.Spelling R) (hA : Setting A) (hmono : A.Monotone)
    (hsolve : Solver.solve A σ steps = .ok r) (hn : A.graph.isStart n ≠ .ok true)
    (hd : A.Derives p a n d) (hw : ∀ f u, R p a n d f → Below w (f.apply u)) :
    Below w (r.valueAt n d) := by
  have hv := hR.valued.1
  have := hA.join hv
  obtain ⟨s, hends, hnodes, hfacts, -, hspec⟩ := Solver.solve_valued_spec hA hv hsolve
  have hs := hends.complete hA.scope
  obtain ⟨e, hempty, hvisited, hacc⟩ := hspec _ (Solver.kept_startPoint hA hv hs)
  obtain ⟨cs, u, f, henters, hlevel, hf⟩ := hR.exists_path (hA.seeds hv) hA.graph hd
  obtain ⟨k, j, hk, hj, hle⟩ :=
    hacc.below_of_path hA hv hmono hs hvisited hempty henters hlevel (.inl hn)
  rw [hs.valueAt_eq hnodes hfacts hk hj]
  exact (hw f u hf).trans hle

/-- The value of a derived fact at a node where all its edge functions agree. -/
theorem Spelling.valueAt_eq (hR : A.Spelling R) (hA : Setting A) (hmono : A.Monotone)
    (hsolve : Solver.solve A σ steps = .ok r) (hproc : A.graph.procOf n = .ok p)
    (hn : A.graph.isStart n ≠ .ok true) (hd : A.Derives p a n d)
    (hw : ∀ b f u, R p b n d f → f.apply u = w) : r.valueAt n d = w := by
  have := hA.join hR.valued.1
  refine Below.antisymm (hR.valueAt_below hA hsolve hproc hn fun b f u hf => ?_)
    (hR.label_below_valueAt hA hmono hsolve hn hd fun f u hf => ?_)
  · exact hw b f u hf ▸ Below.refl _
  · exact hw a f u hf ▸ Below.refl _

/-- A fact without edge functions has no value. -/
theorem Spelling.valueAt_eq_top (hR : A.Spelling R) (hA : Setting A)
    (hsolve : Solver.solve A σ steps = .ok r) (hproc : A.graph.procOf n = .ok p)
    (hn : A.graph.isStart n ≠ .ok true) (hnone : ∀ b f, ¬ R p b n d f) : r.valueAt n d = top := by
  have := hA.join hR.valued.1
  refine Below.antisymm (hR.valueAt_below hA hsolve hproc hn fun b f u hf => ?_) (top_below _)
  exact absurd hf (hnone b f)

end Analysis

end Tabulation
