import Tabulation.Proofs.Solver.MirrorRun

/-!
# From the first move to the last

Both runs begin in the same state and record the same seeds. From there on the moves of the run
without collection are followed one by one, so a first phase that ends without collection also ends
with it, in a state that mirrors the other one, `exists_run_paired`. If it runs out of numbers, so
does the other one, `exists_run_exhausted`.
-/

namespace Tabulation

open Solver

variable {D L K : Type} [Ord D] [Ord L] [Ord K] [JoinLattice L] [Payload K L] [DecidableEq L]
  {A : Analysis D L K} {m : GcMode} {w : Slack} {s t t' : State D L K}

/-- Before the first collection nothing was dropped. -/
def Slack.initial : Slack := ⟨fun _ _ => False, [], True, 0⟩

theorem Mirrors.withSeed (h : Mirrors A m w s t) (job : ValueJob L) :
    Advances A m w s t { s with seeds := s.seeds ++ [job] }
      { t with seeds := t.seeds ++ [job] } where
  mirrors := { h with
    base' := h.base'.congr rfl rfl rfl rfl rfl
    base := h.base.congr rfl rfl rfl rfl rfl
    seeds := by rw [h.seeds] }
  left := { State.Grows.refl s with }
  right := { State.Grows.refl t with }

/-- If the first move succeeds, all nodes with seeds are known. -/
theorem begin_groundwork [DecidableEq D] (hA : Comparable A) {u : Unit}
    (hrun : (begin A).run t = .ok (u, t')) :
    Groundwork (A.withGc m) (fun _ => True) fun _ => True := by
  have hseeds := begin_knows hrun
  exact ⟨hA.graph, (A.withGc m).confined_true, hseeds, .inl trivial⟩

variable [Std.TransOrd D] [Std.LawfulEqOrd D]

theorem submitSeed_follows (hA : Comparable A) (hm : m.isEnabled = true) (h : Mirrors A m w s t)
    (hopen : ∀ p a, Open A w p a) (node : String) (fact : D) (value : L) :
    Follows (submitSeed (A.withGc m) node fact value) s (submitSeed A node fact value) t
      fun _ _ s' t' => Advances A m w s t s' t' := by
  refine (nodeId_follows h node).seq ?_
  rintro n _ s₁ t₁ ⟨rfl, hn, hadv₁⟩
  refine (factId_follows hadv₁.mirrors fact).seq ?_
  rintro d _ s₂ t₂ ⟨rfl, -, hadv₂⟩
  refine .lift_seq fun proc hproc => ?_
  refine (procId_follows hadv₂.mirrors proc).seq ?_
  rintro p _ s₃ t₃ ⟨rfl, hp, hadv₃⟩
  have hadv := (hadv₁.trans (hadv₂.trans hadv₃)).trans (hadv₃.mirrors.withSeed ⟨n, d, value⟩)
  have hin : InProc A t₃ n p :=
    ⟨node, proc, (hadv₂.trans hadv₃).right.nodes _ _ hn, hproc, hp⟩
  refine .modify_seq ?_
  exact (record_follows hA hm hadv.mirrors hin (.inr (hopen p d)) (.identity hadv.mirrors.neat)).imp
    fun _ _ _ _ hadv' => hadv.trans hadv'

theorem begin_follows (hA : Comparable A) (hm : m.isEnabled = true) (h : Mirrors A m w s t)
    (hopen : ∀ p a, Open A w p a) :
    Follows (begin (A.withGc m)) s (begin A) t fun _ _ s' t' => Mirrors A m w s' t' := by
  refine (Follows.forM_same (fun s' t' => Mirrors A m w s' t') h ?_).seq ?_
  · rintro ⟨node, fact, value⟩ - s' t' h'
    exact (submitSeed_follows hA hm h' hopen node fact value).imp fun _ _ _ _ hadv => hadv.mirrors
  · rintro _ _ s' t' h'
    exact .modify_end h'.withStage

variable [DecidableEq D]

theorem create_mirrors (hA : Comparable A) (h : create A = .ok t) : Mirrors A m .initial t t := by
  have hbase : Base A t := (create_spec h).inv.toBase
  have hbase' : Base (A.withGc m) t := (create_spec (A := A.withGc m) h).inv.toBase
  simp only [create, bind_eq_ok, pure_eq_ok] at h
  obtain ⟨facts, -, procs, -, store, -, rfl⟩ := h
  have hnone : ∀ n a b, PathTable.empty.get? n a b = none := fun n a b => PathTable.get?_empty
  exact {
    nodes := rfl, facts := rfl, procs := rfl
    base' := hbase', base := hbase
    neat := .of_regular hA hbase.store hbase.store
    paths := fun n a b => by
      rw [hnone]
      exact .inl .none
    order := rfl
    queue := ⟨0, Nat.le_refl 0, .nil⟩
    reached := fun key => iff_of_false (fun hk => by cases hk) fun hk => by cases hk.1
    met := fun _ hk => by cases hk
    reported := fun n a b ef hef => by
      rw [hnone] at hef
      cases hef
    plain := fun _ n a b ef hef => by
      rw [hnone] at hef
      cases hef
    summaries := fun p e x d => by
      rw [SummaryTable.get?_empty]
      exact .none
    records := by
      rw [CallLedger.records_empty]
      exact .nil
    ledger' := CallLedger.wf_empty
    ledger := CallLedger.wf_empty
    calls := by
      rw [CallLedger.records_empty]
      exact fun _ hc => by cases hc
    into := fun _ _ _ hc => by cases hc
    waiting := fun _ _ => .inl .nil
    forwarding := fun _ _ => .nil
    placed := fun n a b ef hef => by
      rw [hnone] at hef
      cases hef
    keys := rfl, seeds := rfl, stage := rfl }

/-- With values, all seeds are at start points, so every procedure was entered. -/
theorem begin_resting (hA : Comparable A) (hcreate : create A = .ok t) {u : Unit}
    (hrun : (begin A).run t = .ok (u, t')) : Resting A (fun _ _ => False) t' := by
  have hinv := (create_spec hcreate).inv
  have hpaths : t.paths = .empty := by
    simp only [create, bind_eq_ok, pure_eq_ok] at hcreate
    obtain ⟨_, -, _, -, _, -, rfl⟩ := hcreate
    rfl
  have hrest : Resting A (fun _ _ => False) t := by
    refine ⟨fun _ n a b ef p hef => ?_, fun _ _ => False.elim, fun _ _ _ _ => id, fun _ _ _ _ => id,
      fun _ _ _ => id⟩
    rw [hpaths, PathTable.get?_empty] at hef
    cases hef
  have hZ : A.SeedsAtStarts ∨ ∀ (_ : ProcId) (_ : FactId), A.config.computeValues ≠ true := by
    by_cases hv : A.config.computeValues = true
    · exact .inl (hA.seeds hv)
    · exact .inr fun _ _ => hv
  obtain ⟨_, t₁, hloop, hround⟩ := run_bind_ok hrun
  have hall : Inv A t₁ ∧ Resting A (fun _ _ => False) t₁ := by
    refine run_forM_ok (fun _ t => Inv A t ∧ Resting A (fun _ _ => False) t) hloop ⟨hinv, hrest⟩ ?_
    rintro - ⟨sp, a, v⟩ t₂ t₃ hseed ⟨hinv, hrest⟩ hrun
    obtain ⟨hfill, -⟩ := submitSeed_spec (Z := fun _ _ => A.config.computeValues ≠ true) hA.scope hZ
      hinv hseed hrun
    exact ⟨Moves.inv hinv hfill.moves, (hfill.moves.resting hrest hA.scope hA.valued hinv
      fun _ _ hz => ⟨fun hv => absurd hv hz, id⟩).1⟩
  obtain rfl := run_modify_ok hround
  exact hall.2.withStage (by simp)

variable [Std.TransOrd L] [Std.LawfulEqOrd L] [Std.TransOrd K] [Std.LawfulEqOrd K]
  {E : Fault → Prop}

theorem begin_paired (hA : Comparable A) (hm : m.isEnabled = true)
    (hP : Groundwork (A.withGc m) (fun _ => True) E) (hcreate : create A = .ok t) {u : Unit}
    (hrun : (begin A).run t = .ok (u, t')) :
    ∃ s, Leads (A.withGc m) t s ∧ Paired A m .initial s t' := by
  obtain ⟨hgrounded, hfresh, -⟩ := create_grounded (A := A.withGc m) hP.confined hcreate
  have hbooked := create_booked (A := A.withGc m) hcreate
  have hndone : t.stage ≠ .done := by
    rw [hfresh]
    nofun
  obtain ⟨⟨⟩, s, hrun', h⟩ := begin_follows hA hm (create_mirrors hA hcreate)
    (fun _ _ => ⟨fun _ => id, fun _ => trivial⟩) |>.returns u t' hrun
  have hstep : (step (A.withGc m)).run t = .ok ((), s) := (run_step_fresh hfresh).trans hrun'
  have htrans := (Booked.step hP hgrounded hbooked hndone).elim hstep
  have hready := begin_spec hA.scope (create_spec hcreate) hfresh hrun
  obtain ⟨_, t₁, -, hround⟩ := run_bind_ok hrun
  refine ⟨s, .step hndone hstep, h, htrans.grounded hgrounded,
    htrans.booked hP.graph hgrounded hbooked, hready, begin_resting hA hcreate hrun, nofun, ?_⟩
  obtain rfl := run_modify_ok hround
  trivial

/-- If the first phase ends without collection, it ends with it, in a state like the other one. -/
theorem exists_run_paired (hA : Comparable A) (hm : m.isEnabled = true)
    (hcreate : create A = .ok t) {n : Nat} (hrun : run A n t = .ok t') :
    ∃ w n' s', run (A.withGc m) n' t = .ok s' ∧ Paired A m w s' t' ∧ t'.stage = .done := by
  obtain ⟨-, hfresh, -⟩ := create_grounded A.confined_true hcreate
  have hndone : t.stage ≠ .done := by
    rw [hfresh]
    nofun
  cases n with
  | zero =>
    rw [run, if_neg hndone] at hrun
    cases hrun
  | succ n =>
    rw [run, if_neg hndone, bind_eq_ok] at hrun
    obtain ⟨⟨u, t₁⟩, hstep, hrun⟩ := hrun
    rw [run_step_fresh hfresh] at hstep
    have hP := begin_groundwork (m := m) hA hstep
    obtain ⟨s₁, hleads, h₁⟩ := begin_paired hA hm hP hcreate hstep
    obtain ⟨w, s', hleads', h', hdone⟩ := h₁.run hA hm hP hrun
    obtain ⟨k, hk⟩ := hleads.trans hleads'
    refine ⟨w, 0 + k, s', ?_, h', hdone⟩
    rw [hk, run, if_pos (h'.mirrors.stage.trans hdone)]

/-- If the first phase runs out of numbers without collection, it does so with it. -/
theorem exists_run_exhausted (hA : Comparable A) (hm : m.isEnabled = true)
    (hcreate : create A = .ok t) {n : Nat} (hrun : run A n t = .error .idsExhausted) :
    ∃ n', run (A.withGc m) n' t = .error .idsExhausted := by
  obtain ⟨-, hfresh, -⟩ := create_grounded A.confined_true hcreate
  have hndone : t.stage ≠ .done := by
    rw [hfresh]
    nofun
  cases n with
  | zero =>
    rw [run, if_neg hndone] at hrun
    cases hrun
  | succ n =>
    rw [run, if_neg hndone, run_step_fresh hfresh] at hrun
    cases hstep : (begin A).run t with
    | error f =>
      rw [hstep] at hrun
      obtain rfl := Except.error.inj hrun
      refine ⟨1, ?_⟩
      rw [run, if_neg hndone, run_step_fresh hfresh,
        (begin_follows hA hm (create_mirrors hA hcreate)
        fun _ _ => ⟨fun _ => id, fun _ => trivial⟩).exhausted hstep]
      rfl
    | ok r =>
      rw [hstep] at hrun
      have hP := begin_groundwork (m := m) hA hstep
      obtain ⟨s₁, ⟨k, hk⟩, h₁⟩ := begin_paired hA hm hP hcreate hstep
      obtain ⟨j, hj⟩ := h₁.run_exhausted hA hm hP hrun
      exact ⟨j + k, (hk j).trans hj⟩

end Tabulation
