import Tabulation.EdgeFunction.MaskMap
import Tabulation.Proofs.Solver.Steps

/-!
# Handles are alive while they are held

Slots of edge functions are used again after a sweep, so a table that a sweep overlooked would hold
handles of nothing, or of a function that was stored later. `held_handles_alive` excludes both: in
every state of a run, a handle that is held anywhere is alive, and the tree of nodes behind it stays
the same for as long as it is held. The fault `notAlive` therefore never happens.

**States.** `Reachable` are the states of both phases. The second phase reads the state that the
first one left and does not change it.

**Size.** Handles are no larger than the number of stored functions, `held_handle_lt`.
-/

namespace Tabulation

/-- The fault is another one than the use of a handle that is not alive. -/
def Fault.Harmless (f : Fault) : Prop := ∀ i, f ≠ .notAlive i

variable {D L K : Type} {A : Analysis D L K} {E : Fault → Prop}

/-- Known seeds on a graph that was built are all that is needed to exclude the use of dead handles.
-/
theorem Premises.of_built [DecidableEq D] (hgraph : A.graph.Built)
    (hseeds : ∀ x ∈ A.problem.seeds.toList, A.graph.Known x.1) :
    Premises A (fun _ => True) Fault.Harmless where
  toGroundwork := .of_built hgraph hseeds nofun
  idle _ _ := nofun

namespace Solver

/-! ## Stored values -/

section Codes

variable {σ : Type} [ValueCode σ L]

/-- The faults of storing values are allowed. -/
def AllowsCode (σ L : Type) [ValueCode σ L] (E : Fault → Prop) : Prop :=
  ∀ (c : σ) (v : L) (f : Fault), ValueCode.encode c v = .error f → E f

/-- Faults of storing values are harmless. -/
abbrev HarmlessCode (σ L : Type) [ValueCode σ L] : Prop := AllowsCode σ L Fault.Harmless

theorem harmlessCode_verbatim : HarmlessCode (Verbatim L) L := fun _ _ _ h => by cases h

theorem harmlessCode_interner [Ord L] : HarmlessCode (Interner L) L := fun _ _ _ h => by
  rw [Interner.eq_of_intern_error h]
  exact nofun

theorem harmlessCode_sharedInterner [Ord L] : HarmlessCode (SharedInterner L) L := fun t v f h => by
  have h : t.intern v = .error f := h
  unfold SharedInterner.intern at h
  cases hask : t.handles.intern ⟨t.size, v⟩ with
  | error e =>
    rw [hask] at h
    rw [← Except.error.inj h, Interner.eq_of_intern_error hask]
    exact nofun
  | ok r =>
    rw [hask] at h
    cases h

/-- The number is in use, or its use is a fault that is allowed. -/
def Named {α : Type} [Ord α] (E : Fault → Prop) (t : Interner α) (i : UInt32) : Prop :=
  (∃ a, t.get? i = some a) ∨ ∀ size, E (.idOutOfRange i.toNat size)

theorem name_returns {α : Type} [Ord α] {t : Interner α} {i : UInt32} (h : Named E t i) :
    Returns E (t.get i) fun a => t.get? i = some a := by
  rcases h with ⟨a, ha⟩ | h
  · exact .of_ok (Interner.get_eq_ok.2 ha) ha
  refine .of_forall (fun a ha => Interner.get_eq_ok.1 ha) fun f hf => ?_
  unfold Interner.get at hf
  split at hf
  · cases hf
  · rw [← Except.error.inj hf]
    exact h _

theorem set_returns (hcode : AllowsCode σ L E) (t : ValueTable σ L) (n : NodeId) (d : FactId)
    (v : L) : Returns E (t.set n d v) fun _ => True :=
  Returns.bind (P := fun _ => True) (.of_forall (fun _ _ => trivial) (hcode _ _)) fun _ _ => trivial

end Codes

/-! ## The states of a run -/

variable [Ord D] [Ord L] [Ord K] {s t : State D L K}

theorem internAll_returns {α : Type} [Ord α] {E : Fault → Prop} (hE : E .idsExhausted)
    (t : Interner α) (as : List α) : Returns E (internAll t as) fun _ => True := by
  refine .foldlM _ trivial fun a _ t _ => ?_
  refine Returns.bind (P := fun _ => True) (.of_forall (fun _ _ => trivial) fun f hf => ?_)
    fun _ _ => trivial
  rw [Interner.eq_of_intern_error hf]
  exact hE

theorem create_returns (A : Analysis D L K) :
    Returns Fault.Harmless (create A) fun _ => True := by
  refine (internAll_returns nofun _ _).bind fun facts _ => ?_
  refine (internAll_returns nofun _ _).bind fun procs _ => ?_
  refine Returns.bind (P := fun _ => True) (.of_forall (fun _ _ => trivial) fun f hf => ?_)
    fun _ _ => trivial
  unfold EdgeStore.create at hf
  split at hf
  · cases hf
  · rw [← Except.error.inj hf]
    exact nofun

theorem enqueue_returns {σ : Type} [ValueCode σ L] (hg : A.graph.Consistent) {callee : String}
    (hcallee : callee ∈ A.graph.procNames) (e : Evaluation σ L) (d : FactId) (v : L) :
    Returns E (enqueue A s e callee d v) fun _ => True := by
  obtain ⟨ns, hns, -⟩ := Supergraph.startPoints_total hg hcallee
  exact Returns.bind (P := fun _ => True) (.of_ok hns trivial) fun _ _ => trivial

variable [JoinLattice L] [DecidableEq L] [Payload K L]

/-- The first move needs to know the nodes of all seeds. -/
theorem begin_knows {u : Unit} (h : (begin A).run s = .ok (u, t)) :
    ∀ x ∈ A.problem.seeds.toList, A.graph.Known x.1 := by
  obtain ⟨_, _, hloop, -⟩ := run_bind_ok h
  refine run_forM_ok (fun done _ => ∀ x ∈ done, A.graph.Known x.1) hloop (by simp) ?_
  intro done x _ _ _ hdone hx y hy
  obtain ⟨_, _, -, hx⟩ := run_bind_ok hx
  obtain ⟨_, _, -, hx⟩ := run_bind_ok hx
  obtain ⟨_, _, hproc, -⟩ := run_bind_ok hx
  rcases List.mem_append.1 hy with hy | hy
  · exact hdone y hy
  · rw [List.mem_singleton.1 hy]
    exact Supergraph.known_of_procOf (run_lift_ok hproc).1

variable [DecidableEq D] {F : D → Prop} {ef : EdgeRef}

/-- The next state of a run: one move further, or with everything dropped that only the first phase
needs. -/
inductive Next (A : Analysis D L K) : State D L K → State D L K → Prop
  | move {s t : State D L K} : s.stage ≠ .done → (step A).run s = .ok ((), t) → Next A s t
  | drop {s t : State D L K} : s.stage = .done → (dropPending A).run s = .ok ((), t) → Next A s t

/-- The states of a run. -/
inductive Reachable (A : Analysis D L K) : State D L K → Prop
  | create {s : State D L K} : create A = .ok s → Reachable A s
  | next {s t : State D L K} : Reachable A s → Next A s t → Reachable A t

/-- The handle is held in `s` and in all states from there on to another one. -/
inductive HeldSince (A : Analysis D L K) (ef : EdgeRef) (s : State D L K) : State D L K → Prop
  | here : s.Holds ef → HeldSince A ef s s
  | next {t u : State D L K} : HeldSince A ef s t → Next A t u → u.Holds ef → HeldSince A ef s u

/-- A run that ends passes through states of the run only, and stops when all path edges are known.
-/
theorem Reachable.run {n : Nat} (hs : Reachable A s) (h : Solver.run A n s = .ok t) :
    Reachable A t ∧ t.stage = .done := by
  induction n generalizing s with
  | zero =>
    unfold Solver.run at h
    split at h
    · next hdone => exact Except.ok.inj h ▸ ⟨hs, hdone⟩
    · cases h
  | succ n ih =>
    unfold Solver.run at h
    split at h
    · next hdone => exact Except.ok.inj h ▸ ⟨hs, hdone⟩
    · next hstage =>
      obtain ⟨⟨⟨⟩, u⟩, hu, h⟩ := bind_eq_ok.1 h
      exact ih (hs.next (.move hstage hu)) h

theorem HeldSince.holds (h : HeldSince A ef s t) : t.Holds ef := by
  cases h with
  | here hef => exact hef
  | next _ _ hef => exact hef

/-- A run keeps what every move keeps, or runs out of steps, or ends with a fault that is
allowed. -/
theorem run_keeps {I : State D L K → Prop} (hsteps : E .outOfSteps)
    (hI : ∀ s, I s → s.stage ≠ .done → Ensures E (step A) s fun _ t => I t) (n : Nat) (hs : I s) :
    Returns E (run A n s) I := by
  induction n generalizing s with
  | zero =>
    unfold run
    split
    · exact hs
    · exact hsteps
  | succ n ih =>
    unfold run
    split
    · exact hs
    · next hstage =>
      refine Returns.bind (P := fun r => I r.2) ?_ fun r hr => ih hr
      exact .of_forall (fun r hr => (hI s hs hstage).elim hr) fun f hf =>
        (hI s hs hstage).allowed hf

theorem eval_returns (hs : Grounded A F s) {ef : EdgeRef} (hef : s.store.Alive ef) (v : L) :
    Returns E (s.store.eval ef v) fun _ => True := by
  obtain ⟨φ, hφ⟩ := hs.store.means hef
  exact .of_ok (hs.store.eval hφ v) trivial

/-! ## The first phase -/

section Runs

variable [Std.TransOrd D] [Std.LawfulEqOrd D]

/-- A run that goes on has known seeds. Which faults happen is left open. -/
theorem Next.premises (hgraph : A.graph.Built) (hs : Reachable A s) (h : Next A s t) :
    Premises A (fun _ => True) fun _ => True := by
  induction hs generalizing t with
  | create hs =>
    obtain ⟨-, hfresh, -⟩ := create_grounded A.confined_true hs
    cases h with
    | move _ hrun =>
      obtain ⟨_, _, hget, hrun⟩ := run_bind_ok hrun
      obtain ⟨rfl, rfl⟩ := run_get_ok hget
      simp only [hfresh] at hrun
      exact ⟨.of_built hgraph (begin_knows hrun) trivial, fun _ _ => trivial⟩
    | drop hdone _ =>
      rw [hfresh] at hdone
      cases hdone
  | next _ hn ih => exact ih hn

variable [Std.TransOrd L] [Std.LawfulEqOrd L] [Std.TransOrd K] [Std.LawfulEqOrd K]

theorem Next.grounded (hP : Premises A F E) (hs : Grounded A F s) (h : Next A s t) :
    Grounded A F t := by
  cases h with
  | move hstage hrun => exact ((step_ensures hP hs hstage).elim hrun).grounded hs
  | drop _ hrun => exact ((dropPending_ensures (E := E) hs).elim hrun).1

theorem Next.sameTree (hP : Premises A F E) (hs : Grounded A F s) (h : Next A s t)
    (hef : s.Holds ef) (hef' : t.Holds ef) : s.store.SameTree t.store ef := by
  cases h with
  | move hstage hrun => exact ((step_ensures hP hs hstage).elim hrun).sameTree hs hef hef'
  | drop _ hrun => exact ((dropPending_ensures (E := E) hs).elim hrun).2.1 ef hef'

theorem Reachable.grounded (hP : Premises A F E) (h : Reachable A s) : Grounded A F s := by
  induction h with
  | create hs => exact (create_grounded hP.confined hs).1
  | next _ hn ih => exact hn.grounded hP ih

/-- What holds in the beginning and is kept by every move holds in all states of a run. -/
theorem Reachable.keeps (hgraph : A.graph.Built) {I : State D L K → Prop}
    (hcreate : ∀ s, Solver.create A = .ok s → I s)
    (hnext : ∀ s t, Premises A (fun _ => True) (fun _ => True) → Grounded A (fun _ => True) s →
      I s → Next A s t → I t) (hs : Reachable A s) : I s := by
  induction hs with
  | create h => exact hcreate _ h
  | next hs hn ih =>
    have hP := hn.premises hgraph hs
    exact hnext _ _ hP (hs.grounded hP) ih hn

theorem HeldSince.sameTree (hP : Premises A F E) (hs : Grounded A F s)
    (h : HeldSince A ef s t) : Grounded A F t ∧ s.store.SameTree t.store ef := by
  induction h with
  | here hef => exact ⟨hs, hs.store.sameTree_of_le (EdgeStore.le_refl _) (hs.alive hef)⟩
  | next hst hn hef ih =>
    exact ⟨hn.grounded hP ih.1, ih.2.trans (hn.sameTree hP ih.1 hst.holds hef)⟩

/-- A run stays in grounded states, or runs out of steps, or ends with a fault that is allowed. -/
theorem run_returns (hP : Premises A F E) (hsteps : E .outOfSteps) (n : Nat)
    (hs : Grounded A F s) : Returns E (run A n s) fun t => Grounded A F t :=
  run_keeps hsteps (fun _ hs hstage => (step_ensures hP hs hstage).imp fun _ _ ht => ht.grounded hs)
    n hs

end Runs

/-! ## The second phase -/

section Values

variable {σ : Type} [ValueCode σ L]

theorem forwardAt_returns (hg : A.graph.Consistent) (hs : Grounded A F s) (d : FactId) (v : L)
    (e : Evaluation σ L) (site : String) :
    Returns E (forwardAt A s d v e site) fun _ => True := by
  unfold forwardAt
  split
  · trivial
  refine .foldlM _ trivial fun c hc e _ => ?_
  have hrec := hs.records c (hs.callsFrom _ _ c hc)
  refine (eval_returns hs hrec.edge v).bind fun w _ => ?_
  refine (name_returns (.inl hrec.callee)).bind fun callee hcallee => ?_
  exact enqueue_returns hg ((hs.declared callee).2 ⟨c.callee, hcallee⟩) e _ w

theorem visit_returns (hcode : AllowsCode σ L E) (hg : A.graph.Consistent) (hs : Grounded A F s)
    (e : Evaluation σ L) {job : ValueJob L} (hjob : Named E s.nodes job.node.val) :
    Returns E (visit A s e job) fun _ => True := by
  unfold visit
  dsimp only
  split
  · trivial
  refine (set_returns hcode _ _ _ _).bind fun values _ => ?_
  refine (name_returns hjob).bind fun node hnode => ?_
  obtain ⟨p, hp, hproc⟩ := (hs.known job.node node hnode).procOf hg
  obtain ⟨sites, hsites⟩ := Supergraph.calls_total hg hp
  refine Returns.bind (P := fun q => q = p) (.of_ok hproc rfl) ?_
  rintro _ rfl
  refine Returns.bind (P := fun _ => True) (.of_ok hsites trivial) fun _ _ => ?_
  exact .foldlM _ trivial fun site _ e _ => forwardAt_returns hg hs _ _ e site

theorem visitAll_returns (hcode : HarmlessCode σ L) (hg : A.graph.Consistent)
    (hs : Grounded A F s) (n : Nat) (e : Evaluation σ L) :
    Returns Fault.Harmless (visitAll A s n e) fun _ => True := by
  induction n generalizing e with
  | zero =>
    unfold visitAll
    split
    · trivial
    · exact nofun
  | succ n ih =>
    unfold visitAll
    split
    · trivial
    · exact (visit_returns hcode hg hs _ (.inr fun _ => nofun)).bind fun e _ => ih e

theorem evaluateEdge_returns (hcode : AllowsCode σ L E) (hs : Grounded A F s) (start node : NodeId)
    (values : ValueTable σ L) {a b : FactId} {ef : EdgeRef} (hef : s.store.Alive ef) :
    Returns E (evaluateEdge s start node values (a, b, ef)) fun _ => True := by
  refine (eval_returns hs hef _).bind fun v _ => ?_
  dsimp only
  split
  · exact set_returns hcode _ _ _ _
  · trivial

theorem evaluateNode_returns (hcode : AllowsCode σ L E) (hg : A.graph.Consistent)
    (hs : Grounded A F s) (start : NodeId) (name : String) (values : ValueTable σ L) {node : String}
    (hnode : A.graph.Known node) :
    Returns E (evaluateNode A s start name values node) fun _ => True := by
  obtain ⟨keep, hkeep⟩ := keepAt_total hg hnode true
  have hfold : ∀ id, Returns E
      ((s.paths.entries ⟨id⟩).foldlM (evaluateEdge s start ⟨id⟩) values) fun _ => True := by
    refine fun id => .foldlM _ trivial fun x hx values _ => ?_
    obtain ⟨a, b, ef⟩ := x
    have hpath := hs.paths _ a b ef (PathTable.mem_entries.1 hx)
    exact evaluateEdge_returns hcode hs _ _ _ hpath.edge
  unfold evaluateNode
  split
  · trivial
  refine Returns.bind (P := fun _ => True) (.of_ok hkeep trivial) fun _ _ => ?_
  split
  · trivial
  split
  · trivial
  · exact hfold _

theorem evaluateFrom_returns (hcode : AllowsCode σ L E) (hg : A.graph.Consistent)
    (hs : Grounded A F s) (values : ValueTable σ L) {i : Nat}
    (hi : Named E s.nodes (UInt32.ofNat i)) :
    Returns E (evaluateFrom A s values i) fun _ => True := by
  refine (name_returns hi).bind fun name hname => ?_
  obtain ⟨p, hp, hproc⟩ := (hs.known ⟨_⟩ name hname).procOf hg
  obtain ⟨nodes, hnodes, hknown⟩ := Supergraph.nodesOf_total hg hp
  refine Returns.bind (P := fun q => q = p) (.of_ok hproc rfl) ?_
  rintro _ rfl
  refine Returns.bind (P := fun ns => ns = nodes) (.of_ok hnodes rfl) ?_
  rintro _ rfl
  exact .foldlM _ trivial fun node hnode values _ =>
    evaluateNode_returns hcode hg hs _ _ values (hknown node hnode)

theorem computeValues_returns (hcode : HarmlessCode σ L) (hg : A.graph.Consistent)
    (hs : Grounded A F s) (n : Nat) (values : ValueTable σ L) :
    Returns Fault.Harmless (computeValues A s n values) fun _ => True := by
  refine (visitAll_returns hcode hg hs n _).bind fun e _ => ?_
  refine Returns.bind (.foldlM (fun _ => True) trivial fun i _ values _ => ?_) fun _ _ => trivial
  exact evaluateFrom_returns hcode hg hs values (.inr fun _ => nofun)

variable [Std.TransOrd L] [Std.LawfulEqOrd L] [Std.TransOrd K] [Std.LawfulEqOrd K]

theorem conclude_returns (hcode : HarmlessCode σ L) (hg : A.graph.Consistent)
    (hs : Grounded A F s) (n : Nat) :
    Returns Fault.Harmless (conclude A σ n s) fun _ => True := by
  have hdrop := dropPending_ensures (E := Fault.Harmless) hs
  refine Returns.bind (P := fun r => Grounded A F r.2)
    (.of_forall (fun _ hr => (hdrop.elim hr).1) fun _ hf => hdrop.allowed hf) fun r hr => ?_
  obtain ⟨_, t⟩ := r
  have hreached : Returns Fault.Harmless (reachedValues t : Except Fault (ValueTable σ L))
      fun _ => True := .foldlM _ trivial fun key _ values _ => set_returns hcode _ _ _ _
  refine hreached.bind fun values _ => ?_
  split
  · exact (computeValues_returns hcode hg hr n values).bind fun _ _ => trivial
  · trivial

theorem solve_returns [Std.TransOrd D] [Std.LawfulEqOrd D] (hP : Premises A F Fault.Harmless)
    (hcode : HarmlessCode σ L) (n : Nat) :
    Returns Fault.Harmless (solve A σ n) fun _ => True := by
  refine Returns.bind (P := fun s => Grounded A F s) ?_ fun s hs => ?_
  · exact .of_forall (fun s hs => (create_grounded hP.confined hs).1)
      fun f hf => (create_returns A).allowed hf
  · exact (run_returns hP nofun n hs).bind fun t ht => conclude_returns hcode hP.graph ht n

end Values

end Solver

open Solver in
/-- In every state of a run, a handle that is held anywhere is alive, and it keeps its tree for as
long as it is held. No run uses a handle that is not alive. -/
theorem held_handles_alive [Ord D] [Ord L] [Ord K] [DecidableEq D] [JoinLattice L] [DecidableEq L]
    [Payload K L] [Std.TransOrd D] [Std.LawfulEqOrd D] [Std.TransOrd L] [Std.LawfulEqOrd L]
    [Std.TransOrd K] [Std.LawfulEqOrd K] (A : Analysis D L K)
    (hgraph : A.graph.Built) (hseeds : ∀ x ∈ A.problem.seeds.toList, A.graph.Known x.1) :
    (∀ s, Reachable A s → ∀ ef, s.Holds ef → s.store.Alive ef ∧
      ∀ t, HeldSince A ef s t → s.store.SameTree t.store ef) ∧
    (∀ s, Reachable A s → ∀ n i, run A n s ≠ .error (.notAlive i)) ∧
    ∀ n i, solve A (Verbatim L) n ≠ .error (.notAlive i) ∧
      solve A (Interner L) n ≠ .error (.notAlive i) ∧
      solve A (SharedInterner L) n ≠ .error (.notAlive i) := by
  have hP := Premises.of_built hgraph hseeds
  refine ⟨fun s hs ef hef => ?_, fun s hs n i h => ?_,
    fun n i => ⟨fun h => ?_, fun h => ?_, fun h => ?_⟩⟩
  · have hg := hs.grounded hP
    exact ⟨hg.alive hef, fun t ht => (ht.sameTree hP hg).2⟩
  · exact (run_returns hP nofun n (hs.grounded hP)).allowed h i rfl
  · exact (solve_returns hP harmlessCode_verbatim n).allowed h i rfl
  · exact (solve_returns hP harmlessCode_interner n).allowed h i rfl
  · exact (solve_returns hP harmlessCode_sharedInterner n).allowed h i rfl

open Solver in
/-- A handle that is held is less than the number of functions that were stored so far, with the
three reserved ones. So it takes a run that stores `UInt32.size` functions for a handle not to fit
into 32 bits. -/
theorem held_handle_lt [Ord D] [Ord L] [Ord K] [DecidableEq D] [JoinLattice L] [DecidableEq L]
    [Payload K L] [Std.TransOrd D] [Std.LawfulEqOrd D] [Std.TransOrd L] [Std.LawfulEqOrd L]
    [Std.TransOrd K] [Std.LawfulEqOrd K] {A : Analysis D L K} (hgraph : A.graph.Built)
    (hseeds : ∀ x ∈ A.problem.seeds.toList, A.graph.Known x.1) {s : State D L K}
    (hs : Reachable A s) {ef : EdgeRef} (hef : s.Holds ef) : ef.index < s.store.interned + 3 := by
  have hg := hs.grounded (Premises.of_built hgraph hseeds)
  exact hg.store.index_lt (hg.alive hef)

namespace Straight

/-- One procedure with three nodes in a row. -/
def graph : Except Fault Supergraph := Supergraph.ofSteps
  [.proc "main" ["a", "b", "c"], .chain ["a", "b", "c"]]

/-- Each edge generates a bit. -/
def problem : Problem Nat Mask MaskMap where
  zero := 0
  seeds := Seeds.empty.add "a" 1 ⟨0⟩
  normalFlow _ _ := .identity
  callFlow _ _ := .identity
  returnFlow _ _ _ _ := .identity
  bypassFlow _ _ _ := .killAll
  normalEdge node _ _ _ := .custom (.genKill (if node = "a" then 1 else 2) 0 true)

def analysis (g : Supergraph) : Analysis Nat Mask MaskMap := ⟨problem, g, {}⟩

end Straight

open Solver in
/-- After the first phase the function of the second edge is freed. The composition of both edges is
held by a path edge and keeps its tree. -/
theorem held_handles_alive_straight :
    ∃ g s t, Straight.graph = .ok g ∧ Reachable (Straight.analysis g) s ∧
      HeldSince (Straight.analysis g) ⟨5⟩ s t ∧ t.store.node? ⟨4⟩ = none ∧
      s.store.Alive ⟨5⟩ ∧ s.store.SameTree t.store ⟨5⟩ := by
  have hrun : (do
      let g ← Straight.graph
      let s₀ ← create (Straight.analysis g)
      let s ← run (Straight.analysis g) 20 s₀
      let r ← (dropPending (Straight.analysis g)).run s
      return (g.procOf "a", s.paths.get? ⟨2⟩ ⟨1⟩ ⟨1⟩, r.2.paths.get? ⟨2⟩ ⟨1⟩ ⟨1⟩,
        r.2.store.node? ⟨4⟩)) =
      .ok (.ok "main", some ⟨5⟩, some ⟨5⟩, none) := by
    set_option synthInstance.maxSize 1024 in
    decide +kernel
  simp only [bind_eq_ok, pure_eq_ok, Prod.mk.injEq] at hrun
  obtain ⟨g, hg, s₀, hcreate, s, hs, ⟨⟨⟩, t⟩, ht, hproc, hpath, hpath', hfree⟩ := hrun
  obtain ⟨hreach, hdone⟩ := (Reachable.create hcreate).run hs
  have hheld : HeldSince (Straight.analysis g) ⟨5⟩ s t :=
    .next (.here (.path hpath)) (.drop hdone ht) (.path hpath')
  have hseeds : ∀ x ∈ (Straight.analysis g).problem.seeds.toList, g.Known x.1 := by
    intro x hx
    obtain rfl := List.mem_singleton.1 hx
    exact Supergraph.known_of_procOf hproc
  have hall := held_handles_alive (Straight.analysis g) (.ofSteps hg) hseeds
  obtain ⟨halive, htree⟩ := hall.1 s hreach ⟨5⟩ (.path hpath)
  exact ⟨g, s, t, hg, hreach, hheld, hfree, halive, htree t hheld⟩

end Tabulation
