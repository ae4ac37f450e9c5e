import Tabulation.Proofs.Outcome
import Tabulation.Proofs.Solver.Grounded
import Tabulation.Solver.Propagate

/-!
# Propagation without faults

Every program of the propagation, started in a grounded state, returns after some effects, or ends
with one of the faults that are allowed: numbers may run out, `Groundwork`, and with collection a
procedure may be released too often, `Premises`. No other fault can happen; in particular every
handle that is used is alive.

The lemmas of this module follow the programs: names and answers, stored functions, recording,
returns and calls.
-/

namespace Tabulation

variable {D L K : Type} {A : Analysis D L K} {E : Fault → Prop}

section Groundwork

variable [DecidableEq D]

/-- What is assumed of an analysis whose runs end with no faults but those in `E`, as long as no
procedure is released too often. -/
structure Groundwork (A : Analysis D L K) (F : D → Prop) (E : Fault → Prop) : Prop where
  graph : A.graph.Consistent
  confined : A.Confined F
  seeds : ∀ x ∈ A.problem.seeds.toList, A.graph.Known x.1
  room : E .idsExhausted ∨ ∃ (N : Finset String) (S : Finset D),
    (∀ x, A.graph.Known x → x ∈ N) ∧ N.card < UInt32.size ∧
      (∀ d, F d → d ∈ S) ∧ S.card < UInt32.size

/-- Known seeds on a graph that was built are enough if numbers may run out. -/
theorem Groundwork.of_built (hgraph : A.graph.Built)
    (hseeds : ∀ x ∈ A.problem.seeds.toList, A.graph.Known x.1) (hE : E .idsExhausted) :
    Groundwork A (fun _ => True) E where
  graph := hgraph.consistent
  confined := A.confined_true
  seeds := hseeds
  room := .inl hE

/-- What is assumed of an analysis whose runs end with no faults but those in `E`. -/
structure Premises (A : Analysis D L K) (F : D → Prop) (E : Fault → Prop) : Prop
    extends Groundwork A F E where
  idle : A.config.gcMode.isEnabled = true → ∀ i, E (.noPendingJobs i)

end Groundwork

namespace Solver

theorem keepAt_total (hg : A.graph.Consistent) {x : String} (hx : A.graph.Known x)
    (forResults : Bool) : ∃ b, keepAt A x forResults = .ok b := by
  obtain ⟨exit, hexit⟩ := hx.isExit
  obtain ⟨start, hstart⟩ := hx.isStart
  obtain ⟨ms, hms, hknown⟩ := hx.preds hg
  obtain ⟨called, hcalled⟩ := anyM_total fun m hm => (hknown m hm).isCallSite
  unfold keepAt
  rw [hexit, ok_bind, hstart, ok_bind]
  split
  · exact ⟨true, rfl⟩
  rw [hms, ok_bind, hcalled, ok_bind]
  split
  · exact ⟨true, rfl⟩
  split
  · exact ⟨true, rfl⟩
  · exact ⟨_, rfl⟩

variable [Ord D] [Ord L] [Ord K] {s s' : State D L K}

theorem nodeName_ensures {n : NodeId} {x : String} (hx : s.HasNode n x) :
    Ensures E (nodeName n) s fun y t => s = t ∧ x = y :=
  .get_seq (.lift (fun _ hy => ⟨rfl, Except.ok.inj ((Interner.get_eq_ok.2 hx).symm.trans hy)⟩)
    fun _ hf => by rw [Interner.get_eq_ok.2 hx] at hf; cases hf)

theorem factOf_ensures {d : FactId} {x : D} (hx : s.HasFact d x) :
    Ensures E (factOf d) s fun y t => s = t ∧ x = y :=
  .get_seq (.lift (fun _ hy => ⟨rfl, Except.ok.inj ((Interner.stored_eq_ok.2 hx).symm.trans hy)⟩)
    fun _ hf => by rw [Interner.stored_eq_ok.2 hx] at hf; cases hf)

theorem procName_ensures {p : ProcId} {x : String} (hx : s.HasProc p x) :
    Ensures E (procName p) s fun y t => s = t ∧ x = y :=
  .get_seq (.lift (fun _ hy => ⟨rfl, Except.ok.inj ((Interner.get_eq_ok.2 hx).symm.trans hy)⟩)
    fun _ hf => by rw [Interner.get_eq_ok.2 hx] at hf; cases hf)

theorem nodeId_known (hwf : s.nodes.Wf) {n : NodeId} {x : String} (hx : s.HasNode n x) :
    Ensures E (nodeId x) s fun i t => n = i ∧ s = t :=
  .get_seq (.ok_seq (Interner.intern_of_get? hwf hx) (.modify_seq (.pure ⟨rfl, rfl⟩)))

theorem factId_known (hwf : s.facts.Wf) {d : FactId} {x : D} (hx : s.HasFact d x) :
    Ensures E (factId x) s fun i t => d = i ∧ s = t :=
  .get_seq (.ok_seq (Interner.intern_of_get? hwf hx) (.modify_seq (.pure ⟨rfl, rfl⟩)))

theorem procId_known (hwf : s.procs.Wf) {p : ProcId} {x : String} (hx : s.HasProc p x) :
    Ensures E (procId x) s fun i t => p = i ∧ s = t :=
  .get_seq (.ok_seq (Interner.intern_of_get? hwf hx) (.modify_seq (.pure ⟨rfl, rfl⟩)))

/-- Only the fact at the node may be new among those reached. -/
theorem reach_ensures (hg : A.graph.Consistent) {n : NodeId} {d : FactId} {x : String}
    (hn : s.HasNode n x) (hx : A.graph.Known x) :
    Ensures E (reach A n d) s fun _ t => ∃ reached, t = { s with reached } ∧
      ∀ key, reached.contains key = true →
        s.reached.contains key = true ∨ key = pack n.val d.val := by
  refine .get_seq ?_
  split
  · exact .pure ⟨_, rfl, fun _ => .inl⟩
  have hend : ∀ keep : Bool, Ensures E (if keep = true then
      modify fun s : State D L K => { s with reached := s.reached.insert (pack n.val d.val) }
      else pure ()) s fun _ t => ∃ reached, t = { s with reached } ∧
        ∀ key, reached.contains key = true →
          s.reached.contains key = true ∨ key = pack n.val d.val := by
    intro keep
    split
    · refine .modify_end ⟨_, rfl, fun key hkey => ?_⟩
      exact ((contains_insert_iff _ _ _).1 hkey).symm.imp_right Eq.symm
    · exact .pure ⟨_, rfl, fun _ => .inl⟩
  dsimp only
  split
  · refine (nodeName_ensures hn).seq fun y t ⟨ht, hy⟩ => ?_
    obtain ⟨b, hb⟩ := keepAt_total hg hx true
    rw [← ht, ← hy]
    exact .lift_seq (fun keep _ => hend keep) fun f hf => by rw [hb] at hf; cases hf
  · exact Ensures.seq (P := fun _ t => t = s) (.pure rfl) fun keep t ht => ht ▸ hend keep

/-! ## Programs that leave the ledger alone -/

/-- Whenever the program returns, the ledger is what it was. -/
def KeepsLedger {α : Type} (m : SolverM D L K α) : Prop :=
  ∀ ⦃s : State D L K⦄ ⦃a : α⦄ ⦃t : State D L K⦄, m.run s = .ok (a, t) → t.ledger = s.ledger

namespace KeepsLedger

variable {α β : Type}

theorem pure (a : α) : KeepsLedger (pure a : SolverM D L K α) := fun s b t h => by
  obtain ⟨-, rfl⟩ := run_pure_ok h
  rfl

theorem get : KeepsLedger (get : SolverM D L K (State D L K)) := fun s b t h => by
  obtain ⟨-, rfl⟩ := run_get_ok h
  rfl

theorem lift (x : Except Fault α) : KeepsLedger (liftM x : SolverM D L K α) := fun s b t h => by
  obtain ⟨-, rfl⟩ := run_lift_ok h
  rfl

theorem modify {f : State D L K → State D L K} (hf : ∀ s, (f s).ledger = s.ledger) :
    KeepsLedger (modify f : SolverM D L K PUnit) := fun s b t h => by
  rw [← run_modify_ok h]
  exact hf s

theorem bind {m : SolverM D L K α} {f : α → SolverM D L K β} (hm : KeepsLedger m)
    (hf : ∀ a, KeepsLedger (f a)) : KeepsLedger (m >>= f) := fun s b t h => by
  obtain ⟨a, u, hu, ht⟩ := run_bind_ok h
  exact (hf a ht).trans (hm hu)

theorem forM {l : List α} {f : α → SolverM D L K PUnit} (hf : ∀ a, KeepsLedger (f a)) :
    KeepsLedger (l.forM f) := fun s _ _ h =>
  run_forM_ok (fun _ t => t.ledger = s.ledger) h rfl fun _ a _ _ _ ht hrun => (hf a hrun).trans ht

/-- What else is ensured stays. -/
theorem and {m : SolverM D L K α} {Q : α → State D L K → Prop} (hm : KeepsLedger m)
    (h : Ensures E m s Q) : Ensures E m s fun a t => Q a t ∧ t.ledger = s.ledger := by
  cases hrun : m.run s with
  | ok r => exact .of_ok hrun ⟨h.elim hrun, hm hrun⟩
  | error f => exact .of_error hrun (h.allowed hrun)

end KeepsLedger

theorem nodeId_keepsLedger (x : String) : KeepsLedger (nodeId x : SolverM D L K NodeId) :=
  .bind .get fun _ => .bind (.lift _) fun _ => .bind (.modify fun _ => rfl) fun _ => .pure _

theorem factId_keepsLedger (x : D) : KeepsLedger (factId x : SolverM D L K FactId) :=
  .bind .get fun _ => .bind (.lift _) fun _ => .bind (.modify fun _ => rfl) fun _ => .pure _

theorem procId_keepsLedger (x : String) : KeepsLedger (procId x : SolverM D L K ProcId) :=
  .bind .get fun _ => .bind (.lift _) fun _ => .bind (.modify fun _ => rfl) fun _ => .pure _

theorem askEdge_keepsLedger
    (ask : Answers D → EdgeStore L K → EdgeRef × Answers D × EdgeStore L K) :
    KeepsLedger (askEdge ask : SolverM D L K EdgeRef) := by
  rintro s b t ⟨⟩
  rfl

theorem reach_keepsLedger (n : NodeId) (d : FactId) : KeepsLedger (reach A n d) := by
  have hend (keep : Bool) : KeepsLedger (if keep then
      modify fun s => { s with reached := s.reached.insert (pack n.val d.val) }
      else pure () : SolverM D L K Unit) := by
    split
    · exact .modify fun _ => rfl
    · exact .pure _
  refine .bind .get fun s => ?_
  split
  · exact .pure _
  split
  · exact .bind (.bind .get fun _ => .lift _) fun _ => .bind (.lift _) hend
  · exact .bind (.pure _) hend

variable [JoinLattice L] [DecidableEq L] [Payload K L]

theorem compose_keepsLedger (a b : EdgeRef) : KeepsLedger (compose a b : SolverM D L K EdgeRef) :=
  .bind .get fun _ => .bind (.lift _) fun _ => .bind (.modify fun _ => rfl) fun _ => .pure _

theorem joinEdges_keepsLedger (a b : EdgeRef) :
    KeepsLedger (joinEdges a b : SolverM D L K EdgeRef) :=
  .bind .get fun _ => .bind (.lift _) fun _ => .bind (.modify fun _ => rfl) fun _ => .pure _

theorem composeReturn_keepsLedger (call summary : EdgeRef)
    (ask : Answers D → EdgeStore L K → EdgeRef × Answers D × EdgeStore L K) :
    KeepsLedger (composeReturn A call summary ask) := by
  unfold composeReturn
  split
  · exact .bind (askEdge_keepsLedger ask) fun _ => .bind (compose_keepsLedger ..) fun _ =>
      compose_keepsLedger ..
  · exact .pure _

theorem merge_keepsLedger (old : Option EdgeRef) (ef : EdgeRef) : KeepsLedger (merge A old ef) := by
  unfold merge
  split
  · exact .pure _
  · split
    · exact .bind (joinEdges_keepsLedger ..) fun _ => .pure _
    · exact .pure _

theorem record_keepsLedger (n : NodeId) (a b : FactId) (p : ProcId) (ef : EdgeRef) :
    KeepsLedger (record A n a b p ef) := by
  refine .bind .get fun s => .bind (merge_keepsLedger ..) fun r => ?_
  split
  · exact .pure _
  · refine .bind (.modify fun _ => rfl) fun _ => ?_
    split
    · split
      · exact .bind (.modify fun _ => rfl) fun _ => .bind (reach_keepsLedger ..) fun _ =>
          .bind (.modify fun _ => rfl) fun _ => .modify fun _ => rfl
      · exact .bind (.modify fun _ => rfl) fun _ => .modify fun _ => rfl
    · split
      · exact .bind (.modify fun _ => rfl) fun _ => .bind (reach_keepsLedger ..) fun _ =>
          .bind (.modify fun _ => rfl) fun _ => .pure _
      · exact .bind (.modify fun _ => rfl) fun _ => .pure _

variable [DecidableEq D] {F : D → Prop}

theorem applySummaries_keepsLedger (c : CallRecord) (exit : String) (exitId : NodeId)
    (summaries : List (FactId × EdgeRef)) :
    KeepsLedger (applySummaries A c exit exitId summaries) := by
  refine .bind (.bind .get fun _ => .lift _) fun site => .bind (.bind .get fun _ => .lift _)
    fun callee => .bind (.lift _) fun _ => .bind (procId_keepsLedger _) fun caller =>
    .bind (.lift _) fun rets => .forM fun ret => .bind (nodeId_keepsLedger _) fun retId =>
    .bind (.bind .get fun _ => .bind (.modify fun _ => rfl) fun _ => .pure _) fun flow =>
    .forM fun (exitFact, summary) => .bind (.bind .get fun _ => .lift _) fun fact =>
    .bind (.bind .get fun _ => .pure _) fun targets => .forM fun target =>
    .bind (factId_keepsLedger _) fun targetId => .bind (composeReturn_keepsLedger ..) fun ef =>
    record_keepsLedger ..

theorem applyKnownSummaries_keepsLedger (c : CallRecord) (callee : String) :
    KeepsLedger (applyKnownSummaries A c callee) := by
  refine .bind (.lift _) fun exits => .forM fun exit => .bind (nodeId_keepsLedger _) fun exitId =>
    .bind (.bind .get fun _ => .pure _) fun summaries => ?_
  split
  · exact .pure _
  · exact applySummaries_keepsLedger ..

/-! ## Effects -/

/-- A loop whose steps have effects has effects. -/
theorem forM_effects {α : Type} {l : List α} {f : α → SolverM D L K PUnit} (hs : Grounded A F s)
    (hf : ∀ a ∈ l, ∀ t, Effects A F s t → Grounded A F t →
      Ensures E (f a) t fun _ u => Effects A F t u) :
    Ensures E (l.forM f) s fun _ t => Effects A F s t :=
  Ensures.forM (fun t => Effects A F s t) .refl fun a ha t ht =>
    (hf a ha t ht (ht.grounded hs)).imp fun _ _ hu => ht.trans hu

/-! ## Names -/

/-- Numbering a value fails only where that is allowed. -/
theorem intern_fails {α : Type} [Ord α] {t : Interner α} (ht : t.Wf) {P : α → Prop}
    (hroom : E .idsExhausted ∨ ∃ S : Finset α, (∀ a, P a → a ∈ S) ∧ S.card < UInt32.size)
    (hP : ∀ i a, t.get? i = some a → P a) {a : α} (ha : P a) {f : Fault}
    (hf : t.intern a = .error f) : E f := by
  rcases hroom with hE | ⟨S, hS, hcard⟩
  · rw [Interner.eq_of_intern_error hf]
    exact hE
  · obtain ⟨i, t', hi⟩ := Interner.intern_total ht (fun i b hb => hS b (hP i b hb)) hcard (hS a ha)
    rw [hi] at hf
    cases hf

theorem nodeId_ensures (hP : Groundwork A F E) (hb : Basis A F s) {x : String}
    (hx : A.graph.Known x) :
    Ensures E (nodeId x) s fun n t => Effects A F s t ∧ t.HasNode n x := by
  refine Ensures.get_seq (.lift_seq (fun r hi => ?_) fun f hf => ?_)
  · obtain ⟨i, nodes⟩ := r
    obtain ⟨hwf, hle, hget⟩ := Interner.intern_spec hb.nodes hi
    have hq : Quiet s { s with nodes } := { Quiet.refl s with nodes := hle }
    have hb' : Basis A F { s with nodes } := { hb with
      nodes := hwf
      known := fun n y hy => (Interner.get?_of_intern hi hy).elim (hb.known n y) (· ▸ hx)
      answers := hb.answers.mono hq.store rfl }
    exact .modify_seq (.pure ⟨.single (.quiet hb' hq rfl rfl (.inl rfl)), hget⟩)
  · refine intern_fails hb.nodes (hP.room.imp_right ?_) (fun i y => hb.known ⟨i⟩ y) hx hf
    exact fun ⟨N, _, hN, hcard, _⟩ => ⟨N, hN, hcard⟩

theorem factId_ensures [Std.TransOrd D] [Std.LawfulEqOrd D] (hP : Groundwork A F E)
    (hb : Basis A F s) {x : D} (hx : F x) :
    Ensures E (factId x) s fun d t => Effects A F s t ∧ t.HasFact d x := by
  refine Ensures.get_seq (.lift_seq (fun r hi => ?_) fun f hf => ?_)
  · obtain ⟨i, facts⟩ := r
    obtain ⟨hwf, hle, hget⟩ := Interner.intern_spec hb.facts hi
    have hq : Quiet s { s with facts } := { Quiet.refl s with facts := hle }
    have hb' : Basis A F { s with facts } := { hb with
      facts := hwf
      inside := fun d y hy => (Interner.get?_of_intern hi hy).elim (hb.inside d y) (· ▸ hx)
      answers := hb.answers.mono hq.store rfl }
    exact .modify_seq (.pure ⟨.single (.quiet hb' hq rfl rfl (.inl rfl)), hget⟩)
  · refine intern_fails hb.facts (hP.room.imp_right ?_) (fun i y => hb.inside ⟨i⟩ y) hx hf
    exact fun ⟨_, S, _, _, hS, hcard⟩ => ⟨S, hS, hcard⟩

/-- Procedures were numbered before the run. -/
theorem procId_ensures (hb : Basis A F s) {x : String} (hx : x ∈ A.graph.procNames) :
    Ensures E (procId x) s fun p t => s = t ∧ s.HasProc p x := by
  obtain ⟨p, hp⟩ := (hb.declared x).1 hx
  refine (procId_known hb.procs hp).imp ?_
  rintro _ _ ⟨rfl, rfl⟩
  exact ⟨rfl, hp⟩

/-! ## Answers -/

theorem askFlow_ensures (hb : Basis A F s) {α : Type} {ask : Answers D → α × Answers D}
    {P : α → Prop} (hlook : LookUp A s { s with answers := (ask s.answers).2 })
    (hask : P (ask s.answers).1 ∧ AnswersGrounded A F { s with answers := (ask s.answers).2 }) :
    Ensures E (askFlow ask) s fun f t => Effects A F s t ∧ P f := by
  have hb' : Basis A F { s with answers := (ask s.answers).2 } := { hb with answers := hask.2 }
  exact .get_seq (.modify_seq (.pure
    ⟨.single (.quiet hb' { Quiet.refl s with } rfl rfl (.inr hlook)), hask.1⟩))

theorem targets_ensures (hb : Basis A F s) (f : FlowFunction D) (d : D) :
    Ensures E (targets f d : SolverM D L K _) s fun ds t => s = t ∧ A.targets f d = ds := by
  refine .get_seq (.pure ⟨rfl, ?_⟩)
  unfold Analysis.targets Answers.targets
  rw [hb.answers.zero, hb.answers.autoAddZero]
  rfl

section Flows

variable (hP : Groundwork A F E) (hb : Basis A F s) {n m r : NodeId} {p : ProcId}
  {x y z q : String}
include hP hb

theorem normalFlow_ensures (hn : s.HasNode n x) (hm : s.HasNode m y) :
    Ensures E (askFlow fun a => a.normalFlow A.problem x y (pack n.val m.val) : SolverM D L K _) s
      fun f t => Effects A F s t ∧ f.Keeps F := by
  obtain ⟨hf, hmemo⟩ := Memo.Holds.getOrAsk_mem hb.answers.normalFlow (pack n.val m.val)
    (fun _ => A.problem.normalFlow x y) (hP.confined.normalFlow x y)
  exact askFlow_ensures hb (.normalFlow hn hm) ⟨hf, { hb.answers with normalFlow := hmemo }⟩

theorem callFlow_ensures (hn : s.HasNode n x) (hp : s.HasProc p q) :
    Ensures E (askFlow fun a => a.callFlow A.problem x q (pack n.val p.val) : SolverM D L K _) s
      fun f t => Effects A F s t ∧ f.Keeps F := by
  obtain ⟨hf, hmemo⟩ := Memo.Holds.getOrAsk_mem hb.answers.callFlow (pack n.val p.val)
    (fun _ => A.problem.callFlow x q) (hP.confined.callFlow x q)
  exact askFlow_ensures hb (.callFlow hn hp) ⟨hf, { hb.answers with callFlow := hmemo }⟩

theorem returnFlow_ensures (hn : s.HasNode n x) (hr : s.HasNode r z) (hm : s.HasNode m y)
    (hexit : A.graph.ExitOf q z) :
    Ensures E (askFlow fun a =>
        a.returnFlow A.problem x q z y (pack n.val r.val, m) : SolverM D L K _) s
      fun f t => Effects A F s t ∧ f.Keeps F := by
  obtain ⟨hf, hmemo⟩ := Memo.Holds.getOrAsk_mem hb.answers.returnFlow (pack n.val r.val, m)
    (fun _ => A.problem.returnFlow x q z y) (hP.confined.returnFlow x q z y)
  exact askFlow_ensures hb (.returnFlow hn hr hm hexit)
    ⟨hf, { hb.answers with returnFlow := hmemo }⟩

theorem bypassFlow_ensures {ps : List String} (hn : s.HasNode n x) (hm : s.HasNode m y)
    (hps : A.graph.callees x = .ok ps) :
    Ensures E (askFlow fun a =>
        a.bypassFlow A.problem x y ps (pack n.val m.val) : SolverM D L K _) s
      fun f t => Effects A F s t ∧ f.Keeps F := by
  obtain ⟨hf, hmemo⟩ := Memo.Holds.getOrAsk_mem hb.answers.bypassFlow (pack n.val m.val)
    (fun _ => A.problem.bypassFlow x y ps) (hP.confined.bypassFlow x y ps)
  exact askFlow_ensures hb (.bypassFlow hn hm hps) ⟨hf, { hb.answers with bypassFlow := hmemo }⟩

theorem summaryFlow_ensures (hn : s.HasNode n x) (hp : s.HasProc p q) :
    Ensures E (askFlow fun a =>
        a.summaryFlow A.problem x q (pack n.val p.val) : SolverM D L K _) s
      fun o t => Effects A F s t ∧ ∀ f ∈ o, f.Keeps F := by
  obtain ⟨hf, hmemo⟩ := Memo.Holds.getOrAsk_mem (P := fun o => ∀ f ∈ o, f.Keeps F)
    hb.answers.summaryFlow (pack n.val p.val) (fun _ => A.problem.summaryFlow x q)
    (hP.confined.summaryFlow x q)
  exact askFlow_ensures (P := fun o : Option (FlowFunction D) => ∀ f ∈ o, f.Keeps F) hb
    (.summaryFlow hn hp) ⟨hf, { hb.answers with summaryFlow := hmemo }⟩

end Flows

/-- Asking gives a live handle, keeps everything as it should be, and is a look-up under the key of
its question. -/
def AsksAlive (A : Analysis D L K) (F : D → Prop)
    (ask : Answers D → EdgeStore L K → EdgeRef × Answers D × EdgeStore L K) (s : State D L K) :
    Prop :=
  ∀ ef a st, ask s.answers s.store = (ef, a, st) →
    st.Regular ∧ s.store ≤ st ∧ s.store.KeepsJoins st ∧ st.Alive ef ∧
      AnswersGrounded A F { s with answers := a, store := st } ∧
      LookUp A s { s with answers := a, store := st }

theorem askEdge_ensures
    {ask : Answers D → EdgeStore L K → EdgeRef × Answers D × EdgeStore L K} (hb : Basis A F s)
    (hask : AsksAlive A F ask s) :
    Ensures E (askEdge ask) s fun ef t => Effects A F s t ∧ t.store.Alive ef := by
  refine Ensures.get_seq ?_
  cases h : ask s.answers s.store with
  | mk ef rest =>
  obtain ⟨a, st⟩ := rest
  obtain ⟨hst, hle, hjoins, halive, hanswers, hlook⟩ := hask ef a st h
  have hb' : Basis A F { s with answers := a, store := st } := { hb with
    answers := hanswers, store := hst, joinLimit := hle.2.1.trans hb.joinLimit }
  have hq : Quiet s { s with answers := a, store := st } :=
    { Quiet.refl s with store := hle, joins := hjoins }
  exact .set_seq (.pure ⟨.single (.quiet hb' hq rfl rfl (.inr hlook)), halive⟩)

theorem summariesAt_ensures (hs : Grounded A F s) (p : ProcId) (entry : FactId) (exit : NodeId) :
    Ensures E (summariesAt A p entry exit) s fun xs t => s = t ∧
      ∀ x ∈ xs, (∃ y, s.HasFact x.1 y) ∧ s.store.Alive x.2 := by
  refine .get_seq (.pure ⟨rfl, fun x hx => ?_⟩)
  obtain ⟨d, ef⟩ := x
  split at hx
  · exact hs.summaries _ _ _ _ _ (SummaryTable.mem_leaving.1 hx)
  · have hpath := hs.paths _ _ _ _ (PathTable.mem_targetsOf.1 hx)
    exact ⟨hpath.target, hpath.edge⟩

/-! ## Stored functions -/

section Edges

variable [Std.TransOrd L] [Std.LawfulEqOrd L] [Std.TransOrd K] [Std.LawfulEqOrd K]

theorem compose_ensures (hb : Basis A F s) {a b : EdgeRef} (ha : s.store.Alive a)
    (hb' : s.store.Alive b) :
    Ensures E (compose a b) s fun c t => Effects A F s t ∧ t.store.Alive c := by
  obtain ⟨c, st, hc, hst, hle, m, hm⟩ := hb.store.compose ha hb'
  refine Ensures.get_seq (.lift_seq (fun r hr => ?_) fun f hf => ?_)
  · obtain rfl := Except.ok.inj (hc.symm.trans hr)
    have hq : Quiet s { s with store := st } :=
      { Quiet.refl s with store := hle, joins := EdgeStore.keepsJoins_compose hc }
    exact .modify_seq (.pure ⟨.single (.quiet (hb.withStore hst hle) hq rfl rfl (.inl rfl)),
      hm.alive hst (ha.mono hle) (hb'.mono hle)⟩)
  · rw [hc] at hf
    cases hf

theorem joinEdges_ensures (hb : Basis A F s) {a b : EdgeRef} (ha : s.store.Alive a)
    (hb' : s.store.Alive b) :
    Ensures E (joinEdges a b) s fun c t => Effects A F s t ∧ Quiet s t ∧
      t.store.Joined (EdgeStore.joinKey a b).1 (EdgeStore.joinKey a b).2 c := by
  obtain ⟨c, st, hc, hst, hle, hj⟩ := hb.store.join ha hb'
  refine Ensures.get_seq (.lift_seq (fun r hr => ?_) fun f hf => ?_)
  · obtain rfl := Except.ok.inj (hc.symm.trans hr)
    have hq : Quiet s { s with store := st } :=
      { Quiet.refl s with store := hle, joins := (EdgeStore.keepsJoins_join hc).1 }
    exact .modify_seq (.pure
      ⟨.single (.quiet (hb.withStore hst hle) hq rfl rfl (.inl rfl)), hq, hj⟩)
  · rw [hc] at hf
    cases hf

/-- A handle is remembered and alive, or the client's edge function is stored under it. -/
theorem getOrAskEdge_alive {κ : Type} [Ord κ] [Std.TransOrd κ] [Std.LawfulEqOrd κ]
    [DecidableEq κ] {m m' : Memo κ EdgeRef} {key : κ} {st st' : EdgeStore L K}
    {ask : Unit → EdgeFunction L K} {ef : EdgeRef} {isNew : Bool} (hst : st.Regular)
    (hm : m.Holds fun _ ef => st.Alive ef)
    (h : Answers.getOrAskEdge m key st ask = (ef, isNew, m', st')) :
    st'.Regular ∧ st ≤ st' ∧ st.KeepsJoins st' ∧ st'.Alive ef ∧
      m'.Holds fun _ ef => st'.Alive ef := by
  unfold Answers.getOrAskEdge Memo.lookup at h
  cases hk : m.table[key]? with
  | some ef₀ =>
    simp only [hk, Prod.mk.injEq] at h
    obtain ⟨rfl, -, rfl, rfl⟩ := h
    exact ⟨hst, EdgeStore.le_refl _, .refl _, hm key _ hk, hm⟩
  | none =>
    cases hleaf : st.leaf (ask ()) with
    | mk ef₁ st₁ =>
    simp only [hk, hleaf, Prod.mk.injEq] at h
    obtain ⟨rfl, -, rfl, rfl⟩ := h
    obtain ⟨hst', hle, hat⟩ := hst.leaf hleaf
    refine ⟨hst', hle, EdgeStore.keepsJoins_leaf hleaf, hat.alive hst', ?_⟩
    refine Memo.Holds.insert (m := { m with misses := m.misses + 1 }) ?_ (hat.alive hst')
    exact fun k a ha => (hm k a ha).mono hle

variable {ask : Answers D → EdgeStore L K → EdgeRef × Answers D × EdgeStore L K}

/-- The five kinds of edge functions differ only in the table in which they are remembered. -/
theorem asksAlive_of_memo {κ : Type} [Ord κ] [Std.TransOrd κ] [Std.LawfulEqOrd κ] [DecidableEq κ]
    {key : κ} {e : EdgeFunction L K} {memo : Answers D → Memo κ EdgeRef}
    (update : Answers D → Bool → Memo κ EdgeRef → Answers D) (hst : s.store.Regular)
    (hlook : LookUp A s (s.answer (ask s.answers s.store)))
    (hask : ∀ a st, ask a st =
      let (ef, isNew, m, st) := Answers.getOrAskEdge (memo a) key st fun _ => e
      (ef, update a isNew m, st))
    (hmemo : (memo s.answers).Holds fun _ ef => s.store.Alive ef)
    (hupdate : ∀ isNew m st, s.store ≤ st → m.Holds (fun _ ef => st.Alive ef) →
      AnswersGrounded A F { s with answers := update s.answers isNew m, store := st }) :
    AsksAlive A F ask s := by
  intro ef a st h
  rw [h] at hlook
  rw [hask] at h
  cases hget : Answers.getOrAskEdge (memo s.answers) key s.store fun _ => e with
  | mk ef₁ rest =>
  obtain ⟨isNew, m, st₁⟩ := rest
  simp only [hget, Prod.mk.injEq] at h
  obtain ⟨rfl, rfl, rfl⟩ := h
  obtain ⟨hst', hle, hjoins, hat, hholds⟩ := getOrAskEdge_alive hst hmemo hget
  exact ⟨hst', hle, hjoins, hat, hupdate isNew m st₁ hle hholds, hlook⟩

section Questions

variable (hb : Basis A F s) {n m r : NodeId} {p : ProcId} {x y z q : String} {d t : FactId}
  {i j : D}
include hb

theorem normalEdge_alive (hn : s.HasNode n x) (hm : s.HasNode m y) (hd : s.HasFact d i)
    (ht : s.HasFact t j) :
    AsksAlive A F (fun a st => a.normalEdge A.problem st x i y j
      (pack n.val m.val, factPair d t)) s :=
  asksAlive_of_memo (fun a isNew memo => { a with
      normalEdges := memo, questions := (.normalEdge x i y j, isNew) :: a.questions })
    hb.store (.normalEdge hn hm hd ht) (fun _ _ => rfl) hb.answers.normalEdge
    fun _ _ _ hle hmemo => { hb.answers.withStore hle with normalEdge := hmemo }

theorem callEdge_alive (hn : s.HasNode n x) (hp : s.HasProc p q) (hd : s.HasFact d i)
    (ht : s.HasFact t j) :
    AsksAlive A F (fun a st => a.callEdge A.problem st x i q j
      (pack n.val p.val, factPair d t)) s :=
  asksAlive_of_memo (fun a isNew memo => { a with
      callEdges := memo, questions := (.callEdge x i q j, isNew) :: a.questions })
    hb.store (.callEdge hn hp hd ht) (fun _ _ => rfl) hb.answers.callEdge
    fun _ _ _ hle hmemo => { hb.answers.withStore hle with callEdge := hmemo }

theorem returnEdge_alive (hn : s.HasNode n x) (hr : s.HasNode r z) (hm : s.HasNode m y)
    (hexit : A.graph.ExitOf q z) (hd : s.HasFact d i) (ht : s.HasFact t j) :
    AsksAlive A F (fun a st => a.returnEdge A.problem st x q z i y j
      (pack n.val r.val, m, factPair d t)) s :=
  asksAlive_of_memo (fun a isNew memo => { a with
      returnEdges := memo, questions := (.returnEdge x q z i y j, isNew) :: a.questions })
    hb.store (.returnEdge hn hr hm hexit hd ht) (fun _ _ => rfl) hb.answers.returnEdge
    fun _ _ _ hle hmemo => { hb.answers.withStore hle with returnEdge := hmemo }

theorem bypassEdge_alive {ps : List String} (hn : s.HasNode n x) (hm : s.HasNode m y)
    (hps : A.graph.callees x = .ok ps) (hd : s.HasFact d i) (ht : s.HasFact t j) :
    AsksAlive A F (fun a st => a.bypassEdge A.problem st x i y j ps
      (pack n.val m.val, factPair d t)) s :=
  asksAlive_of_memo (fun a isNew memo => { a with
      bypassEdges := memo, questions := (.bypassEdge x i y j ps, isNew) :: a.questions })
    hb.store (.bypassEdge hn hm hps hd ht) (fun _ _ => rfl) hb.answers.bypassEdge
    fun _ _ _ hle hmemo => { hb.answers.withStore hle with bypassEdge := hmemo }

theorem summaryEdge_alive (hn : s.HasNode n x) (hm : s.HasNode m y) (hd : s.HasFact d i)
    (ht : s.HasFact t j) :
    AsksAlive A F (fun a st => a.summaryEdge A.problem st x i y j
      (pack n.val m.val, factPair d t)) s :=
  asksAlive_of_memo (fun a isNew memo => { a with
      summaryEdges := memo, questions := (.summaryEdge x i y j, isNew) :: a.questions })
    hb.store (.summaryEdge hn hm hd ht) (fun _ _ => rfl) hb.answers.summaryEdge
    fun _ _ _ hle hmemo => { hb.answers.withStore hle with summaryEdge := hmemo }

end Questions

theorem composeWith_ensures (hs : Grounded A F s) {ef : EdgeRef} (hef : s.store.Alive ef)
    (hask : AsksAlive A F ask s) :
    Ensures E (composeWith A ef ask) s fun c t => Effects A F s t ∧ t.store.Alive c := by
  unfold composeWith
  split
  · refine (askEdge_ensures hs.toBasis hask).seq fun e t ⟨ht, he⟩ => ?_
    have hgt := ht.grounded hs
    exact (compose_ensures hgt.toBasis (hef.mono ht.grows.store) he).imp
      fun c u ⟨hu, hc⟩ => ⟨ht.trans hu, hc⟩
  · exact .pure ⟨.refl, _, hs.store.identity⟩

theorem composeReturn_ensures (hs : Grounded A F s) {call summary : EdgeRef}
    (hcall : s.store.Alive call) (hsummary : s.store.Alive summary)
    (hask : AsksAlive A F ask s) :
    Ensures E (composeReturn A call summary ask) s
      fun c t => Effects A F s t ∧ t.store.Alive c := by
  unfold composeReturn
  split
  · refine (askEdge_ensures hs.toBasis hask).seq fun e t ⟨ht, he⟩ => ?_
    have hst := ht.grows.store
    refine (compose_ensures (ht.grounded hs).toBasis (hcall.mono hst) (hsummary.mono hst)).seq
      fun m u ⟨hu, hm⟩ => ?_
    have hgu := (ht.trans hu).grounded hs
    exact (compose_ensures hgu.toBasis hm (he.mono hu.grows.store)).imp
      fun c v ⟨hv, hc⟩ => ⟨(ht.trans hu).trans hv, hc⟩
  · exact .pure ⟨.refl, _, hs.store.identity⟩

/-! ## Recording -/

theorem merge_ensures (hs : Grounded A F s) {old : Option EdgeRef} {ef : EdgeRef}
    (hold : ∀ o ∈ old, s.store.Alive o) (hef : s.store.Alive ef) :
    Ensures E (merge A old ef) s fun r t => Effects A F s t ∧ Quiet s t ∧
      ∀ ef' ∈ r, Relabels A t.store ef old ef' := by
  unfold merge
  cases old with
  | none => exact .pure ⟨.refl, Quiet.refl s, fun ef' hr => Option.some.inj hr ▸ .new⟩
  | some o =>
    have ho : s.store.Alive o := hold o rfl
    dsimp only
    split
    · next hv =>
      refine (joinEdges_ensures hs.toBasis ho hef).seq fun c t ⟨ht, hq, hj⟩ => ?_
      refine .pure ⟨ht, hq, fun ef' hr => ?_⟩
      split at hr
      · cases hr
      · next hne =>
        obtain rfl := Option.some.inj hr
        exact .join hv (ho.mono hq.store) hj hne
    · exact .pure ⟨.refl, Quiet.refl s, fun ef' hr => by cases hr⟩

theorem record_ensures (hP : Groundwork A F E) (hs : Grounded A F s) {n : NodeId} {a b : FactId}
    {p : ProcId} {ef : EdgeRef} (hx : PathEdge.Grounded s ⟨n, a, b, ef⟩) (hp : InProc A s n p) :
    Ensures E (record A n a b p ef) s fun _ t => Effects A F s t := by
  refine .get_seq ?_
  generalize he : (if A.config.computeValues = true then ef else .identity) = e
  have halive : s.store.Alive e := by
    rw [← he]
    split
    · exact hx.edge
    · exact ⟨_, hs.store.identity⟩
  refine (merge_ensures hs (fun o ho => (hs.paths n a b o ho).edge) halive).seq
    fun r t ⟨ht, hq, hr⟩ => ?_
  cases r with
  | none => exact .pure ht
  | some ef' =>
    have hgrows := ht.grows
    have hgt := ht.grounded hs
    obtain ⟨x, hn⟩ := hx.node
    have hnode : t.HasNode n x := hgrows.nodes _ _ hn
    have hx' : PathEdge.Grounded t ⟨n, a, b, e⟩ := ({ hx with edge := halive } :
      PathEdge.Grounded s ⟨n, a, b, e⟩).mono hgrows
    have heffect : ∀ reached : Std.TreeSet UInt64, (∀ key, reached.contains key = true →
        t.reached.contains key = true ∨ key = pack n.val b.val) →
        Effects A F s (t.withPath A ⟨n, a, b, ef'⟩ p reached) := fun reached hreached =>
      ht.trans (.single (.path hx' (hp.mono hgrows) (hq.paths ▸ hr ef' rfl) hreached))
    have hend : ∀ alive, ∀ reached : Std.TreeSet UInt64,
        alive = (if (t.paths.get? n a b).isNone then t.alive + 1 else t.alive) →
        (∀ key, reached.contains key = true →
          t.reached.contains key = true ∨ key = pack n.val b.val) →
        Ensures E (do
          modify fun s => { s with
            stats := s.stats.pathEdgeStored s.alive
            queue := s.queue.push ⟨n, a, b, ef'⟩ }
          if A.config.gcMode.isEnabled then
            modify fun s => { s with retention := s.retention.retain p } : SolverM D L K Unit)
          { t with paths := (t.paths.insert n a b ef').2, alive, reached }
          fun _ u => Effects A F s u := by
      rintro _ reached rfl hreached
      refine .modify_seq ?_
      have := heffect reached hreached
      unfold State.withPath at this
      split
      · next hgc =>
        rw [if_pos hgc] at this
        exact .modify_end this
      · next hgc =>
        rw [if_neg hgc] at this
        exact .pure this
    refine .modify_seq ?_
    dsimp only
    rw [← hq.paths]
    split
    · next hnone =>
      refine .modify_seq (.seq (reach_ensures (x := x) hP.graph ?_ (hgt.known n x hnode)) ?_)
      · exact hnode
      · rintro _ _ ⟨reached, rfl, hreached⟩
        exact hend _ reached (by rw [if_pos hnone]) hreached
    · next hsome => exact hend _ t.reached (by rw [if_neg hsome]) fun _ => .inl

theorem recordSummary_ensures (hs : Grounded A F s) {job : PathEdge} {p : ProcId}
    (hjob : job.Grounded s) (hp : ∃ y, s.HasProc p y) :
    Ensures E (recordSummary A job p) s fun _ t => Effects A F s t := by
  refine .modify_seq ?_
  have hkey : Effects A F s { s with
      callQueue := (s.callQueue.insert (pack job.source.val p.val)).2 } := .single (.key hp)
  have hgt := hkey.grounded hs
  generalize { s with
    callQueue := (s.callQueue.insert (pack job.source.val p.val)).2 } = t at hkey hgt
  have hjob' := hjob.mono hkey.grows
  split
  swap
  · exact .pure hkey
  refine .get_seq ?_
  split
  · next hnone =>
    have hsummary : Effects A F s { t with
        summaries := (t.summaries.insert p job.source job.node job.target job.edge).2 } :=
      hkey.trans (.single (.summary hjob'.target hjob'.edge (hnone ▸ .new)))
    exact .modify_end (hsummary.withStats hs _ rfl)
  · next old hold =>
    split
    swap
    · exact .pure hkey
    next hv =>
    refine (joinEdges_ensures hgt.toBasis (hgt.summaries _ _ _ _ _ hold).2 hjob'.edge).seq
      fun c u ⟨hu, hq, hj⟩ => ?_
    have hjob'' := hjob'.mono hu.grows
    split
    · next hne =>
      refine .modify_end ((hkey.trans hu).trans (.single (.summary hjob''.target hjob''.edge ?_)))
      rw [hq.summaries, hold]
      exact .join hv ((hgt.summaries _ _ _ _ _ hold).2.mono hq.store) hj hne
    · exact .pure (hkey.trans hu)

/-! ## Propagation -/

variable [Std.TransOrd D] [Std.LawfulEqOrd D]

theorem spread_ensures (hP : Groundwork A F E) (hs : Grounded A F s) {job : PathEdge} {p : ProcId}
    {fact : D} {dest : NodeId} {flow : FlowFunction D}
    {ask : D → UInt64 → Answers D → EdgeStore L K → EdgeRef × Answers D × EdgeStore L K}
    (hjob : job.Grounded s) (hdest : InProc A s dest p) (hfact : F fact) (hflow : flow.Keeps F)
    (hask : ∀ t, Basis A F t → s.Grows t → ∀ target d, t.HasFact d target →
      AsksAlive A F (ask target (factPair job.target d)) t) :
    Ensures E (spread A job p fact dest flow ask) s fun _ t => Effects A F s t := by
  refine (targets_ensures hs.toBasis flow fact).seq ?_
  rintro _ _ ⟨rfl, rfl⟩
  refine forM_effects hs fun target htarget t ht hgt => ?_
  have hF : F target := hP.confined.targets hflow hfact target htarget
  refine (factId_ensures hP hgt.toBasis hF).seq fun d u ⟨hu, hd⟩ => ?_
  have hgu := hu.grounded hgt
  have hjob' := hjob.mono (ht.trans hu).grows
  have hask' := hask u hgu.toBasis (ht.trans hu).grows target d hd
  refine (composeWith_ensures hgu hjob'.edge hask').seq fun ef v ⟨hv, hef⟩ => ?_
  have hgrows := ((ht.trans hu).trans hv).grows
  refine (record_ensures hP (hv.grounded hgu) ⟨?_, ?_, ?_, hef⟩ ?_).imp
    fun _ w hw => (hu.trans hv).trans hw
  · exact (hdest.mono hgrows).hasNode
  · exact hjob.source.imp fun _ => hgrows.facts _ _
  · exact ⟨target, hv.grows.facts _ _ hd⟩
  · exact hdest.mono hgrows

theorem propagateNormal_ensures (hP : Groundwork A F E) (hs : Grounded A F s) {job : PathEdge}
    {node proc : String} {p : ProcId} (hjob : job.Grounded s) (hnode : s.HasNode job.node node)
    (hproc : A.graph.procOf node = .ok proc) (hp : s.HasProc p proc) :
    Ensures E (propagateNormal A job node p) s fun _ t => Effects A F s t := by
  obtain ⟨fact, hfact⟩ := hjob.target
  have hknown := hs.known _ _ hnode
  obtain ⟨succs, hsuccs, hsucc⟩ := hknown.succs hP.graph
  obtain ⟨exit, hexit⟩ := hknown.isExit
  refine (factOf_ensures hfact).seq ?_
  rintro _ _ ⟨rfl, rfl⟩
  refine .lift_seq (fun ms hms => ?_) fun f hf => by rw [hsuccs] at hf; cases hf
  obtain rfl := Except.ok.inj (hsuccs.symm.trans hms)
  refine (forM_effects hs fun succ hmem t ht hgt => ?_).seq fun _ t ht => ?_
  · refine (nodeId_ensures hP hgt.toBasis (hsucc succ hmem)).seq fun m u ⟨hu, hm⟩ => ?_
    have hgu := hu.grounded hgt
    have hnode' := (ht.trans hu).grows.nodes _ _ hnode
    refine (normalFlow_ensures hP hgu.toBasis hnode' hm).seq fun flow v ⟨hv, hflow⟩ => ?_
    have hgrows := ((ht.trans hu).trans hv).grows
    have hdest : InProc A v m p := ⟨succ, proc, hv.grows.nodes _ _ hm,
      Supergraph.procOf_succ hP.graph ⟨succs, hsuccs, hmem⟩ hproc, hgrows.procs _ _ hp⟩
    exact (spread_ensures hP (hv.grounded hgu) (hjob.mono hgrows) hdest (hs.inside _ _ hfact) hflow
      fun w hw hvw target d hd => normalEdge_alive hw (hvw.nodes _ _ (hgrows.nodes _ _ hnode))
        (hvw.nodes _ _ (hv.grows.nodes _ _ hm)) (hvw.facts _ _ (hgrows.facts _ _ hfact)) hd).imp
        fun _ w hw => (hu.trans hv).trans hw
  · refine .lift_seq (fun b hb => ?_) fun f hf => by rw [hexit] at hf; cases hf
    split
    · exact (recordSummary_ensures (ht.grounded hs) (hjob.mono ht.grows)
        ⟨proc, ht.grows.procs _ _ hp⟩).imp fun _ u hu => ht.trans hu
    · exact .pure ht

/-! ## Returns -/

theorem applySummaries_ensures (hP : Groundwork A F E) (hs : Grounded A F s) {c : CallRecord}
    {callee exit : String} {exitId : NodeId} {xs : List (FactId × EdgeRef)} (hc : c.Grounded s)
    (hcallee : s.HasProc c.callee callee) (hexit : A.graph.ExitOf callee exit)
    (hexitId : s.HasNode exitId exit)
    (hxs : ∀ x ∈ xs, (∃ y, s.HasFact x.1 y) ∧ s.store.Alive x.2) :
    Ensures E (applySummaries A c exit exitId xs) s fun _ t => Effects A F s t := by
  obtain ⟨site, hsite⟩ := hc.site
  have hknown := hs.known _ _ hsite
  obtain ⟨caller, hmem, hcaller⟩ := hknown.procOf hP.graph
  obtain ⟨rets, hrets, hret⟩ := hknown.succs hP.graph
  refine (nodeName_ensures hsite).seq ?_
  rintro _ _ ⟨rfl, rfl⟩
  refine (procName_ensures hcallee).seq ?_
  rintro _ _ ⟨rfl, rfl⟩
  refine .lift_seq (fun q hq => ?_) fun f hf => by rw [hcaller] at hf; cases hf
  obtain rfl := Except.ok.inj (hcaller.symm.trans hq)
  refine (procId_ensures hs.toBasis hmem).seq ?_
  rintro p _ ⟨rfl, hp⟩
  refine .lift_seq (fun ms hms => ?_) fun f hf => by
    rw [Supergraph.returnSites, hrets] at hf
    cases hf
  obtain rfl := Except.ok.inj (hrets.symm.trans hms)
  refine forM_effects hs fun ret hmem' t ht hgt => ?_
  refine (nodeId_ensures hP hgt.toBasis (hret ret hmem')).seq fun m u ⟨hu, hm⟩ => ?_
  have hgu := hu.grounded hgt
  have hnodes := (ht.trans hu).grows.nodes
  refine (returnFlow_ensures hP hgu.toBasis (hnodes _ _ hsite) (hnodes _ _ hexitId) hm hexit).seq
    fun flow v ⟨hv, hflow⟩ => ?_
  have huv := hu.trans hv
  have hgv := huv.grounded hgt
  refine (forM_effects hgv fun x hx w hw hgw => ?_).imp fun _ w hw => huv.trans hw
  obtain ⟨exitFact, summary⟩ := x
  obtain ⟨⟨fact, hfact⟩, hsummary⟩ := hxs _ hx
  have hgrows := ((ht.trans huv).trans hw).grows
  refine (factOf_ensures (hgrows.facts _ _ hfact)).seq ?_
  rintro _ _ ⟨rfl, rfl⟩
  refine (targets_ensures hgw.toBasis flow fact).seq ?_
  rintro _ _ ⟨rfl, rfl⟩
  refine forM_effects hgw fun target htarget t' ht' hgt' => ?_
  have hF : F target := hP.confined.targets hflow (hs.inside _ _ hfact) target htarget
  refine (factId_ensures hP hgt'.toBasis hF).seq fun d u' ⟨hu', hd⟩ => ?_
  have hgu' := hu'.grounded hgt'
  have hgrows' := (((ht.trans huv).trans hw).trans (ht'.trans hu')).grows
  have hm' := ((hv.trans hw).trans (ht'.trans hu')).grows.nodes _ _ hm
  refine (composeReturn_ensures hgu' (hc.mono hgrows').edge (hsummary.mono hgrows'.store)
    (returnEdge_alive hgu'.toBasis (hgrows'.nodes _ _ hsite) (hgrows'.nodes _ _ hexitId) hm' hexit
      (hgrows'.facts _ _ hfact) hd)).seq fun ef v' ⟨hv', hef⟩ => ?_
  have hlast := (hw.trans (ht'.trans hu')).trans hv'
  have hall := (ht.trans huv).trans hlast
  refine (record_ensures hP (hv'.grounded hgu') ⟨?_, ?_, ?_, hef⟩ ?_).imp
    fun _ w' hw' => (hu'.trans hv').trans hw'
  · exact ⟨ret, (hv.trans hlast).grows.nodes _ _ hm⟩
  · exact hc.source.imp fun _ => hall.grows.facts _ _
  · exact ⟨target, hv'.grows.facts _ _ hd⟩
  · exact ⟨ret, caller, (hv.trans hlast).grows.nodes _ _ hm,
      Supergraph.procOf_succ hP.graph ⟨rets, hrets, hmem'⟩ hcaller, hall.grows.procs _ _ hp⟩

theorem applyKnownSummaries_ensures (hP : Groundwork A F E) (hs : Grounded A F s) {c : CallRecord}
    {callee : String} (hc : c.Grounded s) (hcallee : s.HasProc c.callee callee) :
    Ensures E (applyKnownSummaries A c callee) s fun _ t => Effects A F s t := by
  obtain ⟨exits, hexits, hexit⟩ :=
    Supergraph.exitPoints_total hP.graph ((hs.declared callee).2 ⟨_, hcallee⟩)
  refine .lift_seq (fun ns hns => ?_) fun f hf => by rw [hexits] at hf; cases hf
  obtain rfl := Except.ok.inj (hexits.symm.trans hns)
  refine forM_effects hs fun exit hmem t ht hgt => ?_
  refine (nodeId_ensures hP hgt.toBasis (hexit exit hmem)).seq fun n u ⟨hu, hn⟩ => ?_
  have hgu := hu.grounded hgt
  have hgrows := (ht.trans hu).grows
  refine (summariesAt_ensures hgu _ _ _).seq ?_
  rintro xs _ ⟨rfl, hxs⟩
  split
  · exact .pure hu
  · exact (applySummaries_ensures hP hgu (hc.mono hgrows) (hgrows.procs _ _ hcallee)
      ⟨exits, hexits, hmem⟩ hn hxs).imp fun _ v hv => hu.trans hv

/-! ## Calls -/

theorem recordCall_ensures (hP : Groundwork A F E) (hs : Grounded A F s) {c : CallRecord}
    {callee : String} (hc : c.Grounded s) (hcallee : s.HasProc c.callee callee) :
    Ensures E (recordCall A c callee) s fun _ t => Effects A F s t := by
  have hcall : Effects A F s { s with ledger := (s.ledger.insert c).2 } := .single (.call hc)
  by_cases hmem : c ∈ s.ledger
  · refine .get_seq ?_
    rw [CallLedger.insert_of_mem hmem]
    exact .modify_seq (.modify_end (Effects.withStats hs .refl _ rfl))
  refine .get_seq ?_
  rw [CallLedger.insert_of_not_mem hmem] at hcall ⊢
  refine .modify_seq (.modify_seq ?_)
  have ht := hcall.withStats hs { s.stats with calls := s.stats.calls + 1 } rfl
  have hgt := ht.grounded hs
  refine ((applyKnownSummaries_keepsLedger c callee).and (applyKnownSummaries_ensures hP hgt
    (hc.mono ht.grows) (ht.grows.procs _ _ hcallee))).seq fun _ u ⟨hu, hledger⟩ => ?_
  -- The summaries that were applied change no call, so the new one still waits to be linked.
  have hledger : u.ledger = (s.ledger.insert c).2 := by
    rw [hledger, CallLedger.insert_of_not_mem hmem]
  have hi : u.ledger.records[s.ledger.records.size]? = some c := by
    rw [hledger, CallLedger.records_insert hmem]
    exact Array.getElem?_push_size
  have hlinkable : u.ledger.Linkable s.ledger.records.size :=
    hledger ▸ hs.ledger.toThreaded.linkable c
  refine .get_seq (.lift_seq (fun ledger hlink => ?_) fun f hf => ?_)
  · exact .modify_end ((ht.trans hu).trans (.single (.link hi hlinkable hlink)))
  · obtain ⟨_, hlink⟩ := CallLedger.link_total A.config.computeValues hi
    rw [hlink] at hf
    cases hf

theorem enterCallee_ensures (hP : Groundwork A F E) (hs : Grounded A F s) {job : PathEdge}
    {site callee : String} {fact : D} {q : ProcId} (hjob : job.Grounded s)
    (hsite : s.HasNode job.node site) (hfact : s.HasFact job.target fact)
    (hcallee : callee ∈ A.graph.procNames) (hq : s.HasProc q callee) :
    Ensures E (enterCallee A job site fact callee q (pack job.node.val q.val)) s
      fun _ t => Effects A F s t := by
  obtain ⟨starts, hstarts, hstart⟩ := Supergraph.startPoints_total hP.graph hcallee
  refine .lift_seq (fun ns hns => ?_) fun f hf => by rw [hstarts] at hf; cases hf
  obtain rfl := Except.ok.inj (hstarts.symm.trans hns)
  split
  · exact .pure .refl
  refine (callFlow_ensures hP hs.toBasis hsite hq).seq fun flow t ⟨ht, hflow⟩ => ?_
  have hgt := ht.grounded hs
  refine (targets_ensures hgt.toBasis flow fact).seq ?_
  rintro _ _ ⟨rfl, rfl⟩
  refine (forM_effects hgt fun entry hentry u hu hgu => ?_).imp fun _ u hu => ht.trans hu
  have hF : F entry := hP.confined.targets hflow (hs.inside _ _ hfact) entry hentry
  refine (factId_ensures hP hgu.toBasis hF).seq fun d v ⟨hv, hd⟩ => ?_
  have hgv := hv.grounded hgu
  have hgrows := ((ht.trans hu).trans hv).grows
  have hjob' := hjob.mono hgrows
  refine (composeWith_ensures hgv hjob'.edge (callEdge_alive hgv.toBasis (hgrows.nodes _ _ hsite)
    (hgrows.procs _ _ hq) (hgrows.facts _ _ hfact) hd)).seq fun edge w ⟨hw, hedge⟩ => ?_
  have hgw := hw.grounded hgv
  refine (forM_effects hgw fun start hmem t' ht' hgt' => ?_).seq fun _ t' ht' => ?_
  · refine (nodeId_ensures hP hgt'.toBasis (hstart start hmem)).seq fun n u' ⟨hu', hn⟩ => ?_
    have hgu' := hu'.grounded hgt'
    have hentry : ∃ y, u'.HasFact d y := ⟨entry, (hw.trans (ht'.trans hu')).grows.facts _ _ hd⟩
    refine (record_ensures hP hgu' ⟨⟨start, hn⟩, hentry, hentry, _, hgu'.store.identity⟩ ?_).imp
      fun _ v' hv' => hu'.trans hv'
    have hproc := ((Supergraph.startOf_iff hP.graph).1 ⟨starts, hstarts, hmem⟩).1
    have hall := ((ht.trans hu).trans hv).trans (hw.trans (ht'.trans hu'))
    exact ⟨start, callee, hn, hproc, hall.grows.procs _ _ hq⟩
  · have hall := ((ht.trans hu).trans hv).trans (hw.trans ht')
    have hq' : t'.HasProc q callee := hall.grows.procs _ _ hq
    refine (recordCall_ensures hP (ht'.grounded hgw)
      (c := ⟨edge, job.source, q, job.node, d⟩) ⟨?_, ?_, ?_, ?_, ?_⟩ hq').imp
        fun _ u' hu' => (hv.trans (hw.trans ht')).trans hu'
    · exact hjob.node.imp fun _ => hall.grows.nodes _ _
    · exact ⟨callee, hq'⟩
    · exact hjob.source.imp fun _ => hall.grows.facts _ _
    · exact ⟨entry, (hw.trans ht').grows.facts _ _ hd⟩
    · exact hedge.mono ht'.grows.store

theorem propagateCall_ensures (hP : Groundwork A F E) (hs : Grounded A F s) {job : PathEdge}
    {site proc : String} {p : ProcId} (hjob : job.Grounded s) (hsite : s.HasNode job.node site)
    (hproc : A.graph.procOf site = .ok proc) (hp : s.HasProc p proc) :
    Ensures E (propagateCall A job site p) s fun _ t => Effects A F s t := by
  obtain ⟨fact, hfact⟩ := hjob.target
  have hF := hs.inside _ _ hfact
  have hknown := hs.known _ _ hsite
  obtain ⟨callees, hcallees, hcallee⟩ := hknown.callees hP.graph
  obtain ⟨rets, hrets, hret⟩ := hknown.succs hP.graph
  refine (factOf_ensures hfact).seq ?_
  rintro _ _ ⟨rfl, rfl⟩
  refine .lift_seq (fun ps hps => ?_) fun f hf => by rw [hcallees] at hf; cases hf
  obtain rfl := Except.ok.inj (hcallees.symm.trans hps)
  refine .lift_seq (fun ms hms => ?_) fun f hf => by
    rw [Supergraph.returnSites, hrets] at hf
    cases hf
  obtain rfl := Except.ok.inj (hrets.symm.trans hms)
  have hret' : ∀ {t : State D L K} {m : NodeId} {ret : String}, s.Grows t → t.HasNode m ret →
      ret ∈ rets → InProc A t m p := fun hgrows hm hmem =>
    ⟨_, proc, hm, Supergraph.procOf_succ hP.graph ⟨rets, hrets, hmem⟩ hproc, hgrows.procs _ _ hp⟩
  refine (forM_effects hs fun ret hmem t ht hgt => ?_).seq fun _ t ht => ?_
  · refine (nodeId_ensures hP hgt.toBasis (hret ret hmem)).seq fun m u ⟨hu, hm⟩ => ?_
    have hgu := hu.grounded hgt
    have hsite' := (ht.trans hu).grows.nodes _ _ hsite
    refine (bypassFlow_ensures hP hgu.toBasis hsite' hm hcallees).seq fun flow v ⟨hv, hflow⟩ => ?_
    have hgrows := ((ht.trans hu).trans hv).grows
    have hm' := hv.grows.nodes _ _ hm
    exact (spread_ensures hP (hv.grounded hgu) (hjob.mono hgrows) (hret' hgrows hm' hmem) hF hflow
      fun w hw hvw target d hd => bypassEdge_alive hw (hvw.nodes _ _ (hgrows.nodes _ _ hsite))
        (hvw.nodes _ _ hm') hcallees (hvw.facts _ _ (hgrows.facts _ _ hfact)) hd).imp
        fun _ w hw => (hu.trans hv).trans hw
  refine (forM_effects (ht.grounded hs) fun callee hmem u hu hgu => ?_).imp
    fun _ u hu => ht.trans hu
  refine (procId_ensures hgu.toBasis (hcallee callee hmem)).seq ?_
  rintro q _ ⟨rfl, hq⟩
  have hsite' := (ht.trans hu).grows.nodes _ _ hsite
  refine (summaryFlow_ensures hP hgu.toBasis hsite' hq).seq fun o v ⟨hv, hflow⟩ => ?_
  have hgv := hv.grounded hgu
  have hgrows := ((ht.trans hu).trans hv).grows
  cases o with
  | none =>
    exact (enterCallee_ensures hP hgv (hjob.mono hgrows) (hgrows.nodes _ _ hsite)
      (hgrows.facts _ _ hfact) (hcallee callee hmem) (hv.grows.procs _ _ hq)).imp
        fun _ w hw => hv.trans hw
  | some flow =>
    refine (forM_effects hgv fun ret hmem w hw hgw => ?_).imp fun _ w hw => hv.trans hw
    refine (nodeId_ensures hP hgw.toBasis (hret ret hmem)).seq fun m t' ⟨ht', hm⟩ => ?_
    have hgrows' := hgrows.trans (hw.trans ht').grows
    exact (spread_ensures hP (ht'.grounded hgw) (hjob.mono hgrows') (hret' hgrows' hm hmem) hF
      (hflow flow rfl) fun u' hu' htu target d hd => summaryEdge_alive hu'
        (htu.nodes _ _ (hgrows'.nodes _ _ hsite)) (htu.nodes _ _ hm)
        (htu.facts _ _ (hgrows'.facts _ _ hfact)) hd).imp fun _ u' hu' => ht'.trans hu'

/-- The procedure of the job is released once, and then propagation has its effects. -/
theorem propagate_ensures (hP : Groundwork A F E) (hs : Grounded A F s) {job : PathEdge}
    (hjob : job.Grounded s)
    (hidle : A.config.gcMode.isEnabled = true → ∀ p, InProc A s job.node p →
      s.retention.count p = 0 → E (.noPendingJobs p.index)) :
    Ensures E (propagate A job) s fun _ t => ∃ p r, InProc A s job.node p ∧
      (if A.config.gcMode.isEnabled then s.retention.release p = .ok r else r = s.retention) ∧
      Effects A F { s with retention := r } t := by
  obtain ⟨node, hnode⟩ := hjob.node
  have hknown := hs.known _ _ hnode
  obtain ⟨proc, hmem, hproc⟩ := hknown.procOf hP.graph
  obtain ⟨call, hcall⟩ := hknown.isCallSite
  refine (nodeName_ensures hnode).seq ?_
  rintro _ _ ⟨rfl, rfl⟩
  refine .lift_seq (fun q hq => ?_) fun f hf => by rw [hproc] at hf; cases hf
  obtain rfl := Except.ok.inj (hproc.symm.trans hq)
  refine (procId_ensures hs.toBasis hmem).seq ?_
  rintro p _ ⟨rfl, hp⟩
  have hin : InProc A s job.node p := ⟨node, proc, hnode, hproc, hp⟩
  have hend : ∀ t, Grounded A F t → s.Grows t → Ensures E (do
      if ← A.graph.isCallSite node then
        propagateCall A job node p
      else
        propagateNormal A job node p : SolverM D L K Unit) t fun _ u => Effects A F t u := by
    intro t hgt hgrows
    have hjob' := hjob.mono hgrows
    refine .lift_seq (fun b hb => ?_) fun f hf => by rw [hcall] at hf; cases hf
    split
    · exact propagateCall_ensures hP hgt hjob' (hgrows.nodes _ _ hnode) hproc (hgrows.procs _ _ hp)
    · exact propagateNormal_ensures hP hgt hjob' (hgrows.nodes _ _ hnode) hproc
        (hgrows.procs _ _ hp)
  dsimp only
  split
  · next hgc =>
    refine .get_seq (.lift_seq (fun r hr => ?_) fun f hf => ?_)
    · have hcand := (Retention.release_spec hr).1
      have hgr : Grounded A F { s with retention := r } := hs.withRetention fun i hi => hcand ▸ hi
      refine .modify_seq ((hend _ hgr { State.Grows.refl s with }).imp fun _ t ht => ?_)
      exact ⟨p, r, hin, hr, ht⟩
    · unfold Retention.release at hf
      split at hf
      · next hzero =>
        rw [← Except.error.inj hf]
        exact hidle hgc p hin hzero
      · cases hf
  · exact (hend s hs (.refl s)).imp fun _ t ht => ⟨p, s.retention, hin, rfl, ht⟩

theorem replay_ensures (hP : Groundwork A F E) (hs : Grounded A F s) {key : UInt64}
    (hkey : KeyGrounded s key) : Ensures E (replay A key) s fun _ t => Effects A F s t := by
  obtain ⟨callee, hcallee⟩ := hkey
  have hmem : callee ∈ A.graph.procNames := (hs.declared callee).2 ⟨_, hcallee⟩
  obtain ⟨exits, hexits, hexit⟩ := Supergraph.exitPoints_total hP.graph hmem
  refine (procName_ensures hcallee).seq ?_
  rintro _ _ ⟨rfl, rfl⟩
  refine .lift_seq (fun ns hns => ?_) fun f hf => by rw [hexits] at hf; cases hf
  obtain rfl := Except.ok.inj (hexits.symm.trans hns)
  refine forM_effects hs fun exit hmem t ht hgt => ?_
  refine (nodeId_ensures hP hgt.toBasis (hexit exit hmem)).seq fun n u ⟨hu, hn⟩ => ?_
  have hgu := hu.grounded hgt
  refine (summariesAt_ensures hgu _ _ _).seq ?_
  rintro xs _ ⟨rfl, hxs⟩
  split
  · exact .pure hu
  refine .get_seq ((forM_effects hgu fun c hc v hv hgv => ?_).imp fun _ v hv => hu.trans hv)
  have hgrows := hv.grows
  -- A call that waits under the key of a procedure is a call of that procedure.
  obtain ⟨hc, heq⟩ := hgu.callsInto _ _ c hc
  have hcallee' : v.HasProc c.callee callee := by
    rw [heq]
    exact ((ht.trans hu).trans hv).grows.procs _ _ hcallee
  refine applySummaries_ensures hP hgv ((hgu.records c hc).mono hgrows) hcallee'
    ⟨exits, hexits, hmem⟩ (hgrows.nodes _ _ hn) fun x hx => ?_
  obtain ⟨hfact, halive⟩ := hxs x hx
  exact ⟨hfact.imp fun _ => hgrows.facts _ _, halive.mono hgrows.store⟩

end Edges

end Solver

end Tabulation
