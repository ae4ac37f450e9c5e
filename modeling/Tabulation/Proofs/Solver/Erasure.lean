import Tabulation.Proofs.Solver.Alongside
import Tabulation.Proofs.Solver.Complete

/-!
# Labels that say nothing

If all edge functions of a client are the identity, so are all labels, and computing values changes
nothing about the propagation of facts. `State.erase` forgets what only values need: the remembered
edge functions, and along which calls values are forwarded. A run without values is the run with
values, erased: `run_erase`. This holds of runs that fail as well, whatever their graph.

**Programs.** `Erases m m' t Q` says that `m` does on the erased state what `m'` does on `t`. The
rules have the shape of programs, and each program of the solver gets one lemma.
-/

namespace Tabulation

/-! ## Erasing -/

/-- Forgets all edge functions, and that they were asked for. -/
def Answers.flowsOnly {D : Type} (a : Answers D) : Answers D :=
  { a with
    normalEdges := ∅, callEdges := ∅, returnEdges := ∅, bypassEdges := ∅, summaryEdges := ∅
    questions := a.questions.filter (·.1.getter.isFlow) }

namespace CallLedger

/-- Forgets along which calls values are forwarded. -/
def unforwarded (t : CallLedger) : CallLedger :=
  { t with entries := t.entries.map ({ · with nextFrom := none }), bySite := ∅ }

variable {t : CallLedger}

theorem insert_unforwarded (t : CallLedger) (c : CallRecord) :
    t.unforwarded.insert c = ((t.insert c).1, (t.insert c).2.unforwarded) := by
  unfold insert unforwarded
  split <;> simp

theorem get_unforwarded (t : CallLedger) (i : Nat) : t.unforwarded.get i = t.get i := by
  unfold get unforwarded
  simp only [Array.getElem?_map, Array.size_map]
  cases t.entries[i]? <;> rfl

theorem link_unforwarded (t : CallLedger) (i : Nat) :
    t.unforwarded.link i false = (t.link i true).map unforwarded := by
  unfold link
  rw [get_unforwarded]
  cases t.get i with
  | error f => rfl
  | ok c =>
    refine congrArg Except.ok (CallLedger.mk.injEq .. |>.mpr ⟨?_, rfl, rfl, rfl⟩)
    refine Array.ext_getElem? fun j => ?_
    simp only [unforwarded, Array.getElem?_map, Array.getElem?_modify]
    split <;> cases t.entries[j]? <;> rfl

theorem follow_unforwarded (entries : Array LedgerEntry) (n : Nat) (i : Option Nat) :
    follow (entries.map ({ · with nextFrom := none })) (·.nextInto) n i =
      follow entries (·.nextInto) n i := by
  induction n generalizing i with
  | zero => rfl
  | succ n ih =>
    cases i with
    | none => rfl
    | some i =>
      unfold follow
      rw [Array.getElem?_map]
      cases entries[i]? with
      | none => rfl
      | some e => exact congrArg _ (ih _)

theorem callsInto_unforwarded (t : CallLedger) (e : FactId) (p : ProcId) :
    t.unforwarded.callsInto e p = t.callsInto e p := by
  unfold callsInto size unforwarded
  rw [Array.size_map]
  exact follow_unforwarded ..

/-- Lists of calls hold recorded calls only. -/
theorem mem_records_of_mem_callsInto {e : FactId} {p : ProcId} {c : CallRecord}
    (h : c ∈ t.callsInto e p) : c ∈ t.records := by
  suffices H : ∀ n i, c ∈ follow t.entries (·.nextInto) n i → c ∈ t.records from H _ _ h
  clear h
  intro n
  induction n with
  | zero => exact nofun
  | succ n ih =>
    intro i h
    cases i with
    | none => cases h
    | some i =>
      unfold follow at h
      cases he : t.entries[i]? with
      | none => simp [he] at h
      | some entry =>
        simp only [he, List.mem_cons] at h
        refine h.elim (fun heq => ?_) (ih _)
        exact Array.mem_map.2 ⟨entry, Array.mem_of_getElem? he, heq.symm⟩

end CallLedger

variable {D L K : Type} [Ord D] [Ord L] [Ord K]

/-- Forgets what only values need. -/
def State.erase (s : State D L K) : State D L K :=
  { s with answers := s.answers.flowsOnly, ledger := s.ledger.unforwarded }

/-- The analysis without values. -/
def Analysis.plain (A : Analysis D L K) : Analysis D L K :=
  { A with config := { A.config with computeValues := false } }

/-- Values are computed, but all edge functions are the identity, and nothing is collected. -/
structure Analysis.Bare (A : Analysis D L K) : Prop where
  computeValues : A.config.computeValues = true
  gcMode : A.config.gcMode = .disabled
  identity : ∀ e, A.EdgeOf e → e = .identity

/-- All labels and all remembered edge functions are the identity. -/
structure Unlabelled (s : State D L K) : Prop where
  paths : ∀ n a b ef, s.paths.get? n a b = some ef → ef = .identity
  queue : ∀ x ∈ s.queue.toList, x.edge = .identity
  summaries : ∀ p e x d ef, s.summaries.get? p e x d = some ef → ef = .identity
  records : ∀ c ∈ s.ledger.records, c.edge = .identity
  normalEdge : s.answers.normalEdges.Holds fun _ ef => ef = .identity
  callEdge : s.answers.callEdges.Holds fun _ ef => ef = .identity
  returnEdge : s.answers.returnEdges.Holds fun _ ef => ef = .identity
  bypassEdge : s.answers.bypassEdges.Holds fun _ ef => ef = .identity
  summaryEdge : s.answers.summaryEdges.Holds fun _ ef => ef = .identity

/-- On the erased state, `m` does what `m'` does. Labels stay the identity, and `Q` holds of the
result. -/
def Erases {α : Type} (m m' : SolverM D L K α) (t : State D L K) (Q : α → Prop) : Prop :=
  m.run t.erase = (m'.run t).map (Prod.map id State.erase) ∧
    ∀ a t', m'.run t = .ok (a, t') → Unlabelled t' ∧ Q a

namespace Erases

variable {α β : Type} {m m' : SolverM D L K α} {t : State D L K} {P Q : α → Prop}

theorem of_ok {a : α} {u : State D L K} (h' : m'.run t = .ok (a, u))
    (h : m.run t.erase = .ok (a, u.erase)) (hu : Unlabelled u) (ha : Q a) :
    Erases m m' t Q := by
  refine ⟨by rw [h, h']; rfl, fun b t' hrun => ?_⟩
  obtain ⟨rfl, rfl⟩ := Prod.mk.inj (Except.ok.inj (h'.symm.trans hrun))
  exact ⟨hu, ha⟩

theorem imp (h : Erases m m' t P) (hPQ : ∀ a, P a → Q a) : Erases m m' t Q :=
  ⟨h.1, fun a t' hrun => (h.2 a t' hrun).imp_right (hPQ a)⟩

theorem pure (ht : Unlabelled t) {a : α} (ha : Q a) : Erases (pure a) (pure a) t Q :=
  of_ok rfl rfl ht ha

theorem lift (ht : Unlabelled t) (x : Except Fault α) :
    Erases (liftM x) (liftM x) t fun a => x = .ok a := by
  cases x with
  | error f => exact ⟨rfl, nofun⟩
  | ok a => exact of_ok rfl rfl ht rfl

theorem bind {f f' : α → SolverM D L K β} {R : β → Prop} (h : Erases m m' t Q)
    (hf : ∀ a t', Unlabelled t' → Q a → Erases (f a) (f' a) t' R) :
    Erases (m >>= f) (m' >>= f') t R := by
  obtain ⟨heq, hkeep⟩ := h
  unfold Erases
  rw [StateT.run_bind, StateT.run_bind, heq]
  cases hrun : m'.run t with
  | error e => exact ⟨rfl, nofun⟩
  | ok r =>
    obtain ⟨ht', ha⟩ := hkeep r.1 r.2 hrun
    exact hf r.1 r.2 ht' ha

theorem get {f f' : State D L K → SolverM D L K β} {R : β → Prop}
    (h : Erases (f t.erase) (f' t) t R) : Erases (get >>= f) (get >>= f') t R := h

theorem modify {g : State D L K → State D L K} (hg : g t.erase = (g t).erase)
    (ht : Unlabelled (g t)) : Erases (modify g) (modify g) t fun _ => True :=
  of_ok rfl (congrArg (fun s => Except.ok (PUnit.unit, s)) hg) ht trivial

theorem ite {c : Prop} [Decidable c] {n n' : SolverM D L K α} (h : c → Erases m m' t Q)
    (h' : ¬ c → Erases n n' t Q) : Erases (if c then m else n) (if c then m' else n') t Q := by
  split
  · next hc => exact h hc
  · next hc => exact h' hc

theorem forM {l : List α} {f f' : α → SolverM D L K PUnit} (ht : Unlabelled t)
    (h : ∀ a ∈ l, ∀ t, Unlabelled t → Erases (f a) (f' a) t fun _ => True) :
    Erases (l.forM f) (l.forM f') t fun _ => True := by
  induction l generalizing t with
  | nil => exact .pure ht trivial
  | cons a l ih =>
    exact (h a List.mem_cons_self t ht).bind fun _ t' ht' _ =>
      ih ht' fun b hb => h b (List.mem_cons_of_mem a hb)

end Erases

namespace Solver

variable {t : State D L K}

/-! ## Names and flow functions -/

theorem nodeId_erases (ht : Unlabelled t) (x : String) :
    Erases (nodeId x) (nodeId x) t fun _ => True :=
  .get (.bind (.lift ht _) fun _ _ ht _ => .bind (.modify rfl { ht with }) fun _ _ ht _ =>
    .pure ht trivial)

theorem factId_erases (ht : Unlabelled t) (x : D) :
    Erases (factId x) (factId x) t fun _ => True :=
  .get (.bind (.lift ht _) fun _ _ ht _ => .bind (.modify rfl { ht with }) fun _ _ ht _ =>
    .pure ht trivial)

theorem procId_erases (ht : Unlabelled t) (x : String) :
    Erases (procId x) (procId x) t fun _ => True :=
  .get (.bind (.lift ht _) fun _ _ ht _ => .bind (.modify rfl { ht with }) fun _ _ ht _ =>
    .pure ht trivial)

theorem nodeName_erases (ht : Unlabelled t) (n : NodeId) :
    Erases (nodeName n) (nodeName n) t fun _ => True :=
  .get ((Erases.lift ht _).imp fun _ _ => trivial)

theorem factOf_erases (ht : Unlabelled t) (d : FactId) :
    Erases (factOf d) (factOf d) t fun _ => True :=
  .get ((Erases.lift ht _).imp fun _ _ => trivial)

theorem procName_erases (ht : Unlabelled t) (p : ProcId) :
    Erases (procName p) (procName p) t fun _ => True :=
  .get ((Erases.lift ht _).imp fun _ _ => trivial)

theorem targets_erases [DecidableEq D] (ht : Unlabelled t) (f : FlowFunction D) (d : D) :
    Erases (targets f d) (targets f d) t fun _ => True :=
  .get (.pure ht trivial)

/-- A flow function is asked for and remembered in the same way. -/
theorem askFlow_erases {α : Type} {ask : Answers D → α × Answers D}
    (hask : ask t.answers.flowsOnly = ((ask t.answers).1, (ask t.answers).2.flowsOnly))
    (ht : Unlabelled { t with answers := (ask t.answers).2 }) :
    Erases (askFlow ask) (askFlow ask) t fun _ => True := by
  refine .of_ok (a := (ask t.answers).1) rfl ?_ ht trivial
  show Except.ok ((ask t.answers.flowsOnly).1,
    { t.erase with answers := (ask t.answers.flowsOnly).2 }) = _
  rw [hask]
  rfl

/-! ## Edge functions -/

/-- Asking gives the identity, and changes nothing but what is remembered about edge functions. -/
def Indifferent (ask : Answers D → EdgeStore L K → EdgeRef × Answers D × EdgeStore L K)
    (t : State D L K) : Prop :=
  ∃ a, ask t.answers t.store = (.identity, a, t.store) ∧ a.flowsOnly = t.answers.flowsOnly ∧
    Unlabelled { t with answers := a }

theorem Indifferent.run_askEdge
    {ask : Answers D → EdgeStore L K → EdgeRef × Answers D × EdgeStore L K}
    (h : Indifferent ask t) :
    ∃ t', (askEdge ask).run t = .ok (.identity, t') ∧ t'.erase = t.erase ∧ Unlabelled t' := by
  obtain ⟨a, hask, hflows, hk⟩ := h
  refine ⟨{ t with answers := a }, ?_, ?_, hk⟩
  · unfold askEdge
    rw [run_get_seq, hask]
    rfl
  · unfold State.erase
    rw [hflows]

theorem reach_erases {A : Analysis D L K} (hA : A.Bare) (ht : Unlabelled t) (n : NodeId)
    (d : FactId) : Erases (reach A.plain n d) (reach A n d) t fun _ => True := by
  have hgc : ¬ A.config.gcMode.isAggressive = true := by rw [hA.gcMode]; exact nofun
  exact .get (.ite (fun _ => .pure ht trivial) fun _ => .ite (fun h => absurd h hgc) fun _ =>
    .bind (.pure (Q := fun _ => True) ht trivial) fun _ _ ht _ =>
      .ite (fun _ => .modify rfl { ht with }) fun _ => .pure ht trivial)

theorem summariesAt_erases {A : Analysis D L K} (ht : Unlabelled t) (p : ProcId) (e : FactId)
    (x : NodeId) : Erases (summariesAt A.plain p e x) (summariesAt A p e x) t
      fun l => ∀ y ∈ l, y.2 = .identity := by
  refine .get (.pure ht fun y hy => ?_)
  split at hy
  · exact ht.summaries p e x y.1 y.2 (SummaryTable.mem_leaving.1 hy)
  · exact ht.paths x e y.1 y.2 (PathTable.mem_targetsOf.1 hy)

/-- A call is linked without the list that only values need. -/
theorem link_erases {A : Analysis D L K} (hA : A.Bare) (ht : Unlabelled t) (i : Nat) :
    Erases (do
      let ledger ← (← get).ledger.link i A.plain.config.computeValues
      modify fun s => { s with ledger })
      (do
      let ledger ← (← get).ledger.link i A.config.computeValues
      modify fun s => { s with ledger }) t fun _ => True := by
  have hlink := CallLedger.link_unforwarded t.ledger i
  refine .get ?_
  rw [hA.computeValues, show t.erase.ledger.link i A.plain.config.computeValues = _ from hlink]
  cases hl : t.ledger.link i true with
  | error f => exact ⟨rfl, nofun⟩
  | ok ledger =>
    refine .of_ok (u := { t with ledger }) rfl rfl { ht with records := ?_ } trivial
    obtain ⟨c, hc, -⟩ := bind_eq_ok.1 hl
    rw [(CallLedger.link_records hl (CallLedger.get_eq_ok.1 hc)).1]
    exact ht.records

theorem endRound_erases [Payload K L] {A : Analysis D L K} (hA : A.Bare) (ht : Unlabelled t) :
    Erases (endRound A.plain) (endRound A) t fun _ => True := by
  have hgc : ¬ A.config.gcMode.isEnabled = true := by rw [hA.gcMode]; exact nofun
  have hcollect : Erases (collect A.plain) (collect A) t fun _ => True :=
    .ite (fun h => absurd h hgc) fun _ => .pure ht trivial
  exact hcollect.bind fun _ _ ht _ =>
    .get (.ite (fun _ => .modify rfl { ht with }) fun _ => .modify rfl { ht with })

/-- Before a run there is nothing to forget. -/
theorem create_erase {A : Analysis D L K} {s : State D L K} (h : create A = .ok s) :
    create A.plain = .ok s.erase ∧ Unlabelled s := by
  have hplain : create A.plain = .ok s := h
  simp only [create, bind_eq_ok, pure_eq_ok] at h
  obtain ⟨facts, -, procs, -, store, -, rfl⟩ := h
  refine ⟨hplain.trans (congrArg Except.ok ?_),
    ⟨fun n a b ef hef => ?_, fun x hx => ?_, fun p e x d ef hef => ?_, fun c hc => ?_, ?_, ?_, ?_,
      ?_, ?_⟩⟩
  · simp [State.erase, CallLedger.unforwarded, CallLedger.empty, Answers.flowsOnly, Answers.empty]
  · rw [PathTable.get?_empty] at hef
    cases hef
  · simp at hx
  · rw [SummaryTable.get?_empty] at hef
    cases hef
  · simp [CallLedger.records, CallLedger.empty] at hc
  all_goals exact Memo.holds_empty

variable [JoinLattice L] [DecidableEq L] [Payload K L]

theorem run_compose_identity (t : State D L K) :
    (compose .identity .identity).run t = .ok (.identity, t) := rfl

theorem run_joinEdges_identity (t : State D L K) :
    (joinEdges .identity .identity).run t = .ok (.identity, t) := rfl

/-- Asking for the identity stores nothing. -/
theorem getOrAskEdge_identity {κ : Type} [Ord κ] [Std.TransOrd κ] [Std.LawfulEqOrd κ]
    [DecidableEq κ] {m : Memo κ EdgeRef} (hm : m.Holds fun _ ef => ef = .identity) (key : κ)
    (st : EdgeStore L K) :
    ∃ isNew m', Answers.getOrAskEdge m key st (fun _ => .identity) = (.identity, isNew, m', st) ∧
      m'.Holds fun _ ef => ef = .identity := by
  unfold Answers.getOrAskEdge Memo.lookup
  cases hk : m.table[key]? with
  | some ef =>
    obtain rfl := hm key ef hk
    exact ⟨false, _, rfl, hm⟩
  | none =>
    exact ⟨true, _, rfl, Memo.Holds.insert (m := { m with misses := m.misses + 1 }) hm rfl⟩

/-- The five kinds of edge functions differ only in the table in which they are remembered. -/
theorem indifferent_of_memo {ask : Answers D → EdgeStore L K → EdgeRef × Answers D × EdgeStore L K}
    {κ : Type} [Ord κ] [Std.TransOrd κ] [Std.LawfulEqOrd κ] [DecidableEq κ] {key : κ}
    {e : EdgeFunction L K} {memo : Answers D → Memo κ EdgeRef}
    (update : Answers D → Bool → Memo κ EdgeRef → Answers D)
    (hmemo : (memo t.answers).Holds fun _ ef => ef = .identity) (he : e = .identity)
    (hask : ∀ a st, ask a st =
      let (ef, isNew, m, st) := Answers.getOrAskEdge (memo a) key st fun _ => e
      (ef, update a isNew m, st))
    (hflows : ∀ isNew m, (update t.answers isNew m).flowsOnly = t.answers.flowsOnly)
    (hkeep : ∀ isNew m, m.Holds (fun _ ef => ef = .identity) →
      Unlabelled { t with answers := update t.answers isNew m }) : Indifferent ask t := by
  obtain ⟨isNew, m, hget, hm⟩ := getOrAskEdge_identity hmemo key t.store
  refine ⟨update t.answers isNew m, ?_, hflows isNew m, hkeep isNew m hm⟩
  rw [hask, he, hget]

section Questions

variable {A : Analysis D L K} (hA : A.Bare) (ht : Unlabelled t)
include hA ht

theorem indifferent_normalEdge (x : String) (i : D) (y : String) (j : D) (key : UInt64 × UInt64) :
    Indifferent (fun a st => a.normalEdge A.problem st x i y j key) t :=
  indifferent_of_memo (fun a isNew memo => { a with
      normalEdges := memo, questions := (.normalEdge x i y j, isNew) :: a.questions })
    ht.normalEdge (hA.identity _ (.normal ..)) (fun _ _ => rfl) (fun _ _ => rfl)
    fun _ _ hm => { ht with normalEdge := hm }

theorem indifferent_callEdge (x : String) (i : D) (q : String) (j : D) (key : UInt64 × UInt64) :
    Indifferent (fun a st => a.callEdge A.problem st x i q j key) t :=
  indifferent_of_memo (fun a isNew memo => { a with
      callEdges := memo, questions := (.callEdge x i q j, isNew) :: a.questions })
    ht.callEdge (hA.identity _ (.call ..)) (fun _ _ => rfl) (fun _ _ => rfl)
    fun _ _ hm => { ht with callEdge := hm }

theorem indifferent_returnEdge (x q z : String) (i : D) (y : String) (j : D)
    (key : UInt64 × NodeId × UInt64) :
    Indifferent (fun a st => a.returnEdge A.problem st x q z i y j key) t :=
  indifferent_of_memo (fun a isNew memo => { a with
      returnEdges := memo, questions := (.returnEdge x q z i y j, isNew) :: a.questions })
    ht.returnEdge (hA.identity _ (.ret ..)) (fun _ _ => rfl) (fun _ _ => rfl)
    fun _ _ hm => { ht with returnEdge := hm }

theorem indifferent_bypassEdge (x : String) (i : D) (y : String) (j : D) (ps : List String)
    (key : UInt64 × UInt64) :
    Indifferent (fun a st => a.bypassEdge A.problem st x i y j ps key) t :=
  indifferent_of_memo (fun a isNew memo => { a with
      bypassEdges := memo, questions := (.bypassEdge x i y j ps, isNew) :: a.questions })
    ht.bypassEdge (hA.identity _ (.bypass ..)) (fun _ _ => rfl) (fun _ _ => rfl)
    fun _ _ hm => { ht with bypassEdge := hm }

theorem indifferent_summaryEdge (x : String) (i : D) (y : String) (j : D) (key : UInt64 × UInt64) :
    Indifferent (fun a st => a.summaryEdge A.problem st x i y j key) t :=
  indifferent_of_memo (fun a isNew memo => { a with
      summaryEdges := memo, questions := (.summaryEdge x i y j, isNew) :: a.questions })
    ht.summaryEdge (hA.identity _ (.summary ..)) (fun _ _ => rfl) (fun _ _ => rfl)
    fun _ _ hm => { ht with summaryEdge := hm }

end Questions

variable {A : Analysis D L K}
  {ask : Answers D → EdgeStore L K → EdgeRef × Answers D × EdgeStore L K}

theorem composeWith_erases (hA : A.Bare) (hask : Indifferent ask t) :
    Erases (composeWith A.plain .identity ask) (composeWith A .identity ask) t (· = .identity) := by
  obtain ⟨t', hrun, herase, hk⟩ := hask.run_askEdge
  refine .of_ok (u := t') ?_ ?_ hk rfl
  · rw [composeWith, if_pos hA.computeValues, run_seq hrun, run_compose_identity]
  · rw [herase]
    rfl

theorem composeReturn_erases (hA : A.Bare) (hask : Indifferent ask t) :
    Erases (composeReturn A.plain .identity .identity ask)
      (composeReturn A .identity .identity ask) t (· = .identity) := by
  obtain ⟨t', hrun, herase, hk⟩ := hask.run_askEdge
  refine .of_ok (u := t') ?_ ?_ hk rfl
  · rw [composeReturn, if_pos hA.computeValues, run_seq hrun, run_seq (run_compose_identity t'),
      run_compose_identity]
  · rw [herase]
    rfl

/-! ## Recording -/

theorem merge_erases (hA : A.Bare) (ht : Unlabelled t) {old : Option EdgeRef}
    (hold : ∀ o, old = some o → o = .identity) :
    Erases (merge A.plain old .identity) (merge A old .identity) t
      fun r => ∀ ef, r = some ef → ef = .identity := by
  cases old with
  | none => exact .pure ht fun _ h => (Option.some.inj h).symm
  | some o =>
    obtain rfl := hold o rfl
    refine .of_ok (a := none) (u := t) ?_ rfl ht nofun
    rw [merge, if_pos hA.computeValues, run_seq (run_joinEdges_identity t)]
    rfl

theorem record_erases (hA : A.Bare) (ht : Unlabelled t) (n : NodeId) (a b : FactId) (p : ProcId) :
    Erases (record A.plain n a b p .identity) (record A n a b p .identity) t fun _ => True := by
  have hgc : ¬ A.config.gcMode.isEnabled = true := by rw [hA.gcMode]; exact nofun
  have hpush : ∀ {s : State D L K}, Unlabelled s →
      ∀ x ∈ (s.queue.push ⟨n, a, b, .identity⟩).toList, x.edge = .identity := fun hs x hx => by
    rw [Worklist.toList_push, List.mem_append, List.mem_singleton] at hx
    exact hx.elim (hs.queue x) fun hx => congrArg _ hx
  unfold record
  rw [ite_self, ite_self]
  refine .get (.bind (merge_erases hA ht fun o ho => ht.paths n a b o ho) fun r t ht hr => ?_)
  cases r with
  | none => exact .pure ht trivial
  | some ef =>
    obtain rfl := hr ef rfl
    have hpaths : ∀ n' a' b' ef, (t.paths.insert n a b .identity).2.get? n' a' b' = some ef →
        ef = .identity := fun n' a' b' ef hef => by
      rw [PathTable.get?_insert] at hef
      split at hef
      · exact (Option.some.inj hef).symm
      · exact ht.paths n' a' b' ef hef
    refine .bind (.modify rfl { ht with paths := hpaths }) fun _ t ht _ =>
      .ite (fun _ => ?_) fun _ => ?_
    · exact .bind (.modify rfl { ht with }) fun _ _ ht _ => .bind (reach_erases hA ht n b)
        fun _ _ ht _ => .bind (.modify rfl { ht with queue := hpush ht }) fun _ _ ht _ =>
          .ite (fun h => absurd h hgc) fun _ => .pure ht trivial
    · exact .bind (.modify rfl { ht with queue := hpush ht }) fun _ _ ht _ =>
        .ite (fun h => absurd h hgc) fun _ => .pure ht trivial

theorem recordSummary_erases (hA : A.Bare) (ht : Unlabelled t) {job : PathEdge}
    (hjob : job.edge = .identity) (p : ProcId) :
    Erases (recordSummary A.plain job p) (recordSummary A job p) t fun _ => True := by
  refine .bind (.modify rfl { ht with }) fun _ t ht _ => .ite (fun _ => .get ?_) fun _ =>
    .pure ht trivial
  rw [hjob, show t.erase.summaries = t.summaries from rfl]
  cases hold : t.summaries.get? p job.source job.node job.target with
  | none =>
    refine .modify rfl { ht with summaries := fun q e x d ef hef => ?_ }
    change (t.summaries.insert p _ _ _ _).2.get? q e x d = some ef at hef
    rw [SummaryTable.get?_insert] at hef
    split at hef
    · exact (Option.some.inj hef).symm
    · exact ht.summaries q e x d ef hef
  | some old =>
    -- The join with the old label is the old label.
    obtain rfl := ht.summaries _ _ _ _ old hold
    refine .of_ok (u := t) ?_ rfl ht trivial
    simp only [if_pos hA.computeValues]
    rw [run_seq (run_joinEdges_identity t), if_neg (by simp)]
    rfl

theorem submitSeed_erases (hA : A.Bare) (ht : Unlabelled t) (sp : String) (d : D) (v : L) :
    Erases (submitSeed A.plain sp d v) (submitSeed A sp d v) t fun _ => True :=
  .bind (nodeId_erases ht sp) fun n _ ht _ => .bind (factId_erases ht d) fun i _ ht _ =>
    .bind (.lift ht _) fun proc _ ht _ => .bind (procId_erases ht proc) fun p _ ht _ =>
    .bind (.modify rfl { ht with }) fun _ _ ht _ => record_erases hA ht n i i p

theorem begin_erases (hA : A.Bare) (ht : Unlabelled t) :
    Erases (begin A.plain) (begin A) t fun _ => True :=
  .bind (.forM ht fun x _ _ ht => submitSeed_erases hA ht x.1 x.2.1 x.2.2) fun _ _ ht _ =>
    .modify rfl { ht with }

/-! ## Propagation -/

variable [DecidableEq D]

theorem spread_erases (hA : A.Bare) (ht : Unlabelled t) {job : PathEdge}
    (hjob : job.edge = .identity) (p : ProcId) (d : D) (dest : NodeId) (flow : FlowFunction D)
    {ask : D → UInt64 → Answers D → EdgeStore L K → EdgeRef × Answers D × EdgeStore L K}
    (hask : ∀ target facts t, Unlabelled t → Indifferent (ask target facts) t) :
    Erases (spread A.plain job p d dest flow ask) (spread A job p d dest flow ask) t
      fun _ => True := by
  refine .bind (targets_erases ht flow d) fun ds t ht _ => .forM ht fun target _ t ht => ?_
  refine .bind (factId_erases ht target) fun i t ht _ => ?_
  rw [hjob]
  refine .bind (composeWith_erases hA (hask _ _ t ht)) fun ef t ht hef => ?_
  subst hef
  exact record_erases hA ht ..

theorem propagateNormal_erases (hA : A.Bare) (ht : Unlabelled t) {job : PathEdge}
    (hjob : job.edge = .identity) (node : String) (p : ProcId) :
    Erases (propagateNormal A.plain job node p) (propagateNormal A job node p) t fun _ => True := by
  refine .bind (factOf_erases ht _) fun d t ht _ => .bind (.lift ht _) fun succs t ht _ =>
    .bind (.forM ht fun succ _ t ht => ?_) fun _ t ht _ => .bind (.lift ht _) fun _ t ht _ =>
      .ite (fun _ => recordSummary_erases hA ht hjob p) fun _ => .pure ht trivial
  exact .bind (nodeId_erases ht succ) fun n t ht _ => .bind (askFlow_erases rfl { ht with })
    fun flow t ht _ => spread_erases hA ht hjob p d n flow fun target facts t ht =>
      indifferent_normalEdge hA ht ..

/-! ## Returns -/

theorem applySummaries_erases (hA : A.Bare) (ht : Unlabelled t) {c : CallRecord}
    (hc : c.edge = .identity) (exit : String) (x : NodeId) {summaries : List (FactId × EdgeRef)}
    (hs : ∀ y ∈ summaries, y.2 = .identity) :
    Erases (applySummaries A.plain c exit x summaries) (applySummaries A c exit x summaries) t
      fun _ => True := by
  refine .bind (nodeName_erases ht _) fun site t ht _ => .bind (procName_erases ht _)
    fun callee t ht _ => .bind (.lift ht _) fun caller t ht _ => .bind (procId_erases ht _)
    fun p t ht _ => .bind (.lift ht _) fun rets t ht _ => .forM ht fun ret _ t ht =>
    .bind (nodeId_erases ht _) fun r t ht _ => .bind (askFlow_erases rfl { ht with })
    fun flow t ht _ => .forM ht fun y hy t ht => ?_
  obtain ⟨i, ef⟩ := y
  obtain rfl := hs _ hy
  refine .bind (factOf_erases ht _) fun d t ht _ => .bind (targets_erases ht flow d)
    fun ds t ht _ => .forM ht fun target _ t ht => .bind (factId_erases ht target)
    fun j t ht _ => ?_
  rw [hc]
  refine .bind (composeReturn_erases hA (indifferent_returnEdge hA ht ..)) fun ef t ht hef => ?_
  subst hef
  exact record_erases hA ht ..

theorem applyKnownSummaries_erases (hA : A.Bare) (ht : Unlabelled t) {c : CallRecord}
    (hc : c.edge = .identity) (callee : String) :
    Erases (applyKnownSummaries A.plain c callee) (applyKnownSummaries A c callee) t
      fun _ => True :=
  .bind (.lift ht _) fun _ _ ht _ => .forM ht fun exit _ _ ht => .bind (nodeId_erases ht exit)
    fun x _ ht _ => .bind (summariesAt_erases ht ..) fun _ _ ht hs =>
      .ite (fun _ => .pure ht trivial) fun _ => applySummaries_erases hA ht hc exit x hs

/-! ## Calls -/

theorem recordCall_erases (hA : A.Bare) (ht : Unlabelled t) {c : CallRecord}
    (hc : c.edge = .identity) (callee : String) :
    Erases (recordCall A.plain c callee) (recordCall A c callee) t fun _ => True := by
  have hrecords : ∀ c' ∈ (t.ledger.insert c).2.records, c'.edge = .identity := fun c' hc' => by
    by_cases hmem : c ∈ t.ledger
    · rw [CallLedger.insert_of_mem hmem] at hc'
      exact ht.records c' hc'
    · rw [CallLedger.records_insert hmem, Array.mem_push] at hc'
      exact hc'.elim (ht.records c') fun heq => heq ▸ hc
  refine .get ?_
  rw [show t.erase.ledger.insert c = _ from CallLedger.insert_unforwarded t.ledger c]
  generalize t.ledger.insert c = inserted at hrecords ⊢
  obtain ⟨position, ledger⟩ := inserted
  have hinsert : Erases (modify fun s => { s with ledger := ledger.unforwarded })
      (modify fun s => { s with ledger }) t fun _ => True :=
    .of_ok rfl rfl { ht with records := hrecords } trivial
  refine hinsert.bind fun _ t' ht _ => ?_
  cases position with
  | none => exact .modify rfl { ht with }
  | some i =>
    exact .bind (.modify rfl { ht with }) fun _ _ ht _ =>
      .bind (applyKnownSummaries_erases hA ht hc callee) fun _ _ ht _ => link_erases hA ht i

theorem enterCallee_erases (hA : A.Bare) (ht : Unlabelled t) {job : PathEdge}
    (hjob : job.edge = .identity) (site : String) (d : D) (callee : String) (q : ProcId)
    (key : UInt64) :
    Erases (enterCallee A.plain job site d callee q key) (enterCallee A job site d callee q key) t
      fun _ => True := by
  refine .bind (.lift ht _) fun starts t ht _ => .ite (fun _ => .pure ht trivial) fun _ =>
    .bind (askFlow_erases rfl { ht with }) fun flow t ht _ => .bind (targets_erases ht flow d)
    fun ds t ht _ => .forM ht fun entry _ t ht => .bind (factId_erases ht entry) fun i t ht _ => ?_
  rw [hjob]
  refine .bind (composeWith_erases hA (indifferent_callEdge hA ht ..)) fun ef t ht hef => ?_
  refine .bind (.forM ht fun start _ t ht => ?_) fun _ t ht _ => recordCall_erases hA ht hef callee
  exact .bind (nodeId_erases ht start) fun n t ht _ => record_erases hA ht ..

theorem propagateCall_erases (hA : A.Bare) (ht : Unlabelled t) {job : PathEdge}
    (hjob : job.edge = .identity) (site : String) (p : ProcId) :
    Erases (propagateCall A.plain job site p) (propagateCall A job site p) t fun _ => True := by
  refine .bind (factOf_erases ht _) fun d t ht _ => .bind (.lift ht _) fun callees t ht _ =>
    .bind (.lift ht _) fun rets t ht _ => .bind (.forM ht fun ret _ t ht => ?_) fun _ t ht _ =>
      .forM ht fun callee _ t ht => ?_
  · exact .bind (nodeId_erases ht ret) fun n t ht _ => .bind (askFlow_erases rfl { ht with })
      fun flow t ht _ => spread_erases hA ht hjob p d n flow fun target facts t ht =>
        indifferent_bypassEdge hA ht ..
  · refine .bind (procId_erases ht callee) fun q t ht _ => .bind (askFlow_erases rfl { ht with })
      fun flow? t ht _ => ?_
    cases flow? with
    | none => exact enterCallee_erases hA ht hjob ..
    | some flow =>
      exact .forM ht fun ret _ t ht => .bind (nodeId_erases ht ret) fun n t ht _ =>
        spread_erases hA ht hjob p d n flow fun target facts t ht =>
          indifferent_summaryEdge hA ht ..

theorem propagate_erases (hA : A.Bare) (ht : Unlabelled t) {job : PathEdge}
    (hjob : job.edge = .identity) :
    Erases (propagate A.plain job) (propagate A job) t fun _ => True := by
  have hgc : ¬ A.config.gcMode.isEnabled = true := by rw [hA.gcMode]; exact nofun
  refine .bind (nodeName_erases ht _) fun node t ht _ => .bind (.lift ht _) fun proc t ht _ =>
    .bind (procId_erases ht proc) fun p t ht _ => .ite (fun h => absurd h hgc) fun _ =>
      .bind (.lift ht _) fun _ t ht _ => .ite (fun _ => propagateCall_erases hA ht hjob node p)
        fun _ => propagateNormal_erases hA ht hjob node p

theorem replay_erases (hA : A.Bare) (ht : Unlabelled t) (key : UInt64) :
    Erases (replay A.plain key) (replay A key) t fun _ => True := by
  refine .bind (procName_erases ht _) fun name t ht _ => .bind (.lift ht _) fun exits t ht _ =>
    .forM ht fun exit _ t ht => .bind (nodeId_erases ht exit) fun x t ht _ =>
    .bind (summariesAt_erases ht ..) fun summaries t ht hs => .ite (fun _ => .pure ht trivial)
    fun _ => .get ?_
  rw [show t.erase.ledger.callsInto _ _ = _ from CallLedger.callsInto_unforwarded ..]
  exact .forM ht fun c hc t' ht' => applySummaries_erases hA ht'
    (ht.records c (CallLedger.mem_records_of_mem_callsInto hc)) exit x hs

/-! ## Rounds -/

theorem step_erases (hA : A.Bare) (ht : Unlabelled t) :
    Erases (step A.plain) (step A) t fun _ => True := by
  refine .get ?_
  rw [show t.erase.stage = t.stage from rfl, show t.erase.queue = t.queue from rfl]
  split
  · exact begin_erases hA ht
  · split
    · next job queue hpop =>
      have hperm := Worklist.pop?_perm hpop
      have hrest : Unlabelled { t with queue } :=
        { ht with queue := fun x hx => ht.queue x (hperm.mem_iff.2 (List.mem_cons_of_mem _ hx)) }
      have hset : Erases (set { t.erase with queue }) (set { t with queue }) t fun _ => True :=
        .of_ok rfl rfl hrest trivial
      exact hset.bind fun _ _ ht' _ =>
        propagate_erases hA ht' (ht.queue job (hperm.mem_iff.2 List.mem_cons_self))
    · exact .modify rfl { ht with }
  · next key keys _ =>
    have hset : Erases (set { t.erase with stage := .replay keys })
        (set { t with stage := .replay keys }) t fun _ => True :=
      .of_ok rfl rfl { ht with } trivial
    exact hset.bind fun _ _ ht _ => replay_erases hA ht key
  · exact endRound_erases hA ht
  · exact .pure ht trivial

/-- Without values, a run goes through the same states but for what only values need. -/
theorem run_erase (hA : A.Bare) (ht : Unlabelled t) (n : Nat) :
    run A.plain n t.erase = (run A n t).map State.erase ∧
      ∀ t', run A n t = .ok t' → Unlabelled t' := by
  induction n generalizing t with
  | zero =>
    unfold run
    rw [show t.erase.stage = t.stage from rfl]
    split
    · exact ⟨rfl, fun t' h => Except.ok.inj h ▸ ht⟩
    · exact ⟨rfl, fun t' h => by cases h⟩
  | succ n ih =>
    unfold run
    rw [show t.erase.stage = t.stage from rfl]
    split
    · exact ⟨rfl, fun t' h => Except.ok.inj h ▸ ht⟩
    · obtain ⟨heq, hkeep⟩ := step_erases hA ht
      rw [heq]
      cases hstep : (step A).run t with
      | error f => exact ⟨rfl, fun t' h => by cases h⟩
      | ok r => exact ih (hkeep r.1 r.2 hstep).1

/-! ## The end of the run -/

/-- All labels are the identity, and a run without values has the same path edges. -/
theorem Ends.plain {n n' : Nat} {s s' : State D L K} (hA : A.Bare) (h : Ends A n s)
    (h' : Ends A.plain n' s') :
    (s'.nodes = s.nodes ∧ s'.facts = s.facts ∧ s'.paths = s.paths) ∧
      (∀ m a b ef, s.paths.get? m a b = some ef → ef = .identity) ∧
      ∀ c ∈ s.ledger.records, c.edge = .identity := by
  obtain ⟨s₀, s₁, u, h₀, h₁, hdrop⟩ := h
  obtain ⟨s₀', s₁', u', h₀', h₁', hdrop'⟩ := h'
  obtain ⟨hcreate, hinit⟩ := create_erase h₀
  obtain rfl := Except.ok.inj (hcreate.symm.trans h₀')
  obtain ⟨heq, hkeep⟩ := run_erase hA hinit n
  rw [h₁] at heq
  -- Both runs end in time if they are given the time of both.
  have hboth := (run_add heq n').symm.trans (Nat.add_comm n' n ▸ run_add h₁' n)
  obtain rfl := Except.ok.inj hboth
  obtain ⟨_, _, _, rfl⟩ := dropPending_frame hdrop
  obtain ⟨_, _, _, rfl⟩ := dropPending_frame hdrop'
  have hs₁ := hkeep s₁ h₁
  exact ⟨⟨rfl, rfl, rfl⟩, hs₁.paths, hs₁.records⟩

end Solver

end Tabulation
