import Tabulation.Proofs.Solver.KeptNodes
import Tabulation.Proofs.Solver.MirrorPropagate

/-!
# Calls and returns side by side

Calls that enter a procedure and summaries that leave it do the same in two states that mirror each
other. Both only touch nodes that keep their path edges: start points, exit points and return sites.
-/

namespace Tabulation

variable {D L K : Type} [Ord D] [Ord L] [Ord K] [JoinLattice L] [Payload K L] {A : Analysis D L K}
  {m : GcMode} {w : Slack} {s t : State D L K}

theorem Spared.of_boundary (hA : Comparable A) {n : NodeId} {x : String} (hx : t.HasNode n x)
    (hknown : A.graph.Known x) (hb : A.graph.Boundary x) : Spared A m t n :=
  ⟨x, hx, Solver.keepAt_of_boundary (A := A.withGc m) hA.graph hknown hb false⟩

/-- What two lists of facts with labels have in common. -/
abbrev LeavingAlike (A : Analysis D L K) (st' st : EdgeStore L K)
    (l' l : List (FactId × EdgeRef)) : Prop :=
  List.Forall₂ (fun y z => y.1 = z.1 ∧ Alike A st' st y.2 z.2) l' l

variable [DecidableEq L]

/-! ## The ledgers -/

/-- The ledgers changed on both sides. -/
theorem Mirrors.withLedgers (h : Mirrors A m w s t) {l' l : CallLedger}
    (hrecords : List.Forall₂ (CallAlike A s.store t.store) l'.records.toList l.records.toList)
    (hl' : l'.Wf) (hl : l.Wf)
    (hcalls : ∀ c ∈ l.records.toList, CallPlaced A t c)
    (hinto : ∀ e p, ∀ c ∈ l.callsInto e p, c ∈ l.records.toList ∧ c.callee = p)
    (hwaiting : ∀ e p, List.Forall₂ (CallAlike A s.store t.store) (l'.callsInto e p)
      (l.callsInto e p) ∨ w.asleep p e)
    (hforwarding : ∀ a n, List.Forall₂ (CallAlike A s.store t.store) (l'.callsFrom a n)
      (l.callsFrom a n)) :
    Advances A m w s t { s with ledger := l' } { t with ledger := l } :=
  ⟨{ h with
    base' := h.base'.congr rfl rfl rfl rfl rfl
    base := h.base.congr rfl rfl rfl rfl rfl
    records := hrecords
    ledger' := hl'
    ledger := hl
    calls := hcalls
    into := hinto
    waiting := hwaiting
    forwarding := hforwarding }, { State.Grows.refl s with }, { State.Grows.refl t with }⟩

/-- A call is known on one side if and only if it is on the other. -/
theorem Mirrors.mem_ledger_iff (h : Mirrors A m w s t) {c' c : CallRecord}
    (hc : CallAlike A s.store t.store c' c) : c' ∈ s.ledger ↔ c ∈ t.ledger := by
  have hunique : Relator.BiUnique (CallAlike A s.store t.store) :=
    ⟨fun _ _ _ ha hb => (ha.eq_iff h.neat hb).2 rfl, fun _ _ _ hb hc => (hb.eq_iff h.neat hc).1 rfl⟩
  rw [h.ledger'.known c', h.ledger.known c]
  exact List.rel_mem hunique hc h.records

/-- A call was recorded on both sides. -/
theorem Mirrors.withCall (h : Mirrors A m w s t) {c' c : CallRecord}
    (hc : CallAlike A s.store t.store c' c) (hplaced : CallPlaced A t c) :
    Advances A m w s t { s with ledger := (s.ledger.insert c').2 }
      { t with ledger := (t.ledger.insert c).2 } := by
  by_cases hmem : c ∈ t.ledger
  · rw [CallLedger.insert_of_mem hmem, CallLedger.insert_of_mem ((h.mem_ledger_iff hc).2 hmem)]
    exact .refl h
  have hmem' := mt (h.mem_ledger_iff hc).1 hmem
  have hrow : (t.ledger.insert c).2.records.toList = t.ledger.records.toList ++ [c] := by
    rw [CallLedger.records_insert hmem, Array.toList_push]
  refine h.withLedgers ?_ (h.ledger'.insert c') (h.ledger.insert c) (fun d hd => ?_)
    (fun e p d hd => ?_) (fun e p => ?_) fun a n => ?_
  · rw [hrow, CallLedger.records_insert hmem', Array.toList_push]
    exact List.rel_append h.records (.cons hc .nil)
  · rw [hrow, List.mem_append, List.mem_singleton] at hd
    rcases hd with hd | rfl
    · exact h.calls d hd
    · exact hplaced
  · rw [CallLedger.callsInto_insert h.ledger.toThreaded] at hd
    rw [hrow]
    exact (h.into e p d hd).imp_left fun hd => List.mem_append_left _ hd
  · rw [CallLedger.callsInto_insert h.ledger'.toThreaded,
      CallLedger.callsInto_insert h.ledger.toThreaded]
    exact h.waiting e p
  · rw [CallLedger.callsFrom_insert h.ledger'.toThreaded,
      CallLedger.callsFrom_insert h.ledger.toThreaded]
    exact h.forwarding a n

/-- The call at a position waits for summaries on both sides. -/
theorem Mirrors.withLink (h : Mirrors A m w s t) {i : Nat} {forward : Bool} {d : CallRecord}
    (hfree' : s.ledger.Linkable i) (hfree : t.ledger.Linkable i)
    (hd : t.ledger.records[i]? = some d) :
    ∃ l' l, s.ledger.link i forward = .ok l' ∧ t.ledger.link i forward = .ok l ∧
      Advances A m w s t { s with ledger := l' } { t with ledger := l } := by
  obtain ⟨l, hlink⟩ := CallLedger.link_total forward hd
  obtain ⟨d', hd', hdd⟩ := forall₂_getElem? h.records (b := d) (i := i) (by simpa using hd)
  replace hd' : s.ledger.records[i]? = some d' := by simpa using hd'
  obtain ⟨l', hlink'⟩ := CallLedger.link_total forward hd'
  refine ⟨l', l, hlink', hlink, ?_⟩
  have hrecords := (CallLedger.link_records hlink hd).1
  have hrecords' := (CallLedger.link_records hlink' hd').1
  have hinto := CallLedger.callsInto_link hlink hd hfree
  have hinto' := CallLedger.callsInto_link hlink' hd' hfree'
  have hfrom := CallLedger.callsFrom_link hlink hd hfree
  have hfrom' := CallLedger.callsFrom_link hlink' hd' hfree'
  obtain ⟨e', rfl, he⟩ := hdd
  refine h.withLedgers ?_ (h.ledger'.link hlink' hd' hfree') (h.ledger.link hlink hd hfree)
    (fun c hc => h.calls c (hrecords ▸ hc)) (fun e p c hc => ?_) (fun e p => ?_) fun a n => ?_
  · rw [hrecords, hrecords']
    exact h.records
  · rw [hinto] at hc
    rw [hrecords]
    split at hc
    · next hkey =>
      rcases List.mem_cons.1 hc with rfl | hc
      · exact ⟨List.mem_of_getElem? (by simpa using hd), hkey.2⟩
      · exact h.into e p c hc
    · exact h.into e p c hc
  · rw [hinto, hinto']
    refine (h.waiting e p).imp_left fun hl => ?_
    by_cases hkey : d.entry = e ∧ d.callee = p
    · rw [if_pos hkey, if_pos hkey]
      exact .cons ⟨e', rfl, he⟩ hl
    · rw [if_neg hkey, if_neg hkey]
      exact hl
  · rw [hfrom, hfrom']
    have hl := h.forwarding a n
    by_cases hkey : forward = true ∧ d.source = a ∧ d.site = n
    · rw [if_pos hkey, if_pos hkey]
      exact .cons ⟨e', rfl, he⟩ hl
    · rw [if_neg hkey, if_neg hkey]
      exact hl

namespace Solver

/-! ## Returns -/

/-- Nothing is lost at exit points. -/
theorem summariesAt_follows (hA : Comparable A) (h : Mirrors A m w s t) {p : ProcId} {e : FactId}
    {x : NodeId} {exit callee : String} (hx : t.HasNode x exit)
    (hexit : A.graph.ExitOf callee exit) :
    Follows (summariesAt (A.withGc m) p e x) s (summariesAt A p e x) t fun l' l s' t' =>
      LeavingAlike A s.store t.store l' l ∧ s = s' ∧ t = t' := by
  refine .get_seq (.pure ⟨?_, rfl, rfl⟩)
  obtain ⟨hproc, hisExit⟩ := (Supergraph.exitOf_iff hA.graph).1 hexit
  have hkept : Spared A m t x :=
    .of_boundary hA hx (Supergraph.known_of_procOf hproc) (.inl hisExit)
  by_cases hu : A.config.useSummaryTable = true
  · rw [if_pos hu, if_pos (show (A.withGc m).config.useSummaryTable = true from hu)]
    exact SummaryTable.leaving_rel (fun x d => h.summaries p e x d) x
  · rw [if_neg hu, if_neg (show ¬ (A.withGc m).config.useSummaryTable = true from hu)]
    refine PathTable.targetsOf_rel (fun a b => ?_) e
    exact (h.paths x a b).resolve_right fun hlost => hkept.not_lost hlost.2

/-- A loop over the exit points of a procedure that looks at the summaries at each of them. -/
theorem forExits_follows (hA : Comparable A) (h : Mirrors A m w s t) {p : ProcId} {e : FactId}
    {callee : String} {exits : List String} (hexits : A.graph.exitPoints callee = .ok exits)
    {apply' apply : String → NodeId → List (FactId × EdgeRef) → SolverM D L K Unit}
    (happly : ∀ exit x l' l s₁ t₁, Advances A m w s t s₁ t₁ → t₁.HasNode x exit →
      A.graph.ExitOf callee exit → LeavingAlike A s₁.store t₁.store l' l →
      Follows (apply' exit x l') s₁ (apply exit x l) t₁
        fun _ _ s' t' => Advances A m w s₁ t₁ s' t') :
    Follows (exits.forM fun exit => do
        let exitId ← nodeId exit
        let summaries ← summariesAt (A.withGc m) p e exitId
        unless summaries.isEmpty do
          apply' exit exitId summaries) s
      (exits.forM fun exit => do
        let exitId ← nodeId exit
        let summaries ← summariesAt A p e exitId
        unless summaries.isEmpty do
          apply exit exitId summaries) t
      fun _ _ s' t' => Advances A m w s t s' t' := by
  refine Follows.forM_same (fun s' t' => Advances A m w s t s' t') (.refl h) ?_
  intro exit hexit s₁ t₁ hadv
  refine (nodeId_follows hadv.mirrors exit).seq ?_
  rintro x _ s₂ t₂ ⟨rfl, hx, hadv₂⟩
  replace hadv₂ := hadv.trans hadv₂
  refine (summariesAt_follows hA hadv₂.mirrors hx ⟨exits, hexits, hexit⟩).seq ?_
  rintro l' l _ _ ⟨hl, rfl, rfl⟩
  cases hl with
  | nil => exact .pure hadv₂
  | cons hy hl =>
    exact (happly exit x _ _ s₂ t₂ hadv₂ hx ⟨exits, hexits, hexit⟩ (.cons hy hl)).imp
      fun _ _ _ _ hadv₃ => hadv₂.trans hadv₃

variable [Std.TransOrd D] [Std.LawfulEqOrd D]

/-- A fact at an exit point is taken back to a return site. -/
theorem returnTo_follows (hA : Comparable A) (hm : m.isEnabled = true) (h : Mirrors A m w s t)
    {call' call summary' summary : EdgeRef} {a d : FactId} {p : ProcId} {site exitId n : NodeId}
    {siteName callee exit ret : String} {fact : D} {ds : List D}
    (hcall : Alike A s.store t.store call' call)
    (hsummary : Alike A s.store t.store summary' summary) (hsite : t.HasNode site siteName)
    (hx : t.HasNode exitId exit) (hn : t.HasNode n ret) (hexit : A.graph.ExitOf callee exit)
    (hd : t.HasFact d fact) (hp : InProc A t n p) (hkept : Spared A m t n) :
    Follows (ds.forM fun target => do
        let targetId ← factId target
        let ef ← composeReturn (A.withGc m) call' summary' fun a s =>
          a.returnEdge (A.withGc m).problem s siteName callee exit fact ret target
            (pack site.val exitId.val, n, factPair d targetId)
        record (A.withGc m) n a targetId p ef) s
      (ds.forM fun target => do
        let targetId ← factId target
        let ef ← composeReturn A call summary fun a s =>
          a.returnEdge A.problem s siteName callee exit fact ret target
            (pack site.val exitId.val, n, factPair d targetId)
        record A n a targetId p ef) t
      fun _ _ s' t' => Advances A m w s t s' t' := by
  refine Follows.forM_same (fun s' t' => Advances A m w s t s' t') (.refl h) ?_
  intro target _ s₁ t₁ hadv
  refine (factId_follows hadv.mirrors target).seq ?_
  rintro i _ s₂ t₂ ⟨rfl, hi, hadv₂⟩
  replace hadv₂ := hadv.trans hadv₂
  have hm₂ := hadv₂.mirrors
  have hg := hadv₂.right
  refine (composeReturn_follows hA hm₂
    (e := A.problem.returnEdge siteName callee exit fact ret target)
    (hcall.mono hadv₂.left.store hg.store) (hsummary.mono hadv₂.left.store hg.store)
    fun hv => ?_).seq ?_
  · obtain ⟨_, _, _, _⟩ := (hA.laws hv).orders
    exact ⟨asks_returnEdge (A := A.withGc m) hA.graph hm₂.base'.store hm₂.base'.answers
        (hm₂.hasNode.2 (hg.nodes _ _ hsite)) (hm₂.hasNode.2 (hg.nodes _ _ hx))
        (hm₂.hasNode.2 (hg.nodes _ _ hn)) hexit (hm₂.hasFact.2 (hg.facts _ _ hd))
        (hm₂.hasFact.2 hi),
      asks_returnEdge hA.graph hm₂.base.store hm₂.base.answers (hg.nodes _ _ hsite)
        (hg.nodes _ _ hx) (hg.nodes _ _ hn) hexit (hg.facts _ _ hd) hi⟩
  rintro ef' ef s₃ t₃ ⟨hef, hadv₃⟩
  replace hadv₃ := hadv₂.trans hadv₃
  exact (record_follows hA hm hadv₃.mirrors (hp.mono hadv₃.right)
    (.inl (hkept.mono hadv₃.right)) hef).imp fun _ _ _ _ hadv₄ => hadv₃.trans hadv₄

variable [DecidableEq D]

/-- Summaries are applied to a call. -/
theorem applySummaries_follows (hA : Comparable A) (hm : m.isEnabled = true)
    (h : Mirrors A m w s t) {c' c : CallRecord} {x : NodeId} {site callee exit : String}
    {l' l : List (FactId × EdgeRef)} (hc : CallAlike A s.store t.store c' c)
    (hsite : t.HasNode c.site site) (hcall : A.graph.isCallSite site = .ok true)
    (hcallee : t.HasProc c.callee callee) (hx : t.HasNode x exit)
    (hexit : A.graph.ExitOf callee exit) (hl : LeavingAlike A s.store t.store l' l) :
    Follows (applySummaries (A.withGc m) c' exit x l') s (applySummaries A c exit x l) t
      fun _ _ s' t' => Advances A m w s t s' t' := by
  obtain ⟨e', rfl, he⟩ := hc
  refine (nodeName_follows h c.site).seq ?_
  rintro _ y _ _ ⟨rfl, hsite', rfl, rfl⟩
  obtain rfl := Option.some.inj (hsite.symm.trans hsite')
  refine (procName_follows h c.callee).seq ?_
  rintro _ y _ _ ⟨rfl, hcallee', rfl, rfl⟩
  obtain rfl := Option.some.inj (hcallee.symm.trans hcallee')
  refine .lift_seq fun proc hproc => ?_
  refine (procId_follows h proc).seq ?_
  rintro p _ s₁ t₁ ⟨rfl, hp, hadv₁⟩
  refine .lift_seq fun rets hrets => ?_
  refine (Follows.forM_same (fun s' t' => Advances A m w s₁ t₁ s' t') (.refl hadv₁.mirrors) ?_).imp
    fun _ _ _ _ hadv => hadv₁.trans hadv
  intro ret hret s₂ t₂ hadv₂
  have hsucc : A.graph.Succ site ret := ⟨rets, hrets, hret⟩
  have hprocOf := Supergraph.procOf_succ hA.graph hsucc hproc
  refine (nodeId_follows hadv₂.mirrors ret).seq ?_
  rintro n _ s₃ t₃ ⟨rfl, hn, hadv₃⟩
  replace hadv₃ := hadv₂.trans hadv₃
  have hg₃ := hadv₁.right.trans hadv₃.right
  have hm₃ := hadv₃.mirrors
  refine (askFlow_follows hm₃
    (AnswersOk.ask_returnFlow (A := A.withGc m) hA.graph hm₃.base'.answers
      (hm₃.hasNode.2 (hg₃.nodes _ _ hsite)) (hm₃.hasNode.2 (hg₃.nodes _ _ hx))
      (hm₃.hasNode.2 hn) hexit)
    (hm₃.base.answers.ask_returnFlow hA.graph (hg₃.nodes _ _ hsite) (hg₃.nodes _ _ hx) hn
      hexit)).seq ?_
  rintro _ flow s₄ t₄ ⟨rfl, rfl, hadv₄⟩
  have hn₄ := hadv₄.right.nodes _ _ hn
  replace hadv₄ := hadv₃.trans hadv₄
  have hkept : Spared A m t₄ n := .of_boundary hA hn₄ (Supergraph.known_of_procOf hprocOf)
    (.inr (.inr ⟨site, hsucc, hcall⟩))
  have hin : InProc A t₄ n p := ⟨ret, proc, hn₄, hprocOf, hadv₄.right.procs _ _ hp⟩
  refine (Follows.forM (fun s' t' => Advances A m w s₄ t₄ s' t') hl (.refl hadv₄.mirrors) ?_).imp
    fun _ _ _ _ hadv => hadv₄.trans hadv
  rintro ⟨_, summary'⟩ ⟨d, summary⟩ - - ⟨rfl, hsummary⟩ s₅ t₅ hadv₅
  refine (factOf_follows hadv₅.mirrors _).seq ?_
  rintro fact _ _ _ ⟨rfl, hfact, rfl, rfl⟩
  refine (targets_follows hadv₅.mirrors _ fact).seq ?_
  rintro _ _ _ _ ⟨rfl, rfl, rfl, rfl⟩
  have hadv := hadv₁.trans (hadv₄.trans hadv₅)
  have hg := hadv.right
  exact (returnTo_follows hA hm hadv.mirrors (he.mono hadv.left.store hg.store)
    (hsummary.mono hadv.left.store hg.store) (hg.nodes _ _ hsite) (hg.nodes _ _ hx)
    (hadv₅.right.nodes _ _ hn₄) hexit hfact (hin.mono hadv₅.right) (hkept.mono hadv₅.right)).imp
      fun _ _ _ _ hadv₆ => hadv₅.trans hadv₆

theorem applyKnownSummaries_follows (hA : Comparable A) (hm : m.isEnabled = true)
    (h : Mirrors A m w s t) {c' c : CallRecord} {site callee : String}
    (hc : CallAlike A s.store t.store c' c) (hsite : t.HasNode c.site site)
    (hcall : A.graph.isCallSite site = .ok true) (hcallee : t.HasProc c.callee callee) :
    Follows (applyKnownSummaries (A.withGc m) c' callee) s (applyKnownSummaries A c callee) t
      fun _ _ s' t' => Advances A m w s t s' t' := by
  obtain ⟨e', rfl, he⟩ := hc
  refine .lift_seq fun exits hexits => ?_
  refine forExits_follows hA h hexits fun exit x l' l s₁ t₁ hadv hx hexit hl => ?_
  exact applySummaries_follows hA hm hadv.mirrors
    ⟨e', rfl, he.mono hadv.left.store hadv.right.store⟩ (hadv.right.nodes _ _ hsite) hcall
    (hadv.right.procs _ _ hcallee) hx hexit hl

/-! ## Calls -/

theorem recordCall_follows (hA : Comparable A) (hm : m.isEnabled = true) (h : Mirrors A m w s t)
    {c' c : CallRecord} {site callee : String} (hc : CallAlike A s.store t.store c' c)
    (hsite : t.HasNode c.site site) (hcall : A.graph.isCallSite site = .ok true)
    (hcallee : t.HasProc c.callee callee)
    (hplain : A.config.computeValues ≠ true → c.edge = .identity) :
    Follows (recordCall (A.withGc m) c' callee) s (recordCall A c callee) t
      fun _ _ s' t' => Advances A m w s t s' t' := by
  have hadv₁ := h.withCall hc ⟨⟨site, hsite, hcall⟩, hplain⟩
  have hlen : s.ledger.records.size = t.ledger.records.size := h.records.length_eq
  unfold recordCall
  refine .get_seq ?_
  by_cases hmem : c ∈ t.ledger
  · rw [CallLedger.insert_of_mem hmem,
      CallLedger.insert_of_mem ((h.mem_ledger_iff hc).2 hmem)] at hadv₁ ⊢
    exact .modify_seq (.modify_end (hadv₁.trans (hadv₁.mirrors.withStats _ _)))
  · have hfree := h.ledger.linkable c
    have hfree' := h.ledger'.linkable c'
    have hnew := CallLedger.getElem?_insert hmem
    rw [hlen] at hfree'
    rw [CallLedger.insert_of_not_mem hmem] at hadv₁ hfree hnew ⊢
    rw [CallLedger.insert_of_not_mem (mt (h.mem_ledger_iff hc).1 hmem)] at hadv₁ hfree' ⊢
    rw [hlen]
    refine .modify_seq (.modify_seq ?_)
    have hadv₂ := hadv₁.trans (hadv₁.mirrors.withStats
      { s.stats with calls := s.stats.calls + 1 } { t.stats with calls := t.stats.calls + 1 })
    refine (applyKnownSummaries_follows hA hm hadv₂.mirrors
      (hc.mono hadv₂.left.store hadv₂.right.store) (hadv₂.right.nodes _ _ hsite) hcall
      (hadv₂.right.procs _ _ hcallee)).runs.seq ?_
    rintro _ _ s₃ t₃ ⟨hadv₃, hrun₃', hrun₃⟩
    replace hadv₃ := hadv₂.trans hadv₃
    have hledger := applyKnownSummaries_keepsLedger _ _ hrun₃
    have hledger' := applyKnownSummaries_keepsLedger _ _ hrun₃'
    replace hfree' : s₃.ledger.Linkable t.ledger.records.size := hledger' ▸ hfree'
    replace hfree : t₃.ledger.Linkable t.ledger.records.size := hledger ▸ hfree
    replace hnew : t₃.ledger.records[t.ledger.records.size]? = some c := hledger ▸ hnew
    obtain ⟨l', l, hlink', hlink, hadv₄⟩ := hadv₃.mirrors.withLink hfree' hfree hnew
    exact .get_seq (.of_ok ((run_ok_seq hlink t₃).trans rfl) ((run_ok_seq hlink' s₃).trans rfl)
      (hadv₃.trans hadv₄))

theorem enterCallee_follows (hA : Comparable A) (hm : m.isEnabled = true) (h : Mirrors A m w s t)
    {job' job : PathEdge} {site callee : String} {fact : D} {q : ProcId}
    (hjob : PathAlike A s.store t.store job' job) (hsite : t.HasNode job.node site)
    (hcall : A.graph.isCallSite site = .ok true) (hfact : t.HasFact job.target fact)
    (hq : t.HasProc q callee) :
    Follows (enterCallee (A.withGc m) job' site fact callee q (pack job.node.val q.val)) s
      (enterCallee A job site fact callee q (pack job.node.val q.val)) t
      fun _ _ s' t' => Advances A m w s t s' t' := by
  obtain ⟨e', rfl, he⟩ := hjob
  refine .lift_seq fun starts hstarts => ?_
  cases starts with
  | nil => exact .pure (.refl h)
  | cons sp₀ rest =>
  generalize hlist : sp₀ :: rest = starts at hstarts ⊢
  rw [if_neg (by rw [← hlist]; nofun), if_neg (by rw [← hlist]; nofun)]
  refine (askFlow_follows h (h.base'.answers.ask_callFlow (h.hasNode.2 hsite) (h.hasProc.2 hq))
    (h.base.answers.ask_callFlow hsite hq)).seq ?_
  rintro _ flow s₁ t₁ ⟨rfl, rfl, hadv₁⟩
  refine (targets_follows hadv₁.mirrors _ fact).seq ?_
  rintro _ _ _ _ ⟨rfl, rfl, rfl, rfl⟩
  refine Follows.forM_same (fun s' t' => Advances A m w s t s' t') hadv₁ ?_
  intro entry _ s₂ t₂ hadv₂
  refine (factId_follows hadv₂.mirrors entry).seq ?_
  rintro i _ s₃ t₃ ⟨rfl, hi, hadv₃⟩
  replace hadv₃ := hadv₂.trans hadv₃
  have hm₃ := hadv₃.mirrors
  have hg₃ := hadv₃.right
  refine (composeWith_follows hA hm₃ (e := A.problem.callEdge site fact callee entry)
    (he.mono hadv₃.left.store hg₃.store) fun hv => ?_).seq ?_
  · obtain ⟨_, _, _, _⟩ := (hA.laws hv).orders
    exact ⟨asks_callEdge (A := A.withGc m) hm₃.base'.store hm₃.base'.answers
        (hm₃.hasNode.2 (hg₃.nodes _ _ hsite)) (hm₃.hasProc.2 (hg₃.procs _ _ hq))
        (hm₃.hasFact.2 (hg₃.facts _ _ hfact)) (hm₃.hasFact.2 hi),
      asks_callEdge hm₃.base.store hm₃.base.answers (hg₃.nodes _ _ hsite)
        (hg₃.procs _ _ hq) (hg₃.facts _ _ hfact) hi⟩
  rintro edge' edge s₄ t₄ ⟨hedge, hadv₄, hplain⟩
  replace hadv₄ := hadv₃.trans hadv₄
  refine (Follows.forM_same (fun s' t' => Advances A m w s₄ t₄ s' t') (.refl hadv₄.mirrors)
    ?_).seq ?_
  · intro sp hsp s₅ t₅ hadv₅
    obtain ⟨hproc, hstart⟩ := (Supergraph.startOf_iff hA.graph).1 ⟨starts, hstarts, hsp⟩
    refine (nodeId_follows hadv₅.mirrors sp).seq ?_
    rintro n _ s₆ t₆ ⟨rfl, hn, hadv₆⟩
    replace hadv₆ := hadv₅.trans hadv₆
    refine (record_follows hA hm hadv₆.mirrors
      ⟨sp, callee, hn, hproc, (hadv₄.trans hadv₆).right.procs _ _ hq⟩
      (.inl (.of_boundary hA hn (Supergraph.known_of_procOf hproc) (.inr (.inl hstart))))
      (.identity hadv₆.mirrors.neat)).imp fun _ _ _ _ hadv₇ => hadv₆.trans hadv₇
  · rintro _ _ s₅ t₅ hadv₅
    have hadv := hadv₄.trans hadv₅
    exact (recordCall_follows (c := ⟨edge, job.source, q, job.node, i⟩) hA hm hadv.mirrors
      ⟨edge', rfl, hedge.mono hadv₅.left.store hadv₅.right.store⟩ (hadv.right.nodes _ _ hsite) hcall
      (hadv.right.procs _ _ hq) hplain).imp fun _ _ _ _ hadv₆ => hadv.trans hadv₆

theorem propagateCall_follows (hA : Comparable A) (hm : m.isEnabled = true)
    (h : Mirrors A m w s t) {job' job : PathEdge} {site proc : String} {p : ProcId}
    (hjob : PathAlike A s.store t.store job' job) (hsite : t.HasNode job.node site)
    (hproc : A.graph.procOf site = .ok proc) (hp : t.HasProc p proc)
    (hcall : A.graph.isCallSite site = .ok true) :
    Follows (propagateCall (A.withGc m) job' site p) s (propagateCall A job site p) t
      fun _ _ s' t' => Advances A m w s t s' t' := by
  obtain ⟨e', rfl, he⟩ := hjob
  refine (factOf_follows h job.target).seq ?_
  rintro fact _ _ _ ⟨rfl, hfact, rfl, rfl⟩
  refine .lift_seq fun callees hcallees => ?_
  refine .lift_seq fun rets hrets => ?_
  -- Path edges at return sites are never lost.
  have hret : ∀ ret ∈ rets, ∀ s₁ t₁ n, Advances A m w s t s₁ t₁ → t₁.HasNode n ret →
      InProc A t₁ n p ∧ Spared A m t₁ n := by
    intro ret hret s₁ t₁ n hadv hn
    have hsucc : A.graph.Succ site ret := ⟨rets, hrets, hret⟩
    have hprocOf := Supergraph.procOf_succ hA.graph hsucc hproc
    exact ⟨⟨ret, proc, hn, hprocOf, hadv.right.procs _ _ hp⟩, .of_boundary hA hn
      (Supergraph.known_of_procOf hprocOf) (.inr (.inr ⟨site, hsucc, hcall⟩))⟩
  refine (Follows.forM_same (fun s' t' => Advances A m w s t s' t') (.refl h) ?_).seq ?_
  · intro ret hmem s₁ t₁ hadv
    refine (nodeId_follows hadv.mirrors ret).seq ?_
    rintro n _ s₂ t₂ ⟨rfl, hn, hadv₂⟩
    replace hadv₂ := hadv.trans hadv₂
    have hsite₂ := hadv₂.right.nodes _ _ hsite
    refine (askFlow_follows hadv₂.mirrors
      (AnswersOk.ask_bypassFlow (A := A.withGc m) hadv₂.mirrors.base'.answers
        (hadv₂.mirrors.hasNode.2 hsite₂) (hadv₂.mirrors.hasNode.2 hn) hcallees)
      (hadv₂.mirrors.base.answers.ask_bypassFlow hsite₂ hn hcallees)).seq ?_
    rintro _ flow s₃ t₃ ⟨rfl, rfl, hadv₃⟩
    have hn₃ := hadv₃.right.nodes _ _ hn
    have hsite₃ := hadv₃.right.nodes _ _ hsite₂
    replace hadv₃ := hadv₂.trans hadv₃
    have hfact₃ := hadv₃.right.facts _ _ hfact
    have hm₃ := hadv₃.mirrors
    obtain ⟨hin, hkept⟩ := hret ret hmem s₃ t₃ n hadv₃ hn₃
    refine (spread_follows hA hm hm₃
      (fun target => A.problem.bypassEdge site fact ret target callees)
      ⟨e', rfl, he.mono hadv₃.left.store hadv₃.right.store⟩ hin (.inl hkept)
      (fun hv u target i hg hb hi => ?_) fun hv u target i hg hb hi => ?_).imp
        fun _ _ _ _ hadv₄ => hadv₃.trans hadv₄
    · obtain ⟨_, _, _, _⟩ := (hA.laws hv).orders
      exact asks_bypassEdge (A := A.withGc m) hb.store hb.answers
        (hg.nodes _ _ (hm₃.hasNode.2 hsite₃)) (hg.nodes _ _ (hm₃.hasNode.2 hn₃)) hcallees
        (hg.facts _ _ (hm₃.hasFact.2 hfact₃)) hi
    · obtain ⟨_, _, _, _⟩ := (hA.laws hv).orders
      exact asks_bypassEdge hb.store hb.answers (hg.nodes _ _ hsite₃) (hg.nodes _ _ hn₃)
        hcallees (hg.facts _ _ hfact₃) hi
  rintro _ _ s₁ t₁ hadv₁
  refine Follows.forM_same (fun s' t' => Advances A m w s t s' t') hadv₁ ?_
  intro callee _ s₂ t₂ hadv₂
  refine (procId_follows hadv₂.mirrors callee).seq ?_
  rintro q _ s₃ t₃ ⟨rfl, hq, hadv₃⟩
  replace hadv₃ := hadv₂.trans hadv₃
  have hsite₃ := hadv₃.right.nodes _ _ hsite
  refine (askFlow_follows (g := A.problem.summaryFlow site callee) hadv₃.mirrors
    (hadv₃.mirrors.base'.answers.ask_summaryFlow (hadv₃.mirrors.hasNode.2 hsite₃)
      (hadv₃.mirrors.hasProc.2 hq))
    (hadv₃.mirrors.base.answers.ask_summaryFlow hsite₃ hq)).seq ?_
  rintro _ _ s₄ t₄ ⟨rfl, rfl, hadv₄⟩
  have hsite₄ := hadv₄.right.nodes _ _ hsite₃
  have hq₄ := hadv₄.right.procs _ _ hq
  replace hadv₄ := hadv₃.trans hadv₄
  have hfact₄ := hadv₄.right.facts _ _ hfact
  cases A.problem.summaryFlow site callee with
  | none =>
    exact (enterCallee_follows hA hm hadv₄.mirrors
      ⟨e', rfl, he.mono hadv₄.left.store hadv₄.right.store⟩ hsite₄ hcall hfact₄ hq₄).imp
        fun _ _ _ _ hadv₅ => hadv₄.trans hadv₅
  | some flow =>
    refine Follows.forM_same (fun s' t' => Advances A m w s t s' t') hadv₄ ?_
    intro ret hmem s₅ t₅ hadv₅
    refine (nodeId_follows hadv₅.mirrors ret).seq ?_
    rintro n _ s₆ t₆ ⟨rfl, hn, hadv₆⟩
    replace hadv₆ := hadv₅.trans hadv₆
    have hm₆ := hadv₆.mirrors
    have hsite₆ := hadv₆.right.nodes _ _ hsite
    have hfact₆ := hadv₆.right.facts _ _ hfact
    obtain ⟨hin, hkept⟩ := hret ret hmem s₆ t₆ n hadv₆ hn
    refine (spread_follows hA hm hm₆ (fun target => A.problem.summaryEdge site fact ret target)
      ⟨e', rfl, he.mono hadv₆.left.store hadv₆.right.store⟩ hin (.inl hkept)
      (fun hv u target i hg hb hi => ?_) fun hv u target i hg hb hi => ?_).imp
        fun _ _ _ _ hadv₇ => hadv₆.trans hadv₇
    · obtain ⟨_, _, _, _⟩ := (hA.laws hv).orders
      exact asks_summaryEdge (A := A.withGc m) hb.store hb.answers
        (hg.nodes _ _ (hm₆.hasNode.2 hsite₆)) (hg.nodes _ _ (hm₆.hasNode.2 hn))
        (hg.facts _ _ (hm₆.hasFact.2 hfact₆)) hi
    · obtain ⟨_, _, _, _⟩ := (hA.laws hv).orders
      exact asks_summaryEdge hb.store hb.answers (hg.nodes _ _ hsite₆) (hg.nodes _ _ hn)
        (hg.facts _ _ hfact₆) hi

/-! ## One job and one key -/

theorem propagate_follows (hA : Comparable A) (hm : m.isEnabled = true) (h : Mirrors A m w s t)
    {job' job : PathEdge} {p : ProcId} {r : Retention} (hjob : PathAlike A s.store t.store job' job)
    (hp : InProc A t job.node p) (hopen : Open A w p job.source)
    (hr : s.retention.release p = .ok r) :
    Follows (propagate (A.withGc m) job') s (propagate A job) t
      fun _ _ s' t' => Advances A m w s t s' t' := by
  obtain ⟨e', rfl, he⟩ := hjob
  refine (nodeName_follows h job.node).seq ?_
  rintro node _ _ _ ⟨rfl, hnode, rfl, rfl⟩
  refine .lift_seq fun proc hproc => ?_
  refine (procId_follows h proc).runs.seq ?_
  rintro q _ s₁ t₁ ⟨⟨rfl, hq, hadv⟩, hrun, -⟩
  have hnode₁ := hadv.right.nodes _ _ hnode
  obtain rfl : p = q :=
    (hp.mono hadv.right).unique hadv.mirrors.base.procs ⟨node, proc, hnode₁, hproc, hq⟩
  -- Only the run with collection counts pending work.
  rw [if_pos (show (A.withGc m).config.gcMode.isEnabled = true from hm),
    if_neg (by rw [hA.mode]; nofun)]
  have hr₁ : s₁.retention.release p = .ok r := by
    rw [(procId_spec h.base' hrun).2.1.retention]
    exact hr
  have hadv₁ : Advances A m w s t { s₁ with retention := r } t₁ := by
    refine hadv.trans ⟨{ hadv.mirrors with
      base' := hadv.mirrors.base'.congr rfl rfl rfl rfl rfl
      placed := fun n a b ef hef => ?_ }, { State.Grows.refl s₁ with }, .refl t₁⟩
    refine (hadv.mirrors.placed n a b ef hef).mono (Interner.le_refl _) (Interner.le_refl _) ?_
    exact fun i hi => (Retention.release_spec hr₁).1 ▸ hi
  refine .congr_left ((run_get_seq s₁).trans (run_ok_seq hr₁ s₁)) ?_
  refine .congr_left (run_modify_seq s₁) ?_
  refine .lift_seq fun isCall hcall => ?_
  have hjob₁ : PathAlike A s₁.store t₁.store { job with edge := e' } job :=
    ⟨e', rfl, he.mono hadv.left.store hadv.right.store⟩
  cases isCall with
  | true =>
    exact (propagateCall_follows hA hm hadv₁.mirrors hjob₁ hnode₁ hproc hq hcall).imp
      fun _ _ _ _ hadv₂ => hadv₁.trans hadv₂
  | false =>
    exact (propagateNormal_follows hA hm hadv₁.mirrors hjob₁ hnode₁ hproc hq hopen).imp
      fun _ _ _ _ hadv₂ => hadv₁.trans hadv₂

theorem replay_follows (hA : Comparable A) (hm : m.isEnabled = true) (h : Mirrors A m w s t)
    {key : UInt64} (hawake : ¬ w.asleep ⟨(unpack key).2⟩ ⟨(unpack key).1⟩) :
    Follows (replay (A.withGc m) key) s (replay A key) t
      fun _ _ s' t' => Advances A m w s t s' t' := by
  unfold replay
  generalize unpack key = k at hawake ⊢
  obtain ⟨i, j⟩ := k
  refine (procName_follows h ⟨j⟩).seq ?_
  rintro callee _ _ _ ⟨rfl, hp, rfl, rfl⟩
  refine .lift_seq fun exits hexits => ?_
  refine forExits_follows hA h hexits fun exit x l' l s₁ t₁ hadv hx hexit hl => ?_
  refine .get_seq ?_
  refine Follows.forM (fun s' t' => Advances A m w s₁ t₁ s' t')
    ((hadv.mirrors.waiting ⟨i⟩ ⟨j⟩).resolve_right hawake) (.refl hadv.mirrors) ?_
  intro c' c _ hc hcc s₂ t₂ hadv₂
  obtain ⟨hrow, hcallee⟩ := hadv.mirrors.into _ _ c hc
  obtain ⟨site, hsite, hcall⟩ := (hadv.mirrors.calls c hrow).1
  have hg₂ := hadv₂.right
  have hp₂ : t₂.HasProc c.callee callee := hcallee ▸ hg₂.procs _ _ (hadv.right.procs _ _ hp)
  refine (applySummaries_follows hA hm hadv₂.mirrors (hcc.mono hadv₂.left.store hg₂.store)
    (hg₂.nodes _ _ hsite) hcall hp₂ (hg₂.nodes _ _ hx) hexit
    (hl.imp fun _ _ hy => ⟨hy.1, hy.2.mono hadv₂.left.store hg₂.store⟩)).imp
      fun _ _ _ _ hadv₃ => hadv₂.trans hadv₃

end Solver

end Tabulation
