import Tabulation.Proofs.EdgeStore.Combine
import Tabulation.Proofs.Interner
import Tabulation.Proofs.Solver.Labels

/-!
# Remembered answers are the client's

Answers are remembered under keys made of numbers. A key stands for a question to the client, since
numbers stand for names; `NormalFlowKey` and its nine siblings say which answer belongs to a key.
`AnswersOk` says that every remembered answer belongs to its key.

Asking again therefore gives the client's own answer, whether it was remembered or not.
-/

namespace Tabulation

/-- All remembered answers satisfy a property of key and answer. -/
def Memo.Holds {κ α : Type} [Ord κ] (m : Memo κ α) (P : κ → α → Prop) : Prop :=
  ∀ (k : κ) (a : α), m.table[k]? = some a → P k a

section Memo

variable {κ α : Type} [Ord κ] {m : Memo κ α} {P Q : κ → α → Prop}

theorem Memo.holds_empty : (∅ : Memo κ α).Holds P := nofun

theorem Memo.Holds.imp (h : m.Holds P) (hPQ : ∀ k a, P k a → Q k a) : m.Holds Q :=
  fun k a ha => hPQ k a (h k a ha)

variable [Std.TransOrd κ] [Std.LawfulEqOrd κ] [DecidableEq κ]

theorem Memo.Holds.insert (h : m.Holds P) {key : κ} {a : α} (ha : P key a) :
    (m.insert key a).Holds P := by
  intro k b hb
  rw [Memo.insert, getElem?_insert_eq] at hb
  split at hb
  · next heq =>
    rw [← heq, ← Option.some.inj hb]
    exact ha
  · exact h k b hb

theorem Memo.Holds.getOrAsk (h : m.Holds P) (key : κ) (ask : Unit → α) (hkey : P key (ask ()))
    (hfun : ∀ a, P key a → a = ask ()) :
    (m.getOrAsk key ask).1 = ask () ∧ (m.getOrAsk key ask).2.2.Holds P := by
  unfold Memo.getOrAsk Memo.lookup
  cases hm : m.table[key]? with
  | some a => exact ⟨hfun a (h key a hm), h⟩
  | none => exact ⟨rfl, Memo.Holds.insert (m := { m with misses := m.misses + 1 }) h hkey⟩

/-- What holds of all answers holds of the next one. -/
theorem Memo.Holds.getOrAsk_mem {P : α → Prop} (h : m.Holds fun _ a => P a)
    (key : κ) (ask : Unit → α) (hask : P (ask ())) :
    P (m.getOrAsk key ask).1 ∧ (m.getOrAsk key ask).2.2.Holds fun _ a => P a := by
  unfold Memo.getOrAsk Memo.lookup
  cases hm : m.table[key]? with
  | some a => exact ⟨h key a hm, h⟩
  | none => exact ⟨hask, Memo.Holds.insert (m := { m with misses := m.misses + 1 }) h hask⟩

end Memo

variable {D L K : Type} [Ord L] [Ord K]

/-! ## Labels -/

section Labels

variable [JoinLattice L] [Payload K L]

theorem Analysis.Labelled.alive {A : Analysis D L K} {st : EdgeStore L K} {ef : EdgeRef}
    (h : A.Labelled st ef) (hv : A.config.computeValues = true) : st.Alive ef :=
  (h hv).elim fun _ hφ => hφ.node?

variable [DecidableEq L] [Std.TransOrd L] [Std.LawfulEqOrd L] [Std.TransOrd K]
  [Std.LawfulEqOrd K]

theorem Analysis.compose_spec {A : Analysis D L K} {st st' : EdgeStore L K} {a b c : EdgeRef}
    (h : st.Regular) (ha : st.Alive a) (hb : st.Alive b) (hc : st.compose a b = .ok (c, st')) :
    st'.Regular ∧ st ≤ st' ∧ st'.Alive c ∧ (A.Valued → ∀ φ ψ, st.Means a φ → st.Means b ψ →
      st'.Means c (ψ ∘ φ)) ∧ ∀ f g h, st.LeafAt f a → st.LeafAt g b → f.andThen? g = some h →
        st'.LeafAt h c := by
  obtain ⟨c', s', hc', hreg, hle, _, hcomp⟩ := h.compose ha hb
  obtain ⟨rfl, rfl⟩ := Prod.mk.inj (Except.ok.inj (hc.symm.trans hc'))
  refine ⟨hreg, hle, hcomp.alive hreg (ha.mono hle) (hb.mono hle), fun hv φ ψ hφ hψ => ?_,
    fun f g h hf hg hh => ?_⟩
  · have := hv.2.payload
    exact hcomp.means hreg (hφ.mono hle) (hψ.mono hle)
  · exact hcomp.leafAt hreg (hf.mono hle) (hg.mono hle) hh

theorem Analysis.join_spec {A : Analysis D L K} {st st' : EdgeStore L K} {a b c : EdgeRef}
    (h : st.Regular) (ha : st.Alive a) (hb : st.Alive b) (hc : st.join a b = .ok (c, st')) :
    st'.Regular ∧ st ≤ st' ∧ st'.Alive c ∧ (A.Valued → st'.Joins a b c) ∧
      (a = b → c = a) := by
  obtain ⟨c', s', hc', hreg, hle, hjoined⟩ := h.join ha hb
  obtain ⟨rfl, rfl⟩ := Prod.mk.inj (Except.ok.inj (hc.symm.trans hc'))
  obtain ⟨halive, halive'⟩ := (ha.mono hle).joinKey (hb.mono hle)
  refine ⟨hreg, hle, hjoined.alive hreg halive halive', fun hv => ?_, ?_⟩
  · have := hv.2.join
    have := hv.2.payload
    have hjoins := hjoined.joins hreg halive halive'
    rcases EdgeStore.joinKey_eq a b with heq | heq
    · rwa [heq] at hjoins
    · rw [heq] at hjoins
      exact hjoins.symm
  · rintro rfl
    rw [EdgeStore.join, if_pos rfl] at hc
    exact (Prod.mk.inj (Except.ok.inj hc)).1.symm

/-- A handle is remembered, or the client's edge function is stored under it. -/
theorem getOrAskEdge_spec {κ : Type} [Ord κ] [Std.TransOrd κ]
    [Std.LawfulEqOrd κ] [DecidableEq κ] {m m' : Memo κ EdgeRef} {key : κ} {st st' : EdgeStore L K}
    {ask : Unit → EdgeFunction L K} {ef : EdgeRef} {isNew : Bool}
    {P : κ → EdgeFunction L K → Prop}
    (hst : st.Regular) (hm : m.Holds fun k ef => ∃ e, P k e ∧ st.LeafAt e ef)
    (hkey : P key (ask ())) (hfun : ∀ e, P key e → e = ask ())
    (h : Answers.getOrAskEdge m key st ask = (ef, isNew, m', st')) :
    (st' = st ∨ st.leaf (ask ()) = (ef, st')) ∧ st ≤ st' ∧ st'.LeafAt (ask ()) ef ∧
      m'.Holds fun k ef => ∃ e, P k e ∧ st'.LeafAt e ef := by
  unfold Answers.getOrAskEdge Memo.lookup at h
  cases hk : m.table[key]? with
  | some ef₀ =>
    simp only [hk, Prod.mk.injEq] at h
    obtain ⟨rfl, -, rfl, rfl⟩ := h
    obtain ⟨e, he, hat⟩ := hm key _ hk
    rw [hfun e he] at hat
    exact ⟨.inl rfl, EdgeStore.le_refl _, hat, hm⟩
  | none =>
    cases hleaf : st.leaf (ask ()) with
    | mk ef₁ st₁ =>
    simp only [hk, hleaf, Prod.mk.injEq] at h
    obtain ⟨rfl, -, rfl, rfl⟩ := h
    obtain ⟨-, hle, hat⟩ := hst.leaf hleaf
    refine ⟨.inr rfl, hle, hat, ?_⟩
    refine Memo.Holds.insert (m := { m with misses := m.misses + 1 }) ?_ ⟨_, hkey, hat⟩
    exact fun k a ha => by
      obtain ⟨e, he, hme⟩ := hm k a ha
      exact ⟨e, he, hme.mono hle⟩

end Labels

/-! ## Names -/

variable [Ord D]

namespace State

/-- The node with a number. -/
def HasNode (s : State D L K) (n : NodeId) (x : String) : Prop := s.nodes.get? n.val = some x

/-- The fact with a number. -/
def HasFact (s : State D L K) (d : FactId) (x : D) : Prop := s.facts.get? d.val = some x

/-- The procedure with a number. -/
def HasProc (s : State D L K) (p : ProcId) (x : String) : Prop := s.procs.get? p.val = some x

end State

section Keys

variable (A : Analysis D L K) (s : State D L K)

/-! ## Which answer belongs to a key -/

def NormalFlowKey (k : UInt64) (f : FlowFunction D) : Prop :=
  ∃ x y, s.nodes.get? (unpack k).1 = some x ∧ s.nodes.get? (unpack k).2 = some y ∧
    f = A.problem.normalFlow x y

def CallFlowKey (k : UInt64) (f : FlowFunction D) : Prop :=
  ∃ x p, s.nodes.get? (unpack k).1 = some x ∧ s.procs.get? (unpack k).2 = some p ∧
    f = A.problem.callFlow x p

/-- An exit point belongs to one procedure, which the key need not mention. -/
def ReturnFlowKey (k : UInt64 × NodeId) (f : FlowFunction D) : Prop :=
  ∃ x z y p, s.nodes.get? (unpack k.1).1 = some x ∧ s.nodes.get? (unpack k.1).2 = some z ∧
    s.HasNode k.2 y ∧ A.graph.ExitOf p z ∧ f = A.problem.returnFlow x p z y

def BypassFlowKey (k : UInt64) (f : FlowFunction D) : Prop :=
  ∃ x y ps, s.nodes.get? (unpack k).1 = some x ∧ s.nodes.get? (unpack k).2 = some y ∧
    A.graph.callees x = .ok ps ∧ f = A.problem.bypassFlow x y ps

def SummaryFlowKey (k : UInt64) (f : Option (FlowFunction D)) : Prop :=
  ∃ x p, s.nodes.get? (unpack k).1 = some x ∧ s.procs.get? (unpack k).2 = some p ∧
    f = A.problem.summaryFlow x p

def NormalEdgeKey (k : UInt64 × UInt64) (e : EdgeFunction L K) : Prop :=
  ∃ x y i j, s.nodes.get? (unpack k.1).1 = some x ∧ s.nodes.get? (unpack k.1).2 = some y ∧
    s.HasFact (unpackFacts k.2).1 i ∧ s.HasFact (unpackFacts k.2).2 j ∧
    e = A.problem.normalEdge x i y j

def CallEdgeKey (k : UInt64 × UInt64) (e : EdgeFunction L K) : Prop :=
  ∃ x p i j, s.nodes.get? (unpack k.1).1 = some x ∧ s.procs.get? (unpack k.1).2 = some p ∧
    s.HasFact (unpackFacts k.2).1 i ∧ s.HasFact (unpackFacts k.2).2 j ∧
    e = A.problem.callEdge x i p j

def ReturnEdgeKey (k : UInt64 × NodeId × UInt64) (e : EdgeFunction L K) : Prop :=
  ∃ x z y p i j, s.nodes.get? (unpack k.1).1 = some x ∧ s.nodes.get? (unpack k.1).2 = some z ∧
    s.HasNode k.2.1 y ∧ A.graph.ExitOf p z ∧ s.HasFact (unpackFacts k.2.2).1 i ∧
    s.HasFact (unpackFacts k.2.2).2 j ∧ e = A.problem.returnEdge x p z i y j

def BypassEdgeKey (k : UInt64 × UInt64) (e : EdgeFunction L K) : Prop :=
  ∃ x y i j ps, s.nodes.get? (unpack k.1).1 = some x ∧ s.nodes.get? (unpack k.1).2 = some y ∧
    s.HasFact (unpackFacts k.2).1 i ∧ s.HasFact (unpackFacts k.2).2 j ∧
    A.graph.callees x = .ok ps ∧ e = A.problem.bypassEdge x i y j ps

def SummaryEdgeKey (k : UInt64 × UInt64) (e : EdgeFunction L K) : Prop :=
  ∃ x y i j, s.nodes.get? (unpack k.1).1 = some x ∧ s.nodes.get? (unpack k.1).2 = some y ∧
    s.HasFact (unpackFacts k.2).1 i ∧ s.HasFact (unpackFacts k.2).2 j ∧
    e = A.problem.summaryEdge x i y j

end Keys

section Answers

variable [JoinLattice L] [Payload K L]

/-- Remembered handles are those of the edge functions that belong to their keys. -/
def LeafKey {κ : Type} (s : State D L K) (P : κ → EdgeFunction L K → Prop) (k : κ)
    (ef : EdgeRef) : Prop := ∃ e, P k e ∧ s.store.LeafAt e ef

/-- Every remembered answer belongs to its key. -/
structure AnswersOk (A : Analysis D L K) (s : State D L K) : Prop where
  zero : s.answers.zero = A.problem.zero
  autoAddZero : s.answers.autoAddZero = A.config.autoAddZero
  normalFlow : s.answers.normalFlows.Holds (NormalFlowKey A s)
  callFlow : s.answers.callFlows.Holds (CallFlowKey A s)
  returnFlow : s.answers.returnFlows.Holds (ReturnFlowKey A s)
  bypassFlow : s.answers.bypassFlows.Holds (BypassFlowKey A s)
  summaryFlow : s.answers.summaryFlows.Holds (SummaryFlowKey A s)
  normalEdge : s.answers.normalEdges.Holds (LeafKey s (NormalEdgeKey A s))
  callEdge : s.answers.callEdges.Holds (LeafKey s (CallEdgeKey A s))
  returnEdge : s.answers.returnEdges.Holds (LeafKey s (ReturnEdgeKey A s))
  bypassEdge : s.answers.bypassEdges.Holds (LeafKey s (BypassEdgeKey A s))
  summaryEdge : s.answers.summaryEdges.Holds (LeafKey s (SummaryEdgeKey A s))

theorem answersOk_empty {A : Analysis D L K} {s : State D L K}
    (h : s.answers = .empty A.problem.zero A.config.autoAddZero) : AnswersOk A s := by
  constructor <;> rw [h]
  case zero => rfl
  case autoAddZero => rfl
  all_goals exact Memo.holds_empty

/-- Answers stay right while names and stored functions stay. -/
theorem AnswersOk.mono {A : Analysis D L K} {s s' : State D L K} (h : AnswersOk A s)
    (hn : s.nodes ≤ s'.nodes) (hd : s.facts ≤ s'.facts) (hp : s.procs ≤ s'.procs)
    (hs : s.store ≤ s'.store) (ha : s'.answers = s.answers) : AnswersOk A s' where
  zero := ha ▸ h.zero
  autoAddZero := ha ▸ h.autoAddZero
  normalFlow := ha ▸ h.normalFlow.imp fun _ _ ⟨x, y, hx, hy, hf⟩ =>
    ⟨x, y, hn _ _ hx, hn _ _ hy, hf⟩
  callFlow := ha ▸ h.callFlow.imp fun _ _ ⟨x, p, hx, hy, hf⟩ => ⟨x, p, hn _ _ hx, hp _ _ hy, hf⟩
  returnFlow := ha ▸ h.returnFlow.imp fun _ _ ⟨x, z, y, p, hx, hz, hy, hf⟩ =>
    ⟨x, z, y, p, hn _ _ hx, hn _ _ hz, hn _ _ hy, hf⟩
  bypassFlow := ha ▸ h.bypassFlow.imp fun _ _ ⟨x, y, ps, hx, hy, hf⟩ =>
    ⟨x, y, ps, hn _ _ hx, hn _ _ hy, hf⟩
  summaryFlow := ha ▸ h.summaryFlow.imp fun _ _ ⟨x, p, hx, hy, hf⟩ =>
    ⟨x, p, hn _ _ hx, hp _ _ hy, hf⟩
  normalEdge := ha ▸ h.normalEdge.imp fun _ _ ⟨e, ⟨x, y, i, j, hx, hy, hi, hj, he⟩, hm⟩ =>
    ⟨e, ⟨x, y, i, j, hn _ _ hx, hn _ _ hy, hd _ _ hi, hd _ _ hj, he⟩, hm.mono hs⟩
  callEdge := ha ▸ h.callEdge.imp fun _ _ ⟨e, ⟨x, p, i, j, hx, hy, hi, hj, he⟩, hm⟩ =>
    ⟨e, ⟨x, p, i, j, hn _ _ hx, hp _ _ hy, hd _ _ hi, hd _ _ hj, he⟩, hm.mono hs⟩
  returnEdge := ha ▸ h.returnEdge.imp
    fun _ _ ⟨e, ⟨x, z, y, p, i, j, hx, hz, hy, hexit, hi, hj, he⟩, hm⟩ =>
      ⟨e, ⟨x, z, y, p, i, j, hn _ _ hx, hn _ _ hz, hn _ _ hy, hexit, hd _ _ hi, hd _ _ hj, he⟩,
        hm.mono hs⟩
  bypassEdge := ha ▸ h.bypassEdge.imp
    fun _ _ ⟨e, ⟨x, y, i, j, ps, hx, hy, hi, hj, hps, he⟩, hm⟩ =>
      ⟨e, ⟨x, y, i, j, ps, hn _ _ hx, hn _ _ hy, hd _ _ hi, hd _ _ hj, hps, he⟩, hm.mono hs⟩
  summaryEdge := ha ▸ h.summaryEdge.imp fun _ _ ⟨e, ⟨x, y, i, j, hx, hy, hi, hj, he⟩, hm⟩ =>
    ⟨e, ⟨x, y, i, j, hn _ _ hx, hn _ _ hy, hd _ _ hi, hd _ _ hj, he⟩, hm.mono hs⟩

end Answers

/-! ## Flow functions -/

section Flows

variable [JoinLattice L] [Payload K L] {A : Analysis D L K} {s : State D L K}
  {n m r : NodeId} {p : ProcId} {x y z q : String}

theorem AnswersOk.ask_normalFlow (h : AnswersOk A s) (hn : s.HasNode n x) (hm : s.HasNode m y) :
    (s.answers.normalFlow A.problem x y (pack n.val m.val)).1 = A.problem.normalFlow x y ∧
      AnswersOk A { s with
        answers := (s.answers.normalFlow A.problem x y (pack n.val m.val)).2 } := by
  obtain ⟨hf, hholds⟩ := h.normalFlow.getOrAsk (pack n.val m.val)
    (fun _ => A.problem.normalFlow x y)
    ⟨x, y, by rw [unpack_pack]; exact hn, by rw [unpack_pack]; exact hm, rfl⟩
    (by
      rintro f ⟨x', y', hx, hy, rfl⟩
      simp only [unpack_pack] at hx hy
      rw [Option.some.inj (hn.symm.trans hx), Option.some.inj (hm.symm.trans hy)])
  exact ⟨hf, { h with normalFlow := hholds }⟩

theorem AnswersOk.ask_callFlow (h : AnswersOk A s) (hn : s.HasNode n x) (hp : s.HasProc p q) :
    (s.answers.callFlow A.problem x q (pack n.val p.val)).1 = A.problem.callFlow x q ∧
      AnswersOk A { s with
        answers := (s.answers.callFlow A.problem x q (pack n.val p.val)).2 } := by
  obtain ⟨hf, hholds⟩ := h.callFlow.getOrAsk (pack n.val p.val)
    (fun _ => A.problem.callFlow x q)
    ⟨x, q, by rw [unpack_pack]; exact hn, by rw [unpack_pack]; exact hp, rfl⟩
    (by
      rintro f ⟨x', q', hx, hq, rfl⟩
      simp only [unpack_pack] at hx hq
      rw [Option.some.inj (hn.symm.trans hx), Option.some.inj (hp.symm.trans hq)])
  exact ⟨hf, { h with callFlow := hholds }⟩

theorem AnswersOk.ask_summaryFlow (h : AnswersOk A s) (hn : s.HasNode n x) (hp : s.HasProc p q) :
    (s.answers.summaryFlow A.problem x q (pack n.val p.val)).1 = A.problem.summaryFlow x q ∧
      AnswersOk A { s with
        answers := (s.answers.summaryFlow A.problem x q (pack n.val p.val)).2 } := by
  obtain ⟨hf, hholds⟩ := h.summaryFlow.getOrAsk (pack n.val p.val)
    (fun _ => A.problem.summaryFlow x q)
    ⟨x, q, by rw [unpack_pack]; exact hn, by rw [unpack_pack]; exact hp, rfl⟩
    (by
      rintro f ⟨x', q', hx, hq, rfl⟩
      simp only [unpack_pack] at hx hq
      rw [Option.some.inj (hn.symm.trans hx), Option.some.inj (hp.symm.trans hq)])
  exact ⟨hf, { h with summaryFlow := hholds }⟩

theorem AnswersOk.ask_bypassFlow (h : AnswersOk A s) (hn : s.HasNode n x) (hm : s.HasNode m y)
    {ps : List String} (hps : A.graph.callees x = .ok ps) :
    (s.answers.bypassFlow A.problem x y ps (pack n.val m.val)).1 = A.problem.bypassFlow x y ps ∧
      AnswersOk A { s with
        answers := (s.answers.bypassFlow A.problem x y ps (pack n.val m.val)).2 } := by
  obtain ⟨hf, hholds⟩ := h.bypassFlow.getOrAsk (pack n.val m.val)
    (fun _ => A.problem.bypassFlow x y ps)
    ⟨x, y, ps, by rw [unpack_pack]; exact hn, by rw [unpack_pack]; exact hm, hps, rfl⟩ (by
      rintro f ⟨x', y', ps', hx, hy, hps', rfl⟩
      simp only [unpack_pack] at hx hy
      obtain rfl := Option.some.inj (hn.symm.trans hx)
      rw [Option.some.inj (hm.symm.trans hy), Except.ok.inj (hps.symm.trans hps')])
  exact ⟨hf, { h with bypassFlow := hholds }⟩

theorem AnswersOk.ask_returnFlow (hg : A.graph.Consistent) (h : AnswersOk A s)
    (hn : s.HasNode n x) (hr : s.HasNode r z) (hm : s.HasNode m y) (hexit : A.graph.ExitOf q z) :
    (s.answers.returnFlow A.problem x q z y (pack n.val r.val, m)).1 =
        A.problem.returnFlow x q z y ∧
      AnswersOk A { s with
        answers := (s.answers.returnFlow A.problem x q z y (pack n.val r.val, m)).2 } := by
  obtain ⟨hf, hholds⟩ := h.returnFlow.getOrAsk (pack n.val r.val, m)
    (fun _ => A.problem.returnFlow x q z y)
    ⟨x, z, y, q, by rw [unpack_pack]; exact hn, by rw [unpack_pack]; exact hr, hm, hexit, rfl⟩ (by
      rintro f ⟨x', z', y', q', hx, hz, hy, hexit', rfl⟩
      simp only [unpack_pack] at hx hz
      obtain rfl := Option.some.inj (hr.symm.trans hz)
      rw [Option.some.inj (hn.symm.trans hx), Option.some.inj (hm.symm.trans hy),
        hexit.unique hg hexit'])
  exact ⟨hf, { h with returnFlow := hholds }⟩

end Flows

/-! ## Edge functions -/

section Edges

variable [JoinLattice L] [Payload K L] {A : Analysis D L K} {s : State D L K}
  {ask : Answers D → EdgeStore L K → EdgeRef × Answers D × EdgeStore L K}

theorem AnswersOk.withStore (h : AnswersOk A s) {st : EdgeStore L K} (hle : s.store ≤ st) :
    AnswersOk A { s with store := st } :=
  h.mono (Interner.le_refl _) (Interner.le_refl _) (Interner.le_refl _) hle rfl

variable [DecidableEq L] [Std.TransOrd L] [Std.LawfulEqOrd L] [Std.TransOrd K]
  [Std.LawfulEqOrd K]

/-- Asking gives a handle of the edge function `e`, and keeps everything as it should be. -/
def Asks (A : Analysis D L K)
    (ask : Answers D → EdgeStore L K → EdgeRef × Answers D × EdgeStore L K)
    (e : EdgeFunction L K) (s : State D L K) : Prop :=
  ∀ ef a st, ask s.answers s.store = (ef, a, st) →
    (st = s.store ∨ s.store.leaf e = (ef, st)) ∧ s.store ≤ st ∧ st.LeafAt e ef ∧
      AnswersOk A { s with answers := a, store := st }

/-- Asking stores at most one leaf. -/
theorem Asks.store {e : EdgeFunction L K} (h : Asks A ask e s) (hst : s.store.Regular) :
    (ask s.answers s.store).2.2.Regular ∧ s.store.KeepsJoins (ask s.answers s.store).2.2 := by
  obtain ⟨heq | hleaf, -⟩ := h _ _ _ rfl
  · rw [heq]
    exact ⟨hst, .refl _⟩
  · exact ⟨(hst.leaf hleaf).1, EdgeStore.keepsJoins_leaf hleaf⟩

/-- The five kinds of edge functions differ only in the table in which they are remembered. -/
theorem asks_of_memo {κ : Type} [Ord κ] [Std.TransOrd κ] [Std.LawfulEqOrd κ] [DecidableEq κ]
    {key : κ} {e : EdgeFunction L K} {memo : Answers D → Memo κ EdgeRef}
    (update : Answers D → Bool → Memo κ EdgeRef → Answers D)
    {P : κ → EdgeFunction L K → Prop} (hst : s.store.Regular)
    (hask : ∀ a st, ask a st =
      let (ef, isNew, m, st) := Answers.getOrAskEdge (memo a) key st fun _ => e
      (ef, update a isNew m, st))
    (hmemo : (memo s.answers).Holds (LeafKey s P)) (hkey : P key e)
    (hfun : ∀ e', P key e' → e' = e)
    (hupdate : ∀ isNew m st, s.store ≤ st → m.Holds (LeafKey { s with store := st } P) →
      AnswersOk A { s with answers := update s.answers isNew m, store := st }) :
    Asks A ask e s := by
  intro ef a st h
  rw [hask] at h
  cases hget : Answers.getOrAskEdge (memo s.answers) key s.store fun _ => e with
  | mk ef₁ rest =>
  obtain ⟨isNew, m, st₁⟩ := rest
  simp only [hget, Prod.mk.injEq] at h
  obtain ⟨rfl, rfl, rfl⟩ := h
  obtain ⟨hleaf, hle, hat, hholds⟩ := getOrAskEdge_spec hst hmemo hkey hfun hget
  exact ⟨hleaf, hle, hat, hupdate isNew m st₁ hle hholds⟩

variable {n m r : NodeId} {p : ProcId} {x y z q : String} {d t : FactId} {i j : D}

theorem asks_normalEdge (hst : s.store.Regular) (h : AnswersOk A s) (hn : s.HasNode n x)
    (hm : s.HasNode m y) (hd : s.HasFact d i) (ht : s.HasFact t j) :
    Asks A (fun a st => a.normalEdge A.problem st x i y j (pack n.val m.val, factPair d t))
      (A.problem.normalEdge x i y j) s := by
  refine asks_of_memo (fun a isNew memo => { a with
      normalEdges := memo, questions := (.normalEdge x i y j, isNew) :: a.questions })
    hst (fun _ _ => rfl) h.normalEdge ⟨x, y, i, j, ?_, ?_, ?_, ?_, rfl⟩ ?_
    fun _ _ _ hle hmemo => { h.withStore hle with normalEdge := hmemo }
  · rw [unpack_pack]; exact hn
  · rw [unpack_pack]; exact hm
  · rw [unpackFacts_factPair]; exact hd
  · rw [unpackFacts_factPair]; exact ht
  · rintro e ⟨x', y', i', j', hx, hy, hi, hj, rfl⟩
    simp only [unpack_pack, unpackFacts_factPair] at hx hy hi hj
    rw [Option.some.inj (hn.symm.trans hx), Option.some.inj (hm.symm.trans hy),
      Option.some.inj (hd.symm.trans hi), Option.some.inj (ht.symm.trans hj)]

theorem asks_callEdge (hst : s.store.Regular) (h : AnswersOk A s) (hn : s.HasNode n x)
    (hp : s.HasProc p q) (hd : s.HasFact d i) (ht : s.HasFact t j) :
    Asks A (fun a st => a.callEdge A.problem st x i q j (pack n.val p.val, factPair d t))
      (A.problem.callEdge x i q j) s := by
  refine asks_of_memo (fun a isNew memo => { a with
      callEdges := memo, questions := (.callEdge x i q j, isNew) :: a.questions })
    hst (fun _ _ => rfl) h.callEdge ⟨x, q, i, j, ?_, ?_, ?_, ?_, rfl⟩ ?_
    fun _ _ _ hle hmemo => { h.withStore hle with callEdge := hmemo }
  · rw [unpack_pack]; exact hn
  · rw [unpack_pack]; exact hp
  · rw [unpackFacts_factPair]; exact hd
  · rw [unpackFacts_factPair]; exact ht
  · rintro e ⟨x', q', i', j', hx, hq, hi, hj, rfl⟩
    simp only [unpack_pack, unpackFacts_factPair] at hx hq hi hj
    rw [Option.some.inj (hn.symm.trans hx), Option.some.inj (hp.symm.trans hq),
      Option.some.inj (hd.symm.trans hi), Option.some.inj (ht.symm.trans hj)]

theorem asks_returnEdge (hg : A.graph.Consistent) (hst : s.store.Regular) (h : AnswersOk A s)
    (hn : s.HasNode n x) (hr : s.HasNode r z) (hm : s.HasNode m y) (hexit : A.graph.ExitOf q z)
    (hd : s.HasFact d i) (ht : s.HasFact t j) :
    Asks A (fun a st => a.returnEdge A.problem st x q z i y j
      (pack n.val r.val, m, factPair d t)) (A.problem.returnEdge x q z i y j) s := by
  refine asks_of_memo (fun a isNew memo => { a with
      returnEdges := memo, questions := (.returnEdge x q z i y j, isNew) :: a.questions })
    hst (fun _ _ => rfl) h.returnEdge
    ⟨x, z, y, q, i, j, ?_, ?_, hm, hexit, ?_, ?_, rfl⟩ ?_
    fun _ _ _ hle hmemo => { h.withStore hle with returnEdge := hmemo }
  · rw [unpack_pack]; exact hn
  · rw [unpack_pack]; exact hr
  · rw [unpackFacts_factPair]; exact hd
  · rw [unpackFacts_factPair]; exact ht
  · rintro e ⟨x', z', y', q', i', j', hx, hz, hy, hexit', hi, hj, rfl⟩
    simp only [unpack_pack, unpackFacts_factPair] at hx hz hy hi hj
    obtain rfl := Option.some.inj (hr.symm.trans hz)
    rw [Option.some.inj (hn.symm.trans hx), Option.some.inj (hm.symm.trans hy),
      Option.some.inj (hd.symm.trans hi), Option.some.inj (ht.symm.trans hj),
      hexit.unique hg hexit']

theorem asks_bypassEdge (hst : s.store.Regular) (h : AnswersOk A s) (hn : s.HasNode n x)
    (hm : s.HasNode m y) {ps : List String} (hps : A.graph.callees x = .ok ps)
    (hd : s.HasFact d i) (ht : s.HasFact t j) :
    Asks A (fun a st => a.bypassEdge A.problem st x i y j ps
      (pack n.val m.val, factPair d t)) (A.problem.bypassEdge x i y j ps) s := by
  refine asks_of_memo (fun a isNew memo => { a with
      bypassEdges := memo, questions := (.bypassEdge x i y j ps, isNew) :: a.questions })
    hst (fun _ _ => rfl) h.bypassEdge
    ⟨x, y, i, j, ps, ?_, ?_, ?_, ?_, hps, rfl⟩ ?_
    fun _ _ _ hle hmemo => { h.withStore hle with bypassEdge := hmemo }
  · rw [unpack_pack]; exact hn
  · rw [unpack_pack]; exact hm
  · rw [unpackFacts_factPair]; exact hd
  · rw [unpackFacts_factPair]; exact ht
  · rintro e ⟨x', y', i', j', ps', hx, hy, hi, hj, hps', rfl⟩
    simp only [unpack_pack, unpackFacts_factPair] at hx hy hi hj
    obtain rfl := Option.some.inj (hn.symm.trans hx)
    rw [Option.some.inj (hm.symm.trans hy), Option.some.inj (hd.symm.trans hi),
      Option.some.inj (ht.symm.trans hj), Except.ok.inj (hps.symm.trans hps')]

theorem asks_summaryEdge (hst : s.store.Regular) (h : AnswersOk A s) (hn : s.HasNode n x)
    (hm : s.HasNode m y) (hd : s.HasFact d i) (ht : s.HasFact t j) :
    Asks A (fun a st => a.summaryEdge A.problem st x i y j (pack n.val m.val, factPair d t))
      (A.problem.summaryEdge x i y j) s := by
  refine asks_of_memo (fun a isNew memo => { a with
      summaryEdges := memo, questions := (.summaryEdge x i y j, isNew) :: a.questions })
    hst (fun _ _ => rfl) h.summaryEdge ⟨x, y, i, j, ?_, ?_, ?_, ?_, rfl⟩ ?_
    fun _ _ _ hle hmemo => { h.withStore hle with summaryEdge := hmemo }
  · rw [unpack_pack]; exact hn
  · rw [unpack_pack]; exact hm
  · rw [unpackFacts_factPair]; exact hd
  · rw [unpackFacts_factPair]; exact ht
  · rintro e ⟨x', y', i', j', hx, hy, hi, hj, rfl⟩
    simp only [unpack_pack, unpackFacts_factPair] at hx hy hi hj
    rw [Option.some.inj (hn.symm.trans hx), Option.some.inj (hm.symm.trans hy),
      Option.some.inj (hd.symm.trans hi), Option.some.inj (ht.symm.trans hj)]

end Edges

end Tabulation
