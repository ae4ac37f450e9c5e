import Tabulation.Proofs.Solver.Answers

/-!
# Look-ups under the keys of their questions

A program looks answers up with arguments and a key of its own making. `LookUp` says how the ten
kinds of look-ups are made in a run: the key is packed from the numbers of the arguments, the callee
of a return owns the exit point, and all callees of the site are passed over. Return and bypass keys
leave the callees out, so the last two are needed for a key to determine its question.
-/

namespace Tabulation

variable {D L K : Type}

/-! ## Which keys have answers -/

/-- There is an answer under the key. -/
def Memo.Has {κ α : Type} [Ord κ] (m : Memo κ α) (k : κ) : Prop := ∃ a, m.table[k]? = some a

section Memo

variable {κ α : Type} [Ord κ] [Std.TransOrd κ] [Std.LawfulEqOrd κ] [DecidableEq κ]

theorem Memo.has_insert (m : Memo κ α) (key : κ) (a : α) {k : κ} :
    (m.insert key a).Has k ↔ key = k ∨ m.Has k := by
  unfold Memo.Has Memo.insert
  rw [getElem?_insert_eq]
  by_cases hk : key = k
  · simp [hk]
  · simp [hk]

/-- The client is asked only if there is no answer; afterwards there is one. -/
theorem Memo.getOrAsk_has (m : Memo κ α) (key : κ) (ask : Unit → α) :
    ((m.getOrAsk key ask).2.1 = true → ¬m.Has key) ∧
      ∀ k, (m.getOrAsk key ask).2.2.Has k ↔ key = k ∨ m.Has k := by
  unfold Memo.getOrAsk Memo.lookup
  cases hm : m.table[key]? with
  | some a => exact ⟨nofun, fun k => ⟨.inr, fun h => h.elim (fun hk => hk ▸ ⟨a, hm⟩) id⟩⟩
  | none =>
    refine ⟨fun _ h => ?_, fun k => Memo.has_insert { m with misses := m.misses + 1 } key _⟩
    obtain ⟨a, ha⟩ := h
    rw [hm] at ha
    cases ha

end Memo

/-- No flow function is forgotten. -/
structure Answers.KeepsFlows (a b : Answers D) : Prop where
  normalFlow : ∀ k, a.normalFlows.Has k → b.normalFlows.Has k
  callFlow : ∀ k, a.callFlows.Has k → b.callFlows.Has k
  returnFlow : ∀ k, a.returnFlows.Has k → b.returnFlows.Has k
  bypassFlow : ∀ k, a.bypassFlows.Has k → b.bypassFlows.Has k
  summaryFlow : ∀ k, a.summaryFlows.Has k → b.summaryFlows.Has k

/-- No edge function is forgotten. -/
structure Answers.KeepsEdges (a b : Answers D) : Prop where
  normalEdge : ∀ k, a.normalEdges.Has k → b.normalEdges.Has k
  callEdge : ∀ k, a.callEdges.Has k → b.callEdges.Has k
  returnEdge : ∀ k, a.returnEdges.Has k → b.returnEdges.Has k
  bypassEdge : ∀ k, a.bypassEdges.Has k → b.bypassEdges.Has k
  summaryEdge : ∀ k, a.summaryEdges.Has k → b.summaryEdges.Has k

theorem Answers.KeepsFlows.refl (a : Answers D) : a.KeepsFlows a := by
  constructor <;> exact fun _ h => h

theorem Answers.KeepsEdges.refl (a : Answers D) : a.KeepsEdges a := by
  constructor <;> exact fun _ h => h

variable [Ord D] [Ord L] [Ord K]

/-- The question has an answer under its key. -/
def State.Remembers (s : State D L K) : Query D → Prop
  | .normalFlow x y => ∃ n m, s.HasNode n x ∧ s.HasNode m y ∧
      s.answers.normalFlows.Has (pack n.val m.val)
  | .callFlow x q => ∃ n p, s.HasNode n x ∧ s.HasProc p q ∧
      s.answers.callFlows.Has (pack n.val p.val)
  | .returnFlow x _ z y => ∃ n r m, s.HasNode n x ∧ s.HasNode r z ∧ s.HasNode m y ∧
      s.answers.returnFlows.Has (pack n.val r.val, m)
  | .bypassFlow x y _ => ∃ n m, s.HasNode n x ∧ s.HasNode m y ∧
      s.answers.bypassFlows.Has (pack n.val m.val)
  | .summaryFlow x q => ∃ n p, s.HasNode n x ∧ s.HasProc p q ∧
      s.answers.summaryFlows.Has (pack n.val p.val)
  | .normalEdge x i y j => ∃ n m d t, s.HasNode n x ∧ s.HasNode m y ∧ s.HasFact d i ∧
      s.HasFact t j ∧ s.answers.normalEdges.Has (pack n.val m.val, factPair d t)
  | .callEdge x i q j => ∃ n p d t, s.HasNode n x ∧ s.HasProc p q ∧ s.HasFact d i ∧
      s.HasFact t j ∧ s.answers.callEdges.Has (pack n.val p.val, factPair d t)
  | .returnEdge x _ z i y j => ∃ n r m d t, s.HasNode n x ∧ s.HasNode r z ∧ s.HasNode m y ∧
      s.HasFact d i ∧ s.HasFact t j ∧
      s.answers.returnEdges.Has (pack n.val r.val, m, factPair d t)
  | .bypassEdge x i y j _ => ∃ n m d t, s.HasNode n x ∧ s.HasNode m y ∧ s.HasFact d i ∧
      s.HasFact t j ∧ s.answers.bypassEdges.Has (pack n.val m.val, factPair d t)
  | .summaryEdge x i y j => ∃ n m d t, s.HasNode n x ∧ s.HasNode m y ∧ s.HasFact d i ∧
      s.HasFact t j ∧ s.answers.summaryEdges.Has (pack n.val m.val, factPair d t)

/-- An answer stays where it is while names and its table stay. -/
theorem State.Remembers.mono {s t : State D L K} {q : Query D} (h : s.Remembers q)
    (hn : s.nodes ≤ t.nodes) (hd : s.facts ≤ t.facts) (hp : s.procs ≤ t.procs)
    (hflows : s.answers.KeepsFlows t.answers)
    (hedges : q.getter.isFlow = false → s.answers.KeepsEdges t.answers) : t.Remembers q := by
  cases q with
  | normalFlow x y =>
    obtain ⟨n, m, hx, hy, hk⟩ := h
    exact ⟨n, m, hn _ _ hx, hn _ _ hy, hflows.normalFlow _ hk⟩
  | callFlow x q =>
    obtain ⟨n, p, hx, hq, hk⟩ := h
    exact ⟨n, p, hn _ _ hx, hp _ _ hq, hflows.callFlow _ hk⟩
  | returnFlow x q z y =>
    obtain ⟨n, r, m, hx, hz, hy, hk⟩ := h
    exact ⟨n, r, m, hn _ _ hx, hn _ _ hz, hn _ _ hy, hflows.returnFlow _ hk⟩
  | bypassFlow x y ps =>
    obtain ⟨n, m, hx, hy, hk⟩ := h
    exact ⟨n, m, hn _ _ hx, hn _ _ hy, hflows.bypassFlow _ hk⟩
  | summaryFlow x q =>
    obtain ⟨n, p, hx, hq, hk⟩ := h
    exact ⟨n, p, hn _ _ hx, hp _ _ hq, hflows.summaryFlow _ hk⟩
  | normalEdge x i y j =>
    obtain ⟨n, m, d, t, hx, hy, hi, hj, hk⟩ := h
    exact ⟨n, m, d, t, hn _ _ hx, hn _ _ hy, hd _ _ hi, hd _ _ hj, (hedges rfl).normalEdge _ hk⟩
  | callEdge x i q j =>
    obtain ⟨n, p, d, t, hx, hq, hi, hj, hk⟩ := h
    exact ⟨n, p, d, t, hn _ _ hx, hp _ _ hq, hd _ _ hi, hd _ _ hj, (hedges rfl).callEdge _ hk⟩
  | returnEdge x q z i y j =>
    obtain ⟨n, r, m, d, t, hx, hz, hy, hi, hj, hk⟩ := h
    exact ⟨n, r, m, d, t, hn _ _ hx, hn _ _ hz, hn _ _ hy, hd _ _ hi, hd _ _ hj,
      (hedges rfl).returnEdge _ hk⟩
  | bypassEdge x i y j ps =>
    obtain ⟨n, m, d, t, hx, hy, hi, hj, hk⟩ := h
    exact ⟨n, m, d, t, hn _ _ hx, hn _ _ hy, hd _ _ hi, hd _ _ hj, (hedges rfl).bypassEdge _ hk⟩
  | summaryEdge x i y j =>
    obtain ⟨n, m, d, t, hx, hy, hi, hj, hk⟩ := h
    exact ⟨n, m, d, t, hn _ _ hx, hn _ _ hy, hd _ _ hi, hd _ _ hj, (hedges rfl).summaryEdge _ hk⟩

/-! ## What a look-up does -/

/-- What the key of a question leaves out is what the supergraph says: the callee of a return owns
the exit point, and all callees of a site are passed over. -/
def Query.FromGraph (A : Analysis D L K) : Query D → Prop
  | .returnFlow _ callee exit _ | .returnEdge _ callee exit _ _ _ => A.graph.ExitOf callee exit
  | .bypassFlow site _ callees | .bypassEdge site _ _ _ callees =>
    A.graph.callees site = .ok callees
  | _ => True

/-- The question `q` was answered, by the client only if no answer was there. -/
structure Answered (A : Analysis D L K) (s t : State D L K) (q : Query D) (isNew : Bool) :
    Prop where
  nodes : t.nodes = s.nodes
  facts : t.facts = s.facts
  procs : t.procs = s.procs
  log : t.answers.questions = (q, isNew) :: s.answers.questions
  fromGraph : q.FromGraph A
  new : isNew = true → ¬s.Remembers q
  found : t.Remembers q
  flows : s.answers.KeepsFlows t.answers
  edges : s.answers.KeepsEdges t.answers

/-- The ten kinds of questions differ in the table and in the key. -/
theorem Answered.of_memo {A : Analysis D L K} {s t : State D L K} {q : Query D} {isNew : Bool}
    {κ α : Type} [Ord κ] {m m' : Memo κ α} {key : κ}
    (hmemo : (isNew = true → ¬m.Has key) ∧ ∀ k, m'.Has k ↔ key = k ∨ m.Has k)
    (hn : t.nodes = s.nodes) (hd : t.facts = s.facts) (hp : t.procs = s.procs)
    (hlog : t.answers.questions = (q, isNew) :: s.answers.questions) (hq : q.FromGraph A)
    (hs : s.Remembers q → m.Has key) (ht : m'.Has key → t.Remembers q)
    (hflows : (∀ k, m.Has k → m'.Has k) → s.answers.KeepsFlows t.answers)
    (hedges : (∀ k, m.Has k → m'.Has k) → s.answers.KeepsEdges t.answers) :
    Answered A s t q isNew := by
  obtain ⟨hnew, hhas⟩ := hmemo
  have hkeep : ∀ k, m.Has k → m'.Has k := fun k hk => (hhas k).2 (.inr hk)
  exact ⟨hn, hd, hp, hlog, hq, fun h hrem => hnew h (hs hrem), ht ((hhas key).2 (.inl rfl)),
    hflows hkeep, hedges hkeep⟩

/-! ## Look-ups -/

variable [JoinLattice L] [DecidableEq L] [Payload K L] {A : Analysis D L K} {s t : State D L K}

theorem getOrAskEdge_has {κ : Type} [Ord κ] [Std.TransOrd κ] [Std.LawfulEqOrd κ] [DecidableEq κ]
    (m : Memo κ EdgeRef) (key : κ) (st : EdgeStore L K)
    (ask : Unit → EdgeFunction L K) :
    ((Answers.getOrAskEdge m key st ask).2.1 = true → ¬m.Has key) ∧
      ∀ k, (Answers.getOrAskEdge m key st ask).2.2.1.Has k ↔ key = k ∨ m.Has k := by
  unfold Answers.getOrAskEdge Memo.lookup
  cases hm : m.table[key]? with
  | some a => exact ⟨nofun, fun k => ⟨.inr, fun h => h.elim (fun hk => hk ▸ ⟨a, hm⟩) id⟩⟩
  | none =>
    refine ⟨fun _ h => ?_, fun k => Memo.has_insert { m with misses := m.misses + 1 } key _⟩
    obtain ⟨a, ha⟩ := h
    rw [hm] at ha
    cases ha

/-- The state with the answers and the store after a question for an edge function. -/
def State.answer (s : State D L K) (r : EdgeRef × Answers D × EdgeStore L K) : State D L K :=
  { s with answers := r.2.1, store := r.2.2 }

/-- The state after an answer was looked up under the key of its question. -/
inductive LookUp (A : Analysis D L K) (s : State D L K) : State D L K → Prop
  | normalFlow {n m : NodeId} {x y : String} : s.HasNode n x → s.HasNode m y →
      LookUp A s { s with
        answers := (s.answers.normalFlow A.problem x y (pack n.val m.val)).2 }
  | callFlow {n : NodeId} {p : ProcId} {x q : String} : s.HasNode n x → s.HasProc p q →
      LookUp A s { s with
        answers := (s.answers.callFlow A.problem x q (pack n.val p.val)).2 }
  | returnFlow {n r m : NodeId} {x q z y : String} : s.HasNode n x → s.HasNode r z →
      s.HasNode m y → A.graph.ExitOf q z →
      LookUp A s { s with
        answers := (s.answers.returnFlow A.problem x q z y (pack n.val r.val, m)).2 }
  | bypassFlow {n m : NodeId} {x y : String} {ps : List String} : s.HasNode n x →
      s.HasNode m y → A.graph.callees x = .ok ps →
      LookUp A s { s with
        answers := (s.answers.bypassFlow A.problem x y ps (pack n.val m.val)).2 }
  | summaryFlow {n : NodeId} {p : ProcId} {x q : String} : s.HasNode n x → s.HasProc p q →
      LookUp A s { s with
        answers := (s.answers.summaryFlow A.problem x q (pack n.val p.val)).2 }
  | normalEdge {n m : NodeId} {x y : String} {d t : FactId} {i j : D} : s.HasNode n x →
      s.HasNode m y → s.HasFact d i → s.HasFact t j →
      LookUp A s (s.answer (s.answers.normalEdge A.problem s.store x i y j
        (pack n.val m.val, factPair d t)))
  | callEdge {n : NodeId} {p : ProcId} {x q : String} {d t : FactId} {i j : D} :
      s.HasNode n x → s.HasProc p q → s.HasFact d i → s.HasFact t j →
      LookUp A s (s.answer (s.answers.callEdge A.problem s.store x i q j
        (pack n.val p.val, factPair d t)))
  | returnEdge {n r m : NodeId} {x q z y : String} {d t : FactId} {i j : D} : s.HasNode n x →
      s.HasNode r z → s.HasNode m y → A.graph.ExitOf q z → s.HasFact d i → s.HasFact t j →
      LookUp A s (s.answer (s.answers.returnEdge A.problem s.store x q z i y j
        (pack n.val r.val, m, factPair d t)))
  | bypassEdge {n m : NodeId} {x y : String} {ps : List String} {d t : FactId} {i j : D} :
      s.HasNode n x → s.HasNode m y → A.graph.callees x = .ok ps → s.HasFact d i →
      s.HasFact t j →
      LookUp A s (s.answer (s.answers.bypassEdge A.problem s.store x i y j ps
        (pack n.val m.val, factPair d t)))
  | summaryEdge {n m : NodeId} {x y : String} {d t : FactId} {i j : D} : s.HasNode n x →
      s.HasNode m y → s.HasFact d i → s.HasFact t j →
      LookUp A s (s.answer (s.answers.summaryEdge A.problem s.store x i y j
        (pack n.val m.val, factPair d t)))

/-- Names have one number, so the key of a question is the only one under which it can be found. -/
theorem LookUp.answered (h : LookUp A s t) (hn : s.nodes.Wf) (hd : s.facts.Wf) (hp : s.procs.Wf) :
    ∃ q isNew, Answered A s t q isNew := by
  have node : ∀ {n n' : NodeId} {x : String}, s.HasNode n x → s.HasNode n' x → n = n' :=
    fun h h' => congrArg NodeId.mk (Interner.get?_inj hn h h')
  have fact : ∀ {d d' : FactId} {i : D}, s.HasFact d i → s.HasFact d' i → d = d' :=
    fun h h' => congrArg FactId.mk (Interner.get?_inj hd h h')
  have proc : ∀ {p p' : ProcId} {q : String}, s.HasProc p q → s.HasProc p' q → p = p' :=
    fun h h' => congrArg ProcId.mk (Interner.get?_inj hp h h')
  cases h with
  | @normalFlow n m x y hx hy =>
    have hmemo := s.answers.normalFlows.getOrAsk_has (pack n.val m.val)
      fun _ => A.problem.normalFlow x y
    refine ⟨.normalFlow x y, _, .of_memo hmemo rfl rfl rfl rfl trivial ?_
      (fun hk => ⟨n, m, hx, hy, hk⟩)
      (fun hk => { Answers.KeepsFlows.refl _ with normalFlow := hk })
      fun _ => { Answers.KeepsEdges.refl _ with }⟩
    intro ⟨n', m', hx', hy', hk⟩
    rwa [node hx hx', node hy hy']
  | @callFlow n p x q hx hq =>
    have hmemo := s.answers.callFlows.getOrAsk_has (pack n.val p.val)
      fun _ => A.problem.callFlow x q
    refine ⟨.callFlow x q, _, .of_memo hmemo rfl rfl rfl rfl trivial ?_
      (fun hk => ⟨n, p, hx, hq, hk⟩)
      (fun hk => { Answers.KeepsFlows.refl _ with callFlow := hk })
      fun _ => { Answers.KeepsEdges.refl _ with }⟩
    intro ⟨n', p', hx', hq', hk⟩
    rwa [node hx hx', proc hq hq']
  | @returnFlow n r m x q z y hx hz hy hexit =>
    have hmemo := s.answers.returnFlows.getOrAsk_has (pack n.val r.val, m)
      fun _ => A.problem.returnFlow x q z y
    refine ⟨.returnFlow x q z y, _, .of_memo hmemo rfl rfl rfl rfl hexit ?_
      (fun hk => ⟨n, r, m, hx, hz, hy, hk⟩)
      (fun hk => { Answers.KeepsFlows.refl _ with returnFlow := hk })
      fun _ => { Answers.KeepsEdges.refl _ with }⟩
    intro ⟨n', r', m', hx', hz', hy', hk⟩
    rwa [node hx hx', node hz hz', node hy hy']
  | @bypassFlow n m x y ps hx hy hps =>
    have hmemo := s.answers.bypassFlows.getOrAsk_has (pack n.val m.val)
      fun _ => A.problem.bypassFlow x y ps
    refine ⟨.bypassFlow x y ps, _, .of_memo hmemo rfl rfl rfl rfl hps ?_
      (fun hk => ⟨n, m, hx, hy, hk⟩)
      (fun hk => { Answers.KeepsFlows.refl _ with bypassFlow := hk })
      fun _ => { Answers.KeepsEdges.refl _ with }⟩
    intro ⟨n', m', hx', hy', hk⟩
    rwa [node hx hx', node hy hy']
  | @summaryFlow n p x q hx hq =>
    have hmemo := s.answers.summaryFlows.getOrAsk_has (pack n.val p.val)
      fun _ => A.problem.summaryFlow x q
    refine ⟨.summaryFlow x q, _, .of_memo hmemo rfl rfl rfl rfl trivial ?_
      (fun hk => ⟨n, p, hx, hq, hk⟩)
      (fun hk => { Answers.KeepsFlows.refl _ with summaryFlow := hk })
      fun _ => { Answers.KeepsEdges.refl _ with }⟩
    intro ⟨n', p', hx', hq', hk⟩
    rwa [node hx hx', proc hq hq']
  | @normalEdge n m x y d t i j hx hy hi hj =>
    have hmemo := getOrAskEdge_has s.answers.normalEdges (pack n.val m.val, factPair d t) s.store
      fun _ => A.problem.normalEdge x i y j
    refine ⟨.normalEdge x i y j, _, .of_memo hmemo rfl rfl rfl rfl trivial ?_
      (fun hk => ⟨n, m, d, t, hx, hy, hi, hj, hk⟩)
      (fun _ => { Answers.KeepsFlows.refl _ with })
      fun hk => { Answers.KeepsEdges.refl _ with normalEdge := hk }⟩
    intro ⟨n', m', d', t', hx', hy', hi', hj', hk⟩
    rwa [node hx hx', node hy hy', fact hi hi', fact hj hj']
  | @callEdge n p x q d t i j hx hq hi hj =>
    have hmemo := getOrAskEdge_has s.answers.callEdges (pack n.val p.val, factPair d t) s.store
      fun _ => A.problem.callEdge x i q j
    refine ⟨.callEdge x i q j, _, .of_memo hmemo rfl rfl rfl rfl trivial ?_
      (fun hk => ⟨n, p, d, t, hx, hq, hi, hj, hk⟩)
      (fun _ => { Answers.KeepsFlows.refl _ with })
      fun hk => { Answers.KeepsEdges.refl _ with callEdge := hk }⟩
    intro ⟨n', p', d', t', hx', hq', hi', hj', hk⟩
    rwa [node hx hx', proc hq hq', fact hi hi', fact hj hj']
  | @returnEdge n r m x q z y d t i j hx hz hy hexit hi hj =>
    have hmemo := getOrAskEdge_has s.answers.returnEdges (pack n.val r.val, m, factPair d t) s.store
      fun _ => A.problem.returnEdge x q z i y j
    refine ⟨.returnEdge x q z i y j, _, .of_memo hmemo rfl rfl rfl rfl hexit ?_
      (fun hk => ⟨n, r, m, d, t, hx, hz, hy, hi, hj, hk⟩)
      (fun _ => { Answers.KeepsFlows.refl _ with })
      fun hk => { Answers.KeepsEdges.refl _ with returnEdge := hk }⟩
    intro ⟨n', r', m', d', t', hx', hz', hy', hi', hj', hk⟩
    rwa [node hx hx', node hz hz', node hy hy', fact hi hi', fact hj hj']
  | @bypassEdge n m x y ps d t i j hx hy hps hi hj =>
    have hmemo := getOrAskEdge_has s.answers.bypassEdges (pack n.val m.val, factPair d t) s.store
      fun _ => A.problem.bypassEdge x i y j ps
    refine ⟨.bypassEdge x i y j ps, _, .of_memo hmemo rfl rfl rfl rfl hps ?_
      (fun hk => ⟨n, m, d, t, hx, hy, hi, hj, hk⟩)
      (fun _ => { Answers.KeepsFlows.refl _ with })
      fun hk => { Answers.KeepsEdges.refl _ with bypassEdge := hk }⟩
    intro ⟨n', m', d', t', hx', hy', hi', hj', hk⟩
    rwa [node hx hx', node hy hy', fact hi hi', fact hj hj']
  | @summaryEdge n m x y d t i j hx hy hi hj =>
    have hmemo := getOrAskEdge_has s.answers.summaryEdges (pack n.val m.val, factPair d t) s.store
      fun _ => A.problem.summaryEdge x i y j
    refine ⟨.summaryEdge x i y j, _, .of_memo hmemo rfl rfl rfl rfl trivial ?_
      (fun hk => ⟨n, m, d, t, hx, hy, hi, hj, hk⟩)
      (fun _ => { Answers.KeepsFlows.refl _ with })
      fun hk => { Answers.KeepsEdges.refl _ with summaryEdge := hk }⟩
    intro ⟨n', m', d', t', hx', hy', hi', hj', hk⟩
    rwa [node hx hx', node hy hy', fact hi hi', fact hj hj']

/-- A look-up keeps the answers of the client under their keys. -/
theorem LookUp.answersOk [Std.TransOrd L] [Std.LawfulEqOrd L] [Std.TransOrd K] [Std.LawfulEqOrd K]
    (h : LookUp A s t) (hg : A.graph.Consistent) (hst : s.store.Regular)
    (hs : AnswersOk A s) : AnswersOk A t := by
  cases h with
  | normalFlow hn hm => exact (hs.ask_normalFlow hn hm).2
  | callFlow hn hp => exact (hs.ask_callFlow hn hp).2
  | returnFlow hn hr hm hexit => exact (hs.ask_returnFlow hg hn hr hm hexit).2
  | bypassFlow hn hm hps => exact (hs.ask_bypassFlow hn hm hps).2
  | summaryFlow hn hp => exact (hs.ask_summaryFlow hn hp).2
  | normalEdge hn hm hd ht => exact (asks_normalEdge hst hs hn hm hd ht _ _ _ rfl).2.2.2
  | callEdge hn hp hd ht => exact (asks_callEdge hst hs hn hp hd ht _ _ _ rfl).2.2.2
  | returnEdge hn hr hm hexit hd ht =>
    exact (asks_returnEdge hg hst hs hn hr hm hexit hd ht _ _ _ rfl).2.2.2
  | bypassEdge hn hm hps hd ht => exact (asks_bypassEdge hst hs hn hm hps hd ht _ _ _ rfl).2.2.2
  | summaryEdge hn hm hd ht => exact (asks_summaryEdge hst hs hn hm hd ht _ _ _ rfl).2.2.2

end Tabulation
