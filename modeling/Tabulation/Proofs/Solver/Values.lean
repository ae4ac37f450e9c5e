import Tabulation.Proofs.Solver.Complete
import Tabulation.Proofs.ValueTable

/-!
# Values at nodes

**Start points.** Each value that arrives at a start point is joined into it, and what is new is
`Sent` along the recorded calls. `Visited` is what holds while start points are visited: seeds and
sent values are pending or `Received`, and the values that were joined have any property that seeds
have and that joins and calls keep.

**Other nodes.** There each path edge `Feeds` the value of its source, taken through its label, to
its target. `Accumulates` says that the values are the joins of what was fed to them.

`evaluated_spec` puts the two together.
-/

namespace Tabulation

variable {σ D L K : Type} [ValueCode σ L]

namespace Evaluation

/-- A fact at a start point was visited. -/
def Seen (e : Evaluation σ L) (n : NodeId) (d : FactId) : Prop :=
  e.seen.contains (pack n.val d.val) = true

/-- Only jobs were added to the queue. -/
structure Pushed (J : ValueJob L → Prop) (e e' : Evaluation σ L) : Prop where
  same : e' = { e with queue := e'.queue }
  mem : ∀ job, job ∈ e'.queue.toList ↔ job ∈ e.queue.toList ∨ J job

theorem Pushed.congr {J J' : ValueJob L → Prop} {e e' : Evaluation σ L} (h : Pushed J e e')
    (hJ : ∀ job, J job ↔ J' job) : Pushed J' e e' :=
  ⟨h.same, fun job => by rw [h.mem, hJ]⟩

theorem Pushed.foldlM {α : Type} {J : α → ValueJob L → Prop} {l : List α}
    {f : Evaluation σ L → α → Except Fault (Evaluation σ L)} {e e' : Evaluation σ L}
    (hf : ∀ a ∈ l, ∀ e e', f e a = .ok e' → Pushed (J a) e e') (h : l.foldlM f e = .ok e') :
    Pushed (fun job => ∃ a ∈ l, J a job) e e' := by
  refine foldlM_ok (fun done e' => Pushed (fun job => ∃ a ∈ done, J a job) e e') h
    ⟨rfl, fun job => by simp⟩ fun done a e₁ e₂ ha h₁ h₂ => ?_
  have h₂ := hf a ha e₁ e₂ h₂
  refine ⟨?_, fun job => ?_⟩
  · rw [h₂.same, h₁.same]
  · rw [h₂.mem, h₁.mem, or_assoc]
    simp [or_and_right, exists_or]

end Evaluation

variable [Ord D] [Ord L] [Ord K] {A : Analysis D L K} {s : State D L K} {e e' : Evaluation σ L}
  {values V t t' : ValueTable σ L} {fact : FactId} {value : L}

namespace Solver

theorem enqueue_spec (hs : s.nodes.Wf) {callee : String}
    (h : enqueue A s e callee fact value = .ok e') :
    e.Pushed (fun job => (∃ sp, s.HasNode job.node sp ∧ A.graph.StartOf callee sp) ∧
      job.fact = fact ∧ job.value = value) e' := by
  rw [enqueue, bind_eq_ok] at h
  obtain ⟨starts, hstarts, h⟩ := h
  rw [← List.foldlM_pure] at h
  have hpushed := Evaluation.Pushed.foldlM (J := fun sp job => s.HasNode job.node sp ∧
    job.fact = fact ∧ job.value = value) (fun sp _ e₁ e₂ h₂ => ?_) h
  · refine hpushed.congr fun job => ?_
    constructor
    · rintro ⟨sp, hsp, hn, hd, hv⟩
      exact ⟨⟨sp, hn, starts, hstarts, hsp⟩, hd, hv⟩
    · rintro ⟨⟨sp, hn, starts', hstarts', hsp⟩, hd, hv⟩
      obtain rfl := Except.ok.inj (hstarts.symm.trans hstarts')
      exact ⟨sp, hsp, hn, hd, hv⟩
  · cases hid : s.nodes.find? sp with
    | some id =>
      simp only [hid, pure_eq_ok] at h₂
      subst h₂
      refine ⟨rfl, fun job => ?_⟩
      simp only [Worklist.toList_push, List.mem_append, List.mem_singleton]
      refine or_congr_right ?_
      constructor
      · rintro rfl
        exact ⟨(Interner.find?_eq_some hs).1 hid, rfl, rfl⟩
      · rintro ⟨hn, rfl, rfl⟩
        have hjob : job.node = ⟨id⟩ := congrArg NodeId.mk
          (Interner.get?_inj hs hn ((Interner.find?_eq_some hs).1 hid))
        rw [← hjob]
    | none =>
      simp only [hid, pure_eq_ok] at h₂
      subst h₂
      refine ⟨rfl, fun job => ⟨.inl, fun h => h.resolve_right ?_⟩⟩
      rintro ⟨hn, -⟩
      rw [(Interner.find?_eq_some hs).2 hn] at hid
      cases hid

end Solver

variable [JoinLattice L]

/-- A value is pending, or was joined into its start point. -/
def Evaluation.Received (e : Evaluation σ L) (job : ValueJob L) : Prop :=
  job ∈ e.queue.toList ∨
    e.Seen job.node job.fact ∧ Below job.value (e.values.get job.node job.fact)

/-! ## Other nodes -/

section Accumulates

variable [LawfulCode σ L] {F F' : NodeId → FactId → L → Prop}

/-- The node is a start point. -/
def StartPoint (A : Analysis D L K) (s : State D L K) (n : NodeId) : Prop :=
  ∃ sp p, s.HasNode n sp ∧ A.graph.StartOf p sp

/-- Values are those of `V`, joined with what was fed to them. -/
structure Accumulates (A : Analysis D L K) (s : State D L K) (V : ValueTable σ L)
    (F : NodeId → FactId → L → Prop) (t : ValueTable σ L) : Prop where
  wf : t.Wf
  default : t.default = top
  starts : ∀ n d, StartPoint A s n → t.get n d = V.get n d
  below : ∀ n d v, F n d v → Below v (t.get n d)
  join : ∀ n d, ∃ vs, t.get n d = join (V.get n d) (joinAll vs) ∧ ∀ v ∈ vs, F n d v

namespace Accumulates

theorem congr (h : Accumulates A s V F t) (hF : ∀ n d v, F n d v ↔ F' n d v) :
    Accumulates A s V F' t where
  wf := h.wf
  default := h.default
  starts := h.starts
  below n d v hv := h.below n d v ((hF n d v).2 hv)
  join n d := by
    obtain ⟨vs, heq, hvs⟩ := h.join n d
    exact ⟨vs, heq, fun v hv => (hF n d v).1 (hvs v hv)⟩

theorem foldlM {α : Type} {G : α → NodeId → FactId → L → Prop} {l : List α}
    {f : ValueTable σ L → α → Except Fault (ValueTable σ L)}
    (hf : ∀ a ∈ l, ∀ F t t', Accumulates A s V F t → f t a = .ok t' →
      Accumulates A s V (fun n d v => F n d v ∨ G a n d v) t')
    (h : Accumulates A s V F t) (hrun : l.foldlM f t = .ok t') :
    Accumulates A s V (fun n d v => F n d v ∨ ∃ a ∈ l, G a n d v) t' := by
  refine foldlM_ok (fun done t' => Accumulates A s V
    (fun n d v => F n d v ∨ ∃ a ∈ done, G a n d v) t') hrun (h.congr fun n d v => by simp)
    fun done a t₁ t₂ ha h₁ h₂ => (hf a ha _ t₁ t₂ h₁ h₂).congr fun n d v => ?_
  simp [or_assoc, or_and_right, exists_or]

/-- A value is joined into one entry. -/
theorem add [LawfulJoin L] (h : Accumulates A s V F t) {node : NodeId} {b : FactId} {v : L}
    (hnode : ¬ StartPoint A s node) (hwf : t'.Wf) (hdefault : t'.default = t.default)
    (hget : ∀ n d, t'.get n d = if node = n ∧ b = d then
      Tabulation.join (t.get node b) v else t.get n d) :
    Accumulates A s V (fun n d w => F n d w ∨ n = node ∧ d = b ∧ w = v) t' where
  wf := hwf
  default := hdefault.trans h.default
  starts n d hs := by
    rw [hget, if_neg, h.starts n d hs]
    rintro ⟨rfl, -⟩
    exact hnode hs
  below n d w hw := by
    rw [hget]
    split
    · next heq =>
      obtain ⟨rfl, rfl⟩ := heq
      rcases hw with hw | ⟨-, -, rfl⟩
      · exact (h.below _ _ _ hw).trans (below_join_left _ _)
      · exact below_join_right _ _
    · next hne =>
      refine h.below n d w (hw.resolve_right ?_)
      rintro ⟨rfl, rfl, -⟩
      exact hne ⟨rfl, rfl⟩
  join n d := by
    obtain ⟨vs, heq, hvs⟩ := h.join n d
    rw [hget]
    split
    · next hkey =>
      obtain ⟨rfl, rfl⟩ := hkey
      refine ⟨vs ++ [v], ?_, fun w hw => ?_⟩
      · rw [heq, joinAll_append, LawfulJoin.join_assoc, joinAll, joinAll]
        simp only [List.foldl_cons, List.foldl_nil, top_join]
      · rcases List.mem_append.1 hw with hw | hw
        · exact .inl (hvs w hw)
        · exact .inr ⟨rfl, rfl, List.mem_singleton.1 hw⟩
    · exact ⟨vs, heq, fun w hw => .inl (hvs w hw)⟩

end Accumulates

namespace Solver

/-- Everything that was reached has the value top, and nothing else has a value. -/
theorem reachedValues_spec (h : reachedValues s = .ok values) :
    values.Wf ∧ values.default = top ∧ ∀ n d v, values.find? n d = some v ↔
      s.reached.contains (pack n.val d.val) = true ∧ v = top := by
  have hfold : values.Wf ∧ values.default = top ∧ ∀ n d v, values.find? n d = some v ↔
      pack n.val d.val ∈ s.reached.toList ∧ v = top := by
    refine foldlM_ok (fun done (t : ValueTable σ L) => t.Wf ∧ t.default = top ∧ ∀ n d v,
      t.find? n d = some v ↔ pack n.val d.val ∈ done ∧ v = top) h ?_ ?_
    · exact ⟨ValueTable.wf_empty _, rfl, fun n d v => by simp [ValueTable.find?_empty]⟩
    · rintro done key t t' - ⟨hwf, hdefault, hfind⟩ hset
      obtain ⟨hwf', hdefault', hfind'⟩ := ValueTable.set_spec hwf hset
      refine ⟨hwf', hdefault'.trans hdefault, fun n d v => ?_⟩
      have hkey : (⟨(unpack key).1⟩ : NodeId) = n ∧ (⟨(unpack key).2⟩ : FactId) = d ↔
          pack n.val d.val = key := by
        obtain ⟨n⟩ := n
        obtain ⟨d⟩ := d
        rw [NodeId.mk.injEq, FactId.mk.injEq, ← pack_inj, pack_unpack, eq_comm]
      rw [hfind', List.mem_append, List.mem_singleton]
      split
      · next heq => simp [hkey.1 heq, eq_comm]
      · next hne => simp [hfind, mt hkey.2 hne]
  simp only [Std.TreeSet.mem_toList] at hfold
  exact hfold

theorem evaluateEdge_spec [Payload K L] [DecidableEq L] [LawfulJoin L] {start n : NodeId}
    (hs : StartPoint A s start) (hn : ¬ StartPoint A s n) {a b : FactId} {ef : EdgeRef} {φ : L → L}
    (hφ : s.store.Means ef φ) (h : Accumulates A s V F t)
    (hrun : evaluateEdge s start n t (a, b, ef) = .ok t') :
    Accumulates A s V (fun m d v => F m d v ∨ m = n ∧ d = b ∧ v = φ (V.get start a)) t' := by
  unfold evaluateEdge at hrun
  simp only [bind_eq_ok] at hrun
  obtain ⟨v, hev, hrun⟩ := hrun
  rw [h.starts _ _ hs] at hev
  obtain rfl := hφ.eval_eq hev
  split at hrun
  · obtain ⟨hwf, hdefault, -⟩ := ValueTable.set_spec h.wf hrun
    exact h.add hn hwf hdefault (ValueTable.get_set h.wf hrun)
  · next hold =>
    obtain rfl := pure_eq_ok.1 hrun
    obtain ⟨hsame, -⟩ := not_or.1 hold
    refine h.add hn h.wf rfl fun m d => ?_
    split
    · next heq =>
      obtain ⟨rfl, rfl⟩ := heq
      exact (not_not.1 hsame).symm
    · rfl

end Solver

end Accumulates

/-! ## Start points -/

variable [DecidableEq D] [Payload K L] {Good : NodeId → FactId → L → Prop}

/-- The values at the start points of callees that result from a value at the start point of the
caller. -/
def Sent (A : Analysis D L K) (s : State D L K) (n : NodeId) (d : FactId) (v : L)
    (job : ValueJob L) : Prop :=
  ∃ c ∈ s.ledger, ∃ site caller callee source entry χ,
    RecordKnown A s c site caller callee source entry ∧ c.source = d ∧
    (∃ sp, s.HasNode n sp ∧ A.graph.procOf sp = .ok caller) ∧
    (∃ sp, s.HasNode job.node sp ∧ A.graph.StartOf callee sp) ∧
    job.fact = c.entry ∧ s.store.Means c.edge χ ∧ job.value = χ v

/-- A property of values at start points that seeds have, and that joins and calls keep. -/
structure Kept (A : Analysis D L K) (s : State D L K) (Good : NodeId → FactId → L → Prop) :
    Prop where
  seeds : ∀ job ∈ s.seeds, Good job.node job.fact job.value
  join : ∀ n d u v, Good n d u → Good n d v → Good n d (join u v)
  sent : ∀ n d v job, Good n d v → Sent A s n d v job → Good job.node job.fact job.value

theorem Kept.and {Good' : NodeId → FactId → L → Prop} (h : Kept A s Good) (h' : Kept A s Good') :
    Kept A s fun n d v => Good n d v ∧ Good' n d v where
  seeds job hjob := ⟨h.seeds job hjob, h'.seeds job hjob⟩
  join n d u v hu hv := ⟨h.join n d u v hu.1 hv.1, h'.join n d u v hu.2 hv.2⟩
  sent n d v job hv hsent := ⟨h.sent n d v job hv.1 hsent, h'.sent n d v job hv.2 hsent⟩

section Visited

variable [LawfulCode σ L]

/-- What holds while start points are visited. -/
structure Visited (A : Analysis D L K) (s : State D L K) (Good : NodeId → FactId → L → Prop)
    (e : Evaluation σ L) : Prop where
  wf : e.values.Wf
  default : e.values.default = top
  jobs : ∀ job ∈ e.queue.toList, Good job.node job.fact job.value
  seen : ∀ n d, e.Seen n d → Good n d (e.values.get n d)
  unseen : ∀ n d, ¬ e.Seen n d → e.values.get n d = top
  starts : ∀ i, i ∈ e.starts ↔ ∃ n d, n.index = i ∧ e.Seen n d
  seeds : ∀ job ∈ s.seeds, e.Received job
  sent : ∀ n d job, e.Seen n d → Sent A s n d (e.values.get n d) job → e.Received job

/-- The value of a job was joined into its start point, and what is new was sent. -/
theorem Visited.extend [LawfulJoin L] (hgood : Kept A s Good) (h : Visited A s Good e)
    {job : ValueJob L} {queue queue' : Worklist (ValueJob L)} {jobs : Nat}
    (hqueue : ∀ job', job' ∈ e.queue.toList ↔ job' = job ∨ job' ∈ queue.toList)
    (hwf : values.Wf) (hdefault : values.default = e.values.default)
    (hfind : ∀ n d, values.find? n d = if job.node = n ∧ job.fact = d then
      some (join (e.values.get job.node job.fact) job.value) else e.values.find? n d)
    (hpushed : ∀ job', job' ∈ queue'.toList ↔ job' ∈ queue.toList ∨
      Sent A s job.node job.fact (join (e.values.get job.node job.fact) job.value) job') :
    Visited A s Good { e with
      queue := queue'
      jobs
      values
      seen := e.seen.insert (pack job.node.val job.fact.val)
      starts := (e.starts.insert job.node.index).2 } := by
  generalize he' : ({ e with
    queue := queue'
    jobs
    values
    seen := e.seen.insert (pack job.node.val job.fact.val)
    starts := (e.starts.insert job.node.index).2 } : Evaluation σ L) = e'
  have hvalues : e'.values = values := by rw [← he']
  have hget : ∀ n d, values.get n d = if job.node = n ∧ job.fact = d then
      join (e.values.get job.node job.fact) job.value else e.values.get n d := by
    intro n d
    rw [ValueTable.get_eq, hfind, hdefault, ValueTable.get_eq (n := n)]
    split <;> rfl
  have hnew : values.get job.node job.fact = join (e.values.get job.node job.fact) job.value := by
    rw [hget, if_pos ⟨rfl, rfl⟩]
  have hseen : ∀ n d, e'.Seen n d ↔ (job.node = n ∧ job.fact = d) ∨ e.Seen n d := by
    rintro ⟨n⟩ ⟨d⟩
    rw [← he']
    refine (contains_insert_iff _ _ _).trans (or_congr_left ?_)
    rw [pack_inj, ← NodeId.mk.injEq, ← FactId.mk.injEq]
  have hjob : Good job.node job.fact (join (e.values.get job.node job.fact) job.value) := by
    have hjob := h.jobs job ((hqueue job).2 (.inl rfl))
    by_cases hs : e.Seen job.node job.fact
    · exact hgood.join _ _ _ _ (h.seen _ _ hs) hjob
    · rwa [h.unseen _ _ hs, top_join]
  have hgrow : ∀ n d, Below (e.values.get n d) (values.get n d) := by
    intro n d
    rw [hget]
    split
    · next heq =>
      obtain ⟨rfl, rfl⟩ := heq
      exact below_join_left _ _
    · exact Below.refl _
  have hrec : ∀ job', e.Received job' → e'.Received job' := by
    rintro job' (hmem | ⟨hs, hle⟩)
    · rcases (hqueue job').1 hmem with rfl | hmem
      · refine .inr ⟨(hseen _ _).2 (.inl ⟨rfl, rfl⟩), ?_⟩
        rw [hvalues, hnew]
        exact below_join_right _ _
      · exact .inl (by rw [← he']; exact (hpushed job').2 (.inl hmem))
    · refine .inr ⟨(hseen _ _).2 (.inr hs), ?_⟩
      rw [hvalues]
      exact hle.trans (hgrow _ _)
  refine ⟨hvalues ▸ hwf, ?_, fun job' hmem => ?_, fun n d hs => ?_, fun n d hs => ?_, fun i => ?_,
    fun job' hmem => hrec job' (h.seeds job' hmem), fun n d job' hs hsent => ?_⟩
  · rw [hvalues, hdefault, h.default]
  · rw [← he'] at hmem
    rcases (hpushed job').1 hmem with hmem | hsent
    · exact h.jobs job' ((hqueue job').2 (.inr hmem))
    · exact hgood.sent _ _ _ _ hjob hsent
  · rw [hvalues, hget]
    split
    · next heq =>
      obtain ⟨rfl, rfl⟩ := heq
      exact hjob
    · next hne => exact h.seen n d (((hseen n d).1 hs).resolve_left hne)
  · rw [hseen, not_or] at hs
    rw [hvalues, hget, if_neg hs.1]
    exact h.unseen n d hs.2
  · have hstarts : i ∈ e'.starts ↔ i = job.node.index ∨ i ∈ e.starts := by
      rw [← he']
      exact BitSet.mem_insert
    rw [hstarts, h.starts]
    constructor
    · rintro (rfl | ⟨n, d, hi, hs⟩)
      · exact ⟨_, _, rfl, (hseen _ _).2 (.inl ⟨rfl, rfl⟩)⟩
      · exact ⟨n, d, hi, (hseen n d).2 (.inr hs)⟩
    · rintro ⟨n, d, rfl, hs⟩
      rcases (hseen n d).1 hs with ⟨rfl, rfl⟩ | hs
      · exact .inl rfl
      · exact .inr ⟨n, d, rfl, hs⟩
  · rw [hvalues, hget] at hsent
    split at hsent
    · next heq =>
      obtain ⟨rfl, rfl⟩ := heq
      exact .inl (by rw [← he']; exact (hpushed job').2 (.inr hsent))
    · next hne =>
      exact hrec job' (h.sent n d job' (((hseen n d).1 hs).resolve_left hne) hsent)

/-- Before the first visit, the seeds are pending. -/
theorem Solver.visited_init (hgood : Kept A s Good) (hwf : values.Wf)
    (hdefault : values.default = top)
    (hfind : ∀ n d v, values.find? n d = some v ↔
      s.reached.contains (pack n.val d.val) = true ∧ v = top)
    {queue : Worklist (ValueJob L)} (hqueue : queue.toList = s.seeds) (capacity : Nat) :
    Visited A s Good ⟨values, queue, ∅, .ofCapacity capacity, 0⟩ := by
  have hnone : ∀ n d, ¬ (⟨values, queue, ∅, .ofCapacity capacity, 0⟩ : Evaluation σ L).Seen n d :=
    fun n d h => by simp [Evaluation.Seen] at h
  exact {
    wf := hwf
    default := hdefault
    jobs := fun job hjob => hgood.seeds job (hqueue ▸ hjob)
    seen := fun n d h => absurd h (hnone n d)
    unseen := fun n d _ => by
      rw [ValueTable.get_eq]
      cases hv : values.find? n d with
      | none => exact hdefault
      | some v => exact ((hfind n d v).1 hv).2
    starts := fun i => ⟨fun hi => absurd hi (BitSet.not_mem_ofCapacity _ i),
      fun ⟨n, d, _, h⟩ => absurd h (hnone n d)⟩
    seeds := fun job hjob => .inl (by rw [hqueue]; exact hjob)
    sent := fun n d job h => absurd h (hnone n d) }

end Visited

/-! ## Calls -/

variable [DecidableEq L]

namespace Solver

theorem forwardAt_spec (hv : A.config.computeValues = true) (h : Complete A s) {site : String}
    (hrun : forwardAt A s fact value e site = .ok e') :
    e.Pushed (fun job => ∃ c ∈ s.ledger.callsFrom fact c.site, ∃ callee χ, s.HasNode c.site site ∧
      s.HasProc c.callee callee ∧ s.store.Means c.edge χ ∧
      (∃ sp, s.HasNode job.node sp ∧ A.graph.StartOf callee sp) ∧
      job.fact = c.entry ∧ job.value = χ value) e' := by
  unfold forwardAt at hrun
  cases hid : s.nodes.find? site with
  | none =>
    simp only [hid] at hrun
    obtain rfl := Except.ok.inj hrun
    refine ⟨rfl, fun job => ⟨.inl, fun h => h.resolve_right ?_⟩⟩
    rintro ⟨c, -, _, _, hn, -⟩
    rw [(Interner.find?_eq_some ‹Complete A s›.nodes).2 hn] at hid
    cases hid
  | some id =>
    simp only [hid] at hrun
    have hsite : s.HasNode ⟨id⟩ site := (Interner.find?_eq_some h.nodes).1 hid
    have hpushed := Evaluation.Pushed.foldlM (J := fun c job => ∃ callee χ,
      s.HasProc c.callee callee ∧ s.store.Means c.edge χ ∧
      (∃ sp, s.HasNode job.node sp ∧ A.graph.StartOf callee sp) ∧
      job.fact = c.entry ∧ job.value = χ value) (fun c hc e₁ e₂ h₂ => ?_) hrun
    · refine hpushed.congr fun job => ?_
      constructor
      · rintro ⟨c, hc, callee, χ, hrest⟩
        have hcsite := (h.forward _ _ c hc).2.2
        exact ⟨c, hcsite ▸ hc, callee, χ, hcsite ▸ hsite, hrest⟩
      · rintro ⟨c, hc, callee, χ, hn, hrest⟩
        have hcsite : c.site = ⟨id⟩ := congrArg NodeId.mk (Interner.get?_inj h.nodes hn hsite)
        exact ⟨c, hcsite ▸ hc, callee, χ, hrest⟩
    · simp only [bind_eq_ok] at h₂
      obtain ⟨v, hev, callee, hget, h₂⟩ := h₂
      have hcallee : s.HasProc c.callee callee := Interner.get_eq_ok.1 hget
      obtain ⟨_, _, _, _, _, hrec⟩ := h.records c (h.forward _ _ c hc).1
      obtain ⟨χ, hχ⟩ := hrec.labelled hv
      obtain rfl := hχ.eval_eq hev
      refine (enqueue_spec h.nodes h₂).congr fun job => ?_
      constructor
      · exact fun hjob => ⟨callee, χ, hcallee, hχ, hjob⟩
      · rintro ⟨callee', χ', hcallee', hχ', hjob⟩
        obtain rfl := Option.some.inj (hcallee.symm.trans hcallee')
        obtain rfl := hχ.unique hχ'
        exact hjob

/-- A value is sent along all calls of its procedure. -/
theorem forward_spec (hA : Scope A) (hv : A.config.computeValues = true) (h : Complete A s)
    {n : NodeId} {sp p : String} {sites : List String} (hn : s.HasNode n sp)
    (hp : A.graph.procOf sp = .ok p) (hsites : A.graph.calls p = .ok sites)
    (hrun : sites.foldlM (forwardAt A s fact value) e = .ok e') :
    e.Pushed (Sent A s n fact value) e' := by
  have hpushed := Evaluation.Pushed.foldlM (fun site _ e₁ e₂ h₂ => forwardAt_spec hv h h₂) hrun
  refine hpushed.congr fun job => ?_
  constructor
  · rintro ⟨site, hsite, c, hc, callee, χ, hcsite, hcallee, hχ, hstart, hfact, hvalue⟩
    obtain ⟨hmem, hsource, -⟩ := h.forward _ _ c hc
    obtain ⟨site', caller, callee', source, entry, hrec⟩ := h.records c hmem
    obtain rfl := Option.some.inj (hcsite.symm.trans hrec.hasSite)
    obtain rfl := Option.some.inj (hcallee.symm.trans hrec.hasCallee)
    obtain rfl := Except.ok.inj
      (((Supergraph.mem_calls_iff hA.graph).1 ⟨sites, hsites, hsite⟩).1.symm.trans hrec.procOf)
    exact ⟨c, hmem, _, _, _, _, _, χ, hrec, hsource, ⟨sp, hn, hp⟩, hstart, hfact, hχ, hvalue⟩
  · rintro ⟨c, hmem, site, caller, callee, source, entry, χ, hrec, rfl, ⟨sp', hn', hp'⟩, hstart,
      hfact, hχ, hvalue⟩
    obtain rfl := Option.some.inj (hn.symm.trans hn')
    obtain rfl := Except.ok.inj (hp.symm.trans hp')
    obtain ⟨b, e, -, he, -⟩ := hrec.enter
    have hcalls : A.graph.Calls site callee := by
      cases he
      assumption
    obtain ⟨sites', hsites', hsite⟩ := (Supergraph.mem_calls_iff hA.graph).2
      ⟨hrec.procOf, Supergraph.isCallSite_iff.2 ⟨callee, hcalls⟩⟩
    obtain rfl := Except.ok.inj (hsites.symm.trans hsites')
    exact ⟨site, hsite, c, h.attached c hmem hv, callee, χ, hrec.hasSite, hrec.hasCallee, hχ,
      hstart, hfact, hvalue⟩

/-- If seeds are at start points, all values at which visits look are. -/
theorem kept_atStarts (hg : A.graph.Consistent) (hseeds : A.SeedsAtStarts) (hs : Complete A s) :
    Kept A s fun n _ _ => StartPoint A s n where
  seeds job hjob := by
    obtain ⟨sp, a, hn, -, hseed⟩ := hs.seeds job hjob
    obtain ⟨p, hsp⟩ := Supergraph.exists_startOf hg (hseeds _ hseed)
    exact ⟨sp, p, hn, hsp⟩
  join _ _ _ _ h _ := h
  sent n d v job _ h := by
    obtain ⟨_, _, _, _, callee, _, _, _, _, _, _, ⟨sp, hn, hsp⟩, -⟩ := h
    exact ⟨sp, callee, hn, hsp⟩

theorem kept_startPoint (hA : Setting A) (hv : A.config.computeValues = true) (hs : Complete A s) :
    Kept A s fun n _ _ => StartPoint A s n := kept_atStarts hA.graph (hA.seeds hv) hs

/-- A run that stores fewer functions than a join may have parts widens no join. -/
theorem solve_unwidened [Std.TransOrd D] [Std.LawfulEqOrd D] {steps : Nat} {r : Results σ D L}
    (hA : Setting A) (hv : A.config.computeValues = true)
    (hsolve : solve A σ steps = .ok r) (hlimit : r.stats.edgesInterned < A.config.joinLimit) :
    A.Unwidened steps := by
  simp only [solve, conclude, bind_eq_ok, hv, if_true] at hsolve
  obtain ⟨s₀, hcreate, s₁, hrun, ⟨_, s⟩, hdrop, values, hvalues, e', hvalued, hr⟩ := hsolve
  obtain rfl := pure_eq_ok.1 hr
  obtain ⟨-, -, hinterned⟩ :=
    dropPending_spec hA.scope (run_create_spec hA.scope hcreate hrun) hdrop
  have hregular := (run_create_spec hA.scope hcreate hrun).regular
  rintro s₀' s₁' hcreate' hrun'
  obtain rfl := Except.ok.inj (hcreate.symm.trans hcreate')
  obtain rfl := Except.ok.inj (hrun.symm.trans hrun')
  refine run_create_unwidened hA.scope (hA.laws hv) hcreate hrun fun a b _ => ?_
  have hcard := hregular.card_parts_le (a := a) (b := b)
  have hlt : s₁.store.interned < A.config.joinLimit := hinterned ▸ hlimit
  omega

end Solver

variable [LawfulCode σ L]

namespace Solver

variable {job : ValueJob L} {queue : Worklist (ValueJob L)}

theorem visit_spec [LawfulJoin L] (hA : Scope A) (hv : A.config.computeValues = true)
    (hs : Complete A s) (hgood : Kept A s Good) (h : Visited A s Good e)
    (hpop : e.queue.pop? = some (job, queue))
    (hrun : visit A s { e with queue, jobs := e.jobs + 1 } job = .ok e') : Visited A s Good e' := by
  have hqueue : ∀ job', job' ∈ e.queue.toList ↔ job' = job ∨ job' ∈ queue.toList := fun job' => by
    rw [(Worklist.pop?_perm hpop).mem_iff, List.mem_cons]
  unfold visit at hrun
  simp only at hrun
  split at hrun
  · next hold =>
    obtain ⟨hseen, hold⟩ := hold
    obtain rfl := pure_eq_ok.1 hrun
    have hrec : ∀ job', e.Received job' →
        Evaluation.Received { e with queue, jobs := e.jobs + 1 } job' := by
      rintro job' (hjob | hjob)
      · rcases (hqueue job').1 hjob with rfl | hjob
        · refine .inr ⟨hseen, ?_⟩
          rw [← hold]
          exact below_join_right _ _
        · exact .inl hjob
      · exact .inr hjob
    exact ⟨h.wf, h.default, fun job' hjob => h.jobs job' ((hqueue job').2 (.inr hjob)), h.seen,
      h.unseen, h.starts, fun job' hjob => hrec job' (h.seeds job' hjob),
      fun n d job' hn hsent => hrec job' (h.sent n d job' hn hsent)⟩
  · simp only [bind_eq_ok] at hrun
    obtain ⟨values, hset, sp, hsp, p, hp, sites, hsites, hrun⟩ := hrun
    have hpushed := forward_spec hA hv hs (Interner.get_eq_ok.1 hsp) hp hsites hrun
    obtain ⟨hwf, hdefault, hfind⟩ := ValueTable.set_spec h.wf hset
    obtain ⟨queue', rfl⟩ : ∃ queue', e' = { e with
        queue := queue'
        jobs := e.jobs + 1
        values
        seen := e.seen.insert (pack job.node.val job.fact.val)
        starts := (e.starts.insert job.node.index).2 } := ⟨_, hpushed.same⟩
    exact h.extend hgood hqueue hwf hdefault hfind hpushed.mem

theorem visitAll_spec [LawfulJoin L] (hA : Scope A) (hv : A.config.computeValues = true)
    (hs : Complete A s) (hgood : Kept A s Good) (h : Visited A s Good e) {n : Nat}
    (hrun : visitAll A s n e = .ok e') : Visited A s Good e' ∧ e'.queue.toList = [] := by
  induction n generalizing e with
  | zero =>
    unfold visitAll at hrun
    split at hrun
    · next hempty =>
      obtain rfl := Except.ok.inj hrun
      exact ⟨h, (Worklist.isEmpty_iff _).1 hempty⟩
    · cases hrun
  | succ n ih =>
    unfold visitAll at hrun
    split at hrun
    · next hpop =>
      obtain rfl := Except.ok.inj hrun
      exact ⟨h, (Worklist.pop?_eq_none_iff _).1 hpop⟩
    · next job queue hpop =>
      rw [bind_eq_ok] at hrun
      obtain ⟨e₁, hvisit, hrun⟩ := hrun
      exact ih (visit_spec hA hv hs hgood h hpop hvisit) hrun

end Solver

/-- A path edge hands the value of its source at the start point on to its target. -/
def Feeds (A : Analysis D L K) (s : State D L K) (V : ValueTable σ L) (start n : NodeId)
    (d : FactId) (v : L) : Prop :=
  ∃ sp p node a ef φ, s.HasNode start sp ∧ A.graph.procOf sp = .ok p ∧ s.HasNode n node ∧
    A.graph.procOf node = .ok p ∧ node ≠ sp ∧ s.paths.get? n a d = some ef ∧
    s.store.Means ef φ ∧ v = φ (V.get start a)

namespace Solver

variable {F : NodeId → FactId → L → Prop} {start : NodeId}

theorem evaluateNode_spec [LawfulJoin L] (hA : Scope A) (hv : A.config.computeValues = true)
    (hs : Complete A s) {sp p node : String} (hstart : s.HasNode start sp)
    (hsp : A.graph.StartOf p sp) (hnode : A.graph.procOf node = .ok p)
    (h : Accumulates A s V F t) (hrun : evaluateNode A s start sp t node = .ok t') :
    Accumulates A s V (fun n d v => F n d v ∨ s.HasNode n node ∧ Feeds A s V start n d v) t' := by
  have hnone (hempty : ∀ n d v, s.HasNode n node → ¬ Feeds A s V start n d v) :
      Accumulates A s V (fun n d v => F n d v ∨ s.HasNode n node ∧ Feeds A s V start n d v) t :=
    h.congr fun n d v => (or_iff_left fun ⟨hn, hf⟩ => hempty n d v hn hf).symm
  unfold evaluateNode at hrun
  simp only [hA.not_aggressive, Bool.false_and] at hrun
  split at hrun
  · next heq =>
    obtain rfl := pure_eq_ok.1 hrun
    refine hnone fun n d v hn hf => ?_
    obtain ⟨sp', _, node', _, _, _, hsp', -, hn', -, hne, -⟩ := hf
    obtain rfl := Option.some.inj (hn.symm.trans hn')
    exact hne (heq.trans (Option.some.inj (hstart.symm.trans hsp')))
  · next hne =>
    obtain ⟨_, -, hrun⟩ := bind_eq_ok.1 hrun
    simp only [Bool.false_eq_true, if_false] at hrun
    cases hid : s.nodes.find? node with
    | none =>
      simp only [hid] at hrun
      obtain rfl := pure_eq_ok.1 hrun
      refine hnone fun n d v hn _ => ?_
      rw [(Interner.find?_eq_some hs.nodes).2 hn] at hid
      cases hid
    | some id =>
      simp only [hid] at hrun
      have hn : s.HasNode ⟨id⟩ node := (Interner.find?_eq_some hs.nodes).1 hid
      have hother : ¬ StartPoint A s ⟨id⟩ := by
        rintro ⟨node', q, hn', hq⟩
        obtain rfl := Option.some.inj (hn.symm.trans hn')
        obtain rfl := Except.ok.inj (hnode.symm.trans ((Supergraph.startOf_iff hA.graph).1 hq).1)
        exact hne (hq.unique hA.graph hsp)
      have hfold := h.foldlM (G := fun x n d v => n = ⟨id⟩ ∧ d = x.2.1 ∧
        ∃ φ, s.store.Means x.2.2 φ ∧ v = φ (V.get start x.1)) (fun x hx F t t' ht hrun => ?_) hrun
      · refine hfold.congr fun n d v => or_congr_right ?_
        constructor
        · rintro ⟨⟨a, b, ef⟩, hx, rfl, rfl, φ, hφ, rfl⟩
          exact ⟨hn, sp, p, node, a, ef, φ, hstart, ((Supergraph.startOf_iff hA.graph).1 hsp).1, hn,
            hnode, hne, PathTable.mem_entries.1 hx, hφ, rfl⟩
        · rintro ⟨hn', _, _, _, a, ef, φ, -, -, -, -, -, hef, hφ, rfl⟩
          obtain rfl : n = ⟨id⟩ := congrArg NodeId.mk (Interner.get?_inj hs.nodes hn' hn)
          exact ⟨(a, d, ef), PathTable.mem_entries.2 hef, rfl, rfl, φ, hφ, rfl⟩
      · obtain ⟨a, b, ef⟩ := x
        obtain ⟨_, _, _, _, _, hfacts⟩ := hs.paths _ _ _ _ (PathTable.mem_entries.1 hx)
        obtain ⟨φ, hφ⟩ := hfacts.labelled hv
        refine (evaluateEdge_spec ⟨sp, p, hstart, hsp⟩ hother hφ ht hrun).congr fun n d v =>
          or_congr_right (and_congr_right fun _ => and_congr_right fun _ => ?_)
        exact ⟨fun hv => ⟨φ, hφ, hv⟩, fun ⟨φ', hφ', hv⟩ => hφ.unique hφ' ▸ hv⟩

/-- All path edges of a procedure are evaluated. -/
theorem evaluateFrom_spec [LawfulJoin L] (hA : Scope A) (hv : A.config.computeValues = true)
    (hs : Complete A s) {i : Nat} (hstart : StartPoint A s ⟨UInt32.ofNat i⟩)
    (h : Accumulates A s V F t) (hrun : evaluateFrom A s t i = .ok t') :
    Accumulates A s V (fun n d v => F n d v ∨ Feeds A s V ⟨UInt32.ofNat i⟩ n d v) t' := by
  unfold evaluateFrom at hrun
  simp only [bind_eq_ok] at hrun
  obtain ⟨sp, hsp, p, hp, nodes, hnodes, hrun⟩ := hrun
  replace hsp : s.HasNode ⟨UInt32.ofNat i⟩ sp := Interner.get_eq_ok.1 hsp
  obtain ⟨sp', q, hsp', hq⟩ := hstart
  obtain rfl := Option.some.inj (hsp.symm.trans hsp')
  obtain rfl := Except.ok.inj (hp.symm.trans ((Supergraph.startOf_iff hA.graph).1 hq).1)
  have hfold := h.foldlM (fun node hmem F t t' ht hrun => evaluateNode_spec hA hv hs hsp hq
    ((Supergraph.mem_nodesOf_iff hA.graph).1 ⟨nodes, hnodes, hmem⟩) ht hrun) hrun
  refine hfold.congr fun n d v => or_congr_right ?_
  constructor
  · rintro ⟨_, _, _, hf⟩
    exact hf
  · intro hf
    have ⟨sp', p', node, _, _, _, hsp', hp', hn, hproc, _⟩ := hf
    obtain rfl := Option.some.inj (hsp.symm.trans hsp')
    obtain rfl := Except.ok.inj (hp.symm.trans hp')
    obtain ⟨nodes', hnodes', hmem⟩ := (Supergraph.mem_nodesOf_iff hA.graph).2 hproc
    obtain rfl := Except.ok.inj (hnodes.symm.trans hnodes')
    exact ⟨node, hmem, hn, hf⟩

/-! ## Both together -/

/-- The values at start points are those of the visits, and all other values are the joins of what
path edges feed to them from there. -/
theorem evaluated_spec [LawfulJoin L] (hA : Scope A) (hseeds : A.SeedsAtStarts)
    (hv : A.config.computeValues = true) (hs : Complete A s) (hgood : Kept A s Good)
    (hwf : values.Wf) (hdefault : values.default = top)
    (hfind : ∀ n d v, values.find? n d = some v ↔
      s.reached.contains (pack n.val d.val) = true ∧ v = top)
    {queue : Worklist (ValueJob L)} (hqueue : queue.toList = s.seeds) {capacity steps : Nat}
    {e : Evaluation σ L}
    (hvisit : visitAll A s steps ⟨values, queue, ∅, .ofCapacity capacity, 0⟩ = .ok e)
    (hfold : e.starts.toList.foldlM (evaluateFrom A s) e.values = .ok t) :
    e.queue.toList = [] ∧ Visited A s (fun n d v => Good n d v ∧ StartPoint A s n) e ∧
      Accumulates A s e.values
        (fun n d v => ∃ start a, e.Seen start a ∧ Feeds A s e.values start n d v) t := by
  have hgood' := hgood.and (kept_atStarts hA.graph hseeds hs)
  have hinit := visited_init hgood' hwf hdefault hfind hqueue capacity
  obtain ⟨hvisited, hempty⟩ := visitAll_spec hA hv hs hgood' hinit hvisit
  have hstarts : ∀ i, i ∈ e.starts.toList ↔
      ∃ a, e.Seen ⟨UInt32.ofNat i⟩ a ∧ (⟨UInt32.ofNat i⟩ : NodeId).index = i := by
    intro i
    rw [BitSet.mem_toList, hvisited.starts]
    constructor
    · rintro ⟨⟨n⟩, d, rfl, hseen⟩
      refine ⟨d, ?_, ?_⟩ <;> simp only [NodeId.index, UInt32.ofNat_toNat]
      exact hseen
    · rintro ⟨d, hseen, hi⟩
      exact ⟨_, d, hi, hseen⟩
  have hacc : Accumulates A s e.values (fun _ _ _ => False) e.values :=
    ⟨hvisited.wf, hvisited.default, fun _ _ _ => rfl, fun _ _ _ h => h.elim, fun n d =>
      ⟨[], (LawfulJoin.join_top _).symm, fun v hv => by cases hv⟩⟩
  have hfold' := hacc.foldlM (G := fun i => Feeds A s e.values ⟨UInt32.ofNat i⟩)
    (fun i hi F t t' ht hrun => ?_) hfold
  · refine ⟨hempty, hvisited, hfold'.congr fun n d v => ?_⟩
    rw [false_or]
    constructor
    · rintro ⟨i, hi, hf⟩
      obtain ⟨a, hseen, -⟩ := (hstarts i).1 hi
      exact ⟨_, a, hseen, hf⟩
    · rintro ⟨⟨n⟩, a, hseen, hf⟩
      have heq : UInt32.ofNat n.toNat = n := UInt32.ofNat_toNat
      refine ⟨n.toNat, (hstarts _).2 ⟨a, ?_, ?_⟩, ?_⟩ <;> rw [heq]
      exacts [hseen, rfl, hf]
  · obtain ⟨a, hseen, -⟩ := (hstarts i).1 hi
    exact evaluateFrom_spec hA hv hs (hvisited.seen _ _ hseen).2 ht hrun

/-! ## Results -/

variable {steps : Nat} {r : Results σ D L}

/-- A run without values reports top wherever a fact was reached. -/
theorem solve_plain_spec (hplain : A.config.computeValues = false)
    (hsolve : solve A σ steps = .ok r) :
    ∃ s, Ends A steps s ∧ r.nodes = s.nodes ∧ r.facts = s.facts ∧ r.values.default = top ∧
      ∀ n d v, r.values.find? n d = some v ↔
        s.reached.contains (pack n.val d.val) = true ∧ v = top := by
  simp only [solve, conclude, bind_eq_ok, hplain] at hsolve
  obtain ⟨s₀, hcreate, s₁, hrun, ⟨_, s⟩, hdrop, values, hvalues, hr⟩ := hsolve
  obtain rfl := pure_eq_ok.1 hr
  obtain ⟨-, hdefault, hfind⟩ := reachedValues_spec hvalues
  exact ⟨s, ⟨s₀, s₁, _, hcreate, hrun, hdrop⟩, rfl, rfl, hdefault, hfind⟩

variable [Std.TransOrd D] [Std.LawfulEqOrd D]

/-- A run with values reports what visits and path edges make of the seeds. -/
theorem solve_valued_spec (hA : Setting A) (hv : A.config.computeValues = true)
    (hsolve : solve A σ steps = .ok r) :
    ∃ s, Ends A steps s ∧ r.nodes = s.nodes ∧ r.facts = s.facts ∧ r.values.default = top ∧
      ∀ Good, Kept A s Good → ∃ e : Evaluation σ L, e.queue.toList = [] ∧
        Visited A s (fun n d v => Good n d v ∧ StartPoint A s n) e ∧
        Accumulates A s e.values
          (fun n d v => ∃ start a, e.Seen start a ∧ Feeds A s e.values start n d v) r.values := by
  have := hA.join hv
  simp only [solve, conclude, bind_eq_ok, hv, if_true] at hsolve
  obtain ⟨s₀, hcreate, s₁, hrun, ⟨_, s⟩, hdrop, values, hvalues, e', hvalued, hr⟩ := hsolve
  obtain rfl := pure_eq_ok.1 hr
  have hends : Ends A steps s := ⟨s₀, s₁, _, hcreate, hrun, hdrop⟩
  have hs := hends.complete hA.scope
  obtain ⟨hwf, hdefault, hfind⟩ := reachedValues_spec hvalues
  simp only [computeValues, bind_eq_ok] at hvalued
  obtain ⟨e, hvisit, t, hfold, hvalued⟩ := hvalued
  obtain rfl := pure_eq_ok.1 hvalued
  have hspec := fun Good (hgood : Kept A s Good) => evaluated_spec hA.scope (hA.seeds hv) hv
    hs hgood hwf hdefault hfind (Worklist.toList_pushAll _ _) hvisit hfold
  obtain ⟨-, -, hacc⟩ := hspec _ (kept_startPoint hA hv hs)
  exact ⟨s, hends, rfl, rfl, hacc.default, fun Good hgood => ⟨e, hspec Good hgood⟩⟩

end Solver

end Tabulation
