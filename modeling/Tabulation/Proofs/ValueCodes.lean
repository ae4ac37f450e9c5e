import Tabulation.Proofs.MeteredCodes
import Tabulation.Proofs.Solver.Mentioned
import Tabulation.Proofs.TableViews

/-!
# The code of values does not show

Tables that store values as they are, by numbers or by numbers of shared copies are the same finite
map of what was written last. A run therefore answers all queries the same way, whichever code it
uses. The only difference is that numbers can be exhausted, and that depends on the values written
alone.

**Histories.** `Journal` stores values as they are and lists them. `MeteredCode` says of another
code what history of values it can take. A program over a table with a journal is tracked by the
same program over the other table, `Tracks`: they do the same for as long as the history can be
taken, and when it cannot, the other program ends with the fault that says so. The history only
grows, so it does not matter when this happens.

Main result: `codes_transparent`.
-/

namespace Tabulation

/-! ## Journals -/

/-- Stores values as they are, and lists them. -/
structure Journal (L : Type) where
  written : List L

instance {L : Type} : ValueCode (Journal L) L where
  Code := L
  empty := ⟨[]⟩
  encode s v := .ok (v, ⟨s.written ++ [v]⟩)
  find? _ v := some v
  decode _ v := some v
  size _ := 0

instance {L : Type} : LawfulCode (Journal L) L where
  Valid _ := True
  valid_empty := trivial
  encode_spec {s s' v c} _ h := by
    obtain ⟨rfl, rfl⟩ := Prod.mk.inj (Except.ok.inj h)
    exact ⟨trivial, rfl, fun _ _ h => h⟩

/-! ## Tracking -/

section Tracks

variable {σ L α β γ δ : Type} {ws : List L} {w : α → List L}

theorem Tracks.grows_foldlM {ι : Type} {f : α → ι → Except Fault α} {l : List ι}
    (hgrows : ∀ i ∈ l, ∀ a c, f a i = .ok c → w a <+: w c) {a c : α} (h : l.foldlM f a = .ok c) :
    w a <+: w c :=
  foldlM_ok (fun _ c => w a <+: w c) h (List.prefix_refl _) fun _ i c c' hi hc hc' =>
    hc.trans (hgrows i hi c c' hc')

variable [ValueCode σ L] [MeteredCode σ L]

/-- The second program does the same as the first one, if the code can take the history that the
first one leaves, and ends with the fault that it cannot otherwise. The history `ws` only grows. -/
structure Tracks (σ : Type) [ValueCode σ L] [MeteredCode σ L] (ws : List L) (w : α → List L)
    (R : α → β → Prop) (x : Except Fault α) (y : Except Fault β) : Prop where
  grows : ∀ a, x = .ok a → ws <+: w a
  ok : ∀ a, x = .ok a → MeteredCode.Admits σ (w a) → ∃ b, y = .ok b ∧ R a b
  full : ∀ a, x = .ok a → ¬ MeteredCode.Admits σ (w a) → y = .error .idsExhausted
  error : ∀ f, x = .error f →
    y = .error f ∨ y = .error .idsExhausted ∧ ∃ vs : List L, ¬ MeteredCode.Admits σ vs

namespace Tracks

variable {R : α → β → Prop} {x : Except Fault α} {y : Except Fault β}

/-- A program that writes nothing. -/
theorem of_related (hws : MeteredCode.Admits σ ws)
    (h : ∀ a, x = .ok a → w a = ws ∧ ∃ b, y = .ok b ∧ R a b)
    (herror : ∀ f, x = .error f → y = .error f) : Tracks σ ws w R x y where
  grows a ha := (h a ha).1 ▸ List.prefix_refl _
  ok a ha _ := (h a ha).2
  full a ha hfull := absurd hws ((h a ha).1 ▸ hfull)
  error f hf := .inl (herror f hf)

theorem pure {a : α} {b : β} (hws : MeteredCode.Admits σ ws) (ha : w a = ws) (hR : R a b) :
    Tracks σ ws w R (.ok a) (.ok b) :=
  of_related hws (fun _ h => Except.ok.inj h ▸ ⟨ha, b, rfl, hR⟩) fun _ h => by cases h

theorem fault (f : Fault) : Tracks σ ws w R (.error f) (.error f) where
  grows _ h := by cases h
  ok _ h := by cases h
  full _ h := by cases h
  error _ h := .inl (Except.error.inj h ▸ rfl)

theorem ite {c : Prop} [Decidable c] {x' : Except Fault α} {y' : Except Fault β}
    (h : c → Tracks σ ws w R x y) (h' : ¬ c → Tracks σ ws w R x' y') :
    Tracks σ ws w R (if c then x else x') (if c then y else y') := by
  split
  · next hc => exact h hc
  · next hc => exact h' hc

theorem bind {w' : γ → List L} {R' : γ → δ → Prop} {f : α → Except Fault γ}
    {g : β → Except Fault δ} (h : Tracks σ ws w R x y)
    (hgrows : ∀ a, x = .ok a → ∀ c, f a = .ok c → w a <+: w' c)
    (hf : ∀ a b, MeteredCode.Admits σ (w a) → R a b → Tracks σ (w a) w' R' (f a) (g b)) :
    Tracks σ ws w' R' (x >>= f) (y >>= g) := by
  cases hx : x with
  | error e =>
    rcases h.error e hx with hy | ⟨hy, hvs⟩
    · rw [hy]
      exact fault e
    · rw [hy]
      exact ⟨fun _ h => (by cases h), fun _ h => (by cases h), fun _ h => (by cases h),
        fun _ _ => .inr ⟨rfl, hvs⟩⟩
  | ok a =>
    by_cases hadmits : MeteredCode.Admits σ (w a)
    · obtain ⟨b, hb, hR⟩ := h.ok a hx hadmits
      have hnext := hf a b hadmits hR
      rw [hb]
      exact { hnext with grows := fun c hc => (h.grows a hx).trans (hnext.grows c hc) }
    · have hgrow := hgrows a hx
      rw [h.full a hx hadmits]
      refine ⟨fun c hc => (h.grows a hx).trans (hgrow c hc), fun c hc hc' => ?_, fun _ _ _ => rfl,
        fun _ _ => .inr ⟨rfl, w a, hadmits⟩⟩
      exact absurd (MeteredCode.admits_of_subset (hgrow c hc).subset hc') hadmits

/-- A computation that has to do with neither table comes first. -/
theorem same_bind {ε : Type} {z : Except Fault ε} {f : ε → Except Fault α} {g : ε → Except Fault β}
    (h : ∀ c, z = .ok c → Tracks σ ws w R (f c) (g c)) :
    Tracks σ ws w R (z >>= f) (z >>= g) := by
  cases hz : z with
  | error e => exact fault e
  | ok c => exact h c hz

theorem foldlM {ι : Type} {f : α → ι → Except Fault α} {g : β → ι → Except Fault β} {l : List ι}
    (hgrows : ∀ i ∈ l, ∀ a c, f a i = .ok c → w a <+: w c)
    (hf : ∀ i ∈ l, ∀ a b, MeteredCode.Admits σ (w a) → R a b → Tracks σ (w a) w R (f a i) (g b i))
    {a : α} {b : β} (ha : MeteredCode.Admits σ (w a)) (hR : R a b) :
    Tracks σ (w a) w R (l.foldlM f a) (l.foldlM g b) := by
  induction l generalizing a b with
  | nil => exact pure ha rfl hR
  | cons i l ih =>
    have hgrows' : ∀ j ∈ l, ∀ a c, f a j = .ok c → w a <+: w c := fun j hj =>
      hgrows j (List.mem_cons_of_mem i hj)
    rw [List.foldlM_cons, List.foldlM_cons]
    refine (hf i List.mem_cons_self a b ha hR).bind (fun c _ d hd => grows_foldlM hgrows' hd)
      fun c d hc hR => ih hgrows' (fun j hj => hf j (List.mem_cons_of_mem i hj)) hc hR

end Tracks

end Tracks

/-! ## Tables -/

section Tables

variable {σ L : Type} [ValueCode σ L]

/-! ### Histories of writes -/

/-- The history of a table. -/
def ValueTable.written (t : ValueTable (Journal L) L) : List L := t.codes.written

theorem written_set {t t' : ValueTable (Journal L) L} {n : NodeId} {d : FactId} {v : L}
    (h : t.set n d v = .ok t') : t'.written = t.written ++ [v] := by
  obtain rfl := Except.ok.inj h
  rfl

/-- Writes values one after another. -/
def ValueTable.writeAll (t : ValueTable σ L) (writes : List (NodeId × FactId × L)) :
    Except Fault (ValueTable σ L) :=
  writes.foldlM (fun t (n, d, v) => t.set n d v) t

/-- The values that were written last. -/
def lastWrites (writes : List (NodeId × FactId × L)) : ValueMap L :=
  writes.foldl (fun m (n, d, v) => m.insert (n, d) v) ∅

theorem ValueTable.writeAll_concat {t : ValueTable σ L} (writes : List (NodeId × FactId × L))
    (n : NodeId) (d : FactId) (v : L) :
    t.writeAll (writes ++ [(n, d, v)]) = t.writeAll writes >>= fun t => t.set n d v := by
  rw [writeAll, List.foldlM_append]
  refine bind_congr fun t => ?_
  rw [List.foldlM_cons]
  exact bind_pure _

theorem exists_writeAll_journal (v : L) (writes : List (NodeId × FactId × L)) :
    ∃ t : ValueTable (Journal L) L, (ValueTable.empty v).writeAll writes = .ok t ∧
      t.Holds (lastWrites writes) ∧ t.default = v ∧ t.written = writes.map (·.2.2) := by
  induction writes using List.reverseRecOn with
  | nil => exact ⟨.empty v, rfl, ValueTable.holds_empty v, rfl, rfl⟩
  | append_singleton writes write ih =>
    obtain ⟨n, d, w⟩ := write
    obtain ⟨t, ht, hholds, hdefault, hwritten⟩ := ih
    have hset : ∃ t', t.set n d w = .ok t' := ⟨_, rfl⟩
    obtain ⟨t', ht'⟩ := hset
    obtain ⟨hholds', hdefault'⟩ := hholds.set ht'
    refine ⟨t', ?_, ?_, hdefault'.trans hdefault, ?_⟩
    · rw [ValueTable.writeAll_concat, ht]
      exact ht'
    · rw [lastWrites, List.foldl_append]
      exact hholds'
    · rw [written_set ht', hwritten, List.map_append]
      rfl

variable [LawfulCode σ L] [MeteredCode σ L]

/-! ### Tables side by side -/

/-- The tables hold the same map, and the history of the first led to the code of the second. -/
structure SameTable (t : ValueTable (Journal L) L) (u : ValueTable σ L) : Prop where
  map : ∃ m, t.Holds m ∧ u.Holds m
  default : u.default = t.default
  after : MeteredCode.After u.codes t.codes.written

namespace SameTable

variable {t : ValueTable (Journal L) L} {u : ValueTable σ L}

theorem find?_eq (h : SameTable t u) (n : NodeId) (d : FactId) : u.find? n d = t.find? n d := by
  obtain ⟨m, ht, hu⟩ := h.map
  rw [hu.find?, ht.find?]

theorem get_eq (h : SameTable t u) (n : NodeId) (d : FactId) : u.get n d = t.get n d := by
  rw [ValueTable.get_eq, ValueTable.get_eq, h.find?_eq, h.default]

theorem contains_eq (h : SameTable t u) (n : NodeId) (d : FactId) :
    u.contains n d = t.contains n d := by
  obtain ⟨m, ht, hu⟩ := h.map
  rw [Bool.eq_iff_iff, hu.readsAs.contains, ht.readsAs.contains]

end SameTable

theorem sameTable_empty (v : L) : SameTable (.empty v) (.empty v : ValueTable σ L) where
  map := ⟨∅, ValueTable.holds_empty v, ValueTable.holds_empty v⟩
  default := rfl
  after := MeteredCode.after_empty

theorem set_tracks {t : ValueTable (Journal L) L} {u : ValueTable σ L} (h : SameTable t u)
    (n : NodeId) (d : FactId) (v : L) :
    Tracks σ t.written ValueTable.written SameTable (t.set n d v) (u.set n d v) := by
  obtain ⟨m, ht, hu⟩ := h.map
  have hset : ∀ t', t.set n d v = .ok t' → t'.written = t.written ++ [v] := fun _ => written_set
  refine ⟨fun t' h' => ?_, fun t' h' hadmits => ?_, fun t' h' hfull => ?_, fun f hf => by cases hf⟩
  · rw [hset t' h']
    exact List.prefix_append _ _
  · obtain ⟨c, codes, hencode, hafter⟩ := MeteredCode.encode_ok h.after (hset t' h' ▸ hadmits)
    have hu' : u.set n d v = .ok { u with
        rows := u.rows.insert n ((u.codesAt n).insert d c), codes } :=
      bind_eq_ok.2 ⟨(c, codes), hencode, rfl⟩
    obtain ⟨htm, htd⟩ := ht.set h'
    obtain ⟨hum, hud⟩ := hu.set hu'
    refine ⟨_, hu', ⟨_, htm, hum⟩, hud.trans (h.default.trans htd.symm), ?_⟩
    show MeteredCode.After codes t'.written
    rw [hset t' h']
    exact hafter
  · rw [ValueTable.set, MeteredCode.encode_full h.after (hset t' h' ▸ hfull)]
    rfl

/-- A table over any code shows the values that were written last, if the code can take them all. -/
theorem writeAll_readsAs (v : L) (writes : List (NodeId × FactId × L)) :
    (MeteredCode.Admits σ (writes.map (·.2.2)) →
      ∃ u : ValueTable σ L, (ValueTable.empty v).writeAll writes = .ok u ∧
        u.ReadsAs v (lastWrites writes)) ∧
    (¬ MeteredCode.Admits σ (writes.map (·.2.2)) →
      (ValueTable.empty v : ValueTable σ L).writeAll writes = .error .idsExhausted) := by
  obtain ⟨t, ht, hholds, hdefault, hwritten⟩ := exists_writeAll_journal v writes
  have htracks : Tracks σ [] ValueTable.written SameTable
      ((ValueTable.empty v : ValueTable (Journal L) L).writeAll writes)
      ((ValueTable.empty v : ValueTable σ L).writeAll writes) := by
    refine Tracks.foldlM (w := ValueTable.written) ?_ ?_ MeteredCode.admits_nil (sameTable_empty v)
    · exact fun _ _ t t' h => written_set h ▸ List.prefix_append _ _
    · exact fun ⟨n, d, w⟩ _ t u _ h => set_tracks h n d w
  refine ⟨fun hadmits => ?_, fun hfull => htracks.full t ht (hwritten ▸ hfull)⟩
  obtain ⟨u, hu, hsame⟩ := htracks.ok t ht (hwritten ▸ hadmits)
  obtain ⟨m, htm, hum⟩ := hsame.map
  obtain rfl : lastWrites writes = m := Finmap.ext_lookup fun ⟨n, d⟩ =>
    (hholds.find? n d).symm.trans (htm.find? n d)
  exact ⟨u, hu, hdefault ▸ hsame.default ▸ hum.readsAs⟩

end Tables

/-! ## The second phase -/

section Values

variable {σ τ D L K : Type} [ValueCode σ L] [ValueCode τ L]

/-- The same state of the second phase with another table. -/
def Evaluation.withTable (e : Evaluation σ L) (t : ValueTable τ L) : Evaluation τ L :=
  ⟨t, e.queue, e.seen, e.starts, e.jobs⟩

/-- A program that commutes with the exchange of tables still does after a loop. -/
theorem Solver.foldlM_withTable {ι : Type} {f : Evaluation σ L → ι → Except Fault (Evaluation σ L)}
    {g : Evaluation τ L → ι → Except Fault (Evaluation τ L)} {t : ValueTable τ L}
    (h : ∀ e i, g (e.withTable t) i = (fun e : Evaluation σ L => e.withTable t) <$> f e i)
    (l : List ι) (e : Evaluation σ L) :
    l.foldlM g (e.withTable t) = (fun e : Evaluation σ L => e.withTable t) <$> l.foldlM f e := by
  induction l generalizing e with
  | nil => rfl
  | cons i l ih =>
    rw [List.foldlM_cons, List.foldlM_cons, h]
    cases f e i with
    | error f => rfl
    | ok e' => exact ih e'

/-- The states of the second phase are the same but for their tables, and these show the same. -/
def SameEvaluation [LawfulCode σ L] [MeteredCode σ L] (e : Evaluation (Journal L) L)
    (e' : Evaluation σ L) : Prop :=
  ∃ u, e' = e.withTable u ∧ SameTable e.values u

/-- The history of the table. -/
def Evaluation.written (e : Evaluation (Journal L) L) : List L := e.values.written

variable [Ord D]

/-- The results are the same but for their tables, and these show the same. -/
structure SameResults [LawfulCode σ L] [MeteredCode σ L] (r : Results (Journal L) D L)
    (r' : Results σ D L) : Prop where
  nodes : r'.nodes = r.nodes
  facts : r'.facts = r.facts
  stats : r'.stats = r.stats
  table : SameTable r.values r'.values

theorem SameResults.toMap_eq [LawfulCode σ L] [MeteredCode σ L] [DecidableEq D]
    {r : Results (Journal L) D L} {r' : Results σ D L} {zero : D} (h : SameResults r r')
    (hr : r.Named zero) (hr' : r'.Named zero) : r'.toMap = r.toMap := by
  refine Finmap.ext_lookup fun ⟨node, fact⟩ => Option.ext fun v => ?_
  rw [Results.lookup_toMap hr, Results.lookup_toMap hr']
  simp only [Results.HasValue, h.nodes, h.facts, h.table.find?_eq]

/-- The history of the table. -/
def Results.written (r : Results (Journal L) D L) : List L := r.values.written

variable [Ord L] [Ord K] {A : Analysis D L K} {s : State D L K}

theorem State.keeps_prefix (s : State D L K) (ws : List L) :
    s.Keeps (fun _ _ => True) fun t : ValueTable (Journal L) L => ws <+: t.written where
  names _ _ _ := trivial
  set t t' _ _ v _ ht hset := by
    rw [written_set hset]
    exact ht.trans (List.prefix_append _ [v])

namespace Solver

theorem enqueue_withTable (e : Evaluation σ L) (t : ValueTable τ L) (callee : String) (d : FactId)
    (v : L) : enqueue A s (e.withTable t) callee d v =
      (fun e : Evaluation σ L => e.withTable t) <$> enqueue A s e callee d v := by
  unfold enqueue
  cases A.graph.startPoints callee with
  | error f => rfl
  | ok starts =>
    refine congrArg Except.ok ?_
    induction starts generalizing e with
    | nil => rfl
    | cons start starts ih =>
      rw [List.foldl_cons, List.foldl_cons]
      cases s.nodes.find? start with
      | none => exact ih e
      | some id => exact ih { e with queue := e.queue.push ⟨⟨id⟩, d, v⟩ }

theorem reachedValues_tracks [JoinLattice L] [LawfulCode σ L] [MeteredCode σ L] :
    Tracks σ [] ValueTable.written SameTable
      (reachedValues s : Except Fault (ValueTable (Journal L) L))
      (reachedValues s : Except Fault (ValueTable σ L)) := by
  refine Tracks.foldlM (w := ValueTable.written) ?_ ?_ MeteredCode.admits_nil (sameTable_empty top)
  · intro _ _ t t' ht
    rw [written_set ht]
    exact List.prefix_append _ _
  · exact fun _ _ t u _ h => set_tracks h _ _ _

variable [JoinLattice L] [Payload K L]

theorem forwardAt_withTable (e : Evaluation σ L) (t : ValueTable τ L) (d : FactId) (v : L)
    (site : String) : forwardAt A s d v (e.withTable t) site =
      (fun e : Evaluation σ L => e.withTable t) <$> forwardAt A s d v e site := by
  unfold forwardAt
  cases s.nodes.find? site with
  | none => rfl
  | some id =>
    refine foldlM_withTable (fun e c => ?_) _ e
    cases s.store.eval c.edge v with
    | error f => rfl
    | ok w =>
      cases s.procs.get c.callee.val with
      | error f => rfl
      | ok callee => exact enqueue_withTable e t callee c.entry w

/-- Forwarding values along calls does not write. -/
theorem forward_values {d : FactId} {v : L} {sites : List String} {e₁ : Evaluation τ L}
    {e₂ : Evaluation τ L} (h : sites.foldlM (forwardAt A s d v) e₁ = .ok e₂) :
    e₂.values = e₁.values := by
  have hself : sites.foldlM (forwardAt A s d v) e₁ =
      (fun e => e.withTable e₁.values) <$> sites.foldlM (forwardAt A s d v) e₁ :=
    foldlM_withTable (fun e site => forwardAt_withTable e e₁.values d v site) sites e₁
  rw [h] at hself
  have heq : e₂ = e₂.withTable e₁.values := Except.ok.inj hself
  rw [heq]
  rfl

variable [LawfulCode σ L] [MeteredCode σ L] {e : Evaluation (Journal L) L} {e' : Evaluation σ L}

theorem forward_tracks (hw : MeteredCode.Admits σ e.written) (he : SameEvaluation e e') (d : FactId)
    (v : L) (sites : List String) :
    Tracks σ e.written Evaluation.written SameEvaluation (sites.foldlM (forwardAt A s d v) e)
      (sites.foldlM (forwardAt A s d v) e') := by
  obtain ⟨u, rfl, hu⟩ := he
  rw [foldlM_withTable (fun e site => forwardAt_withTable (A := A) (s := s) e u d v site) sites e]
  refine .of_related hw (fun e₁ h => ?_) fun f h => ?_
  · have hvalues := forward_values h
    rw [h]
    exact ⟨congrArg ValueTable.written hvalues, _, rfl, u, rfl, hvalues ▸ hu⟩
  · rw [h]
    rfl

variable [DecidableEq L]

theorem visit_tracks (hw : MeteredCode.Admits σ e.written) (he : SameEvaluation e e')
    (job : ValueJob L) :
    Tracks σ e.written Evaluation.written SameEvaluation (visit A s e job) (visit A s e' job) := by
  obtain ⟨u, rfl, hu⟩ := he
  unfold visit
  dsimp only [Evaluation.withTable]
  rw [hu.get_eq]
  refine .ite (fun _ => .pure hw rfl ⟨u, rfl, hu⟩) fun _ => ?_
  refine (set_tracks hu _ _ _).bind (fun t ht e₁ h => ?_) fun t u hw hu => ?_
  · obtain ⟨_, -, h⟩ := bind_eq_ok.1 h
    obtain ⟨_, -, h⟩ := bind_eq_ok.1 h
    obtain ⟨_, -, h⟩ := bind_eq_ok.1 h
    exact congrArg ValueTable.written (forward_values h) ▸ List.prefix_refl _
  · refine .same_bind fun _ _ => .same_bind fun _ _ => .same_bind fun _ _ => ?_
    exact forward_tracks (e := ⟨t, _, _, _, _⟩) hw ⟨u, rfl, hu⟩ _ _ _

theorem evaluateEdge_tracks {t : ValueTable (Journal L) L} {u : ValueTable σ L}
    (hw : MeteredCode.Admits σ t.written) (h : SameTable t u) (start node : NodeId)
    (entry : FactId × FactId × EdgeRef) :
    Tracks σ t.written ValueTable.written SameTable (evaluateEdge s start node t entry)
      (evaluateEdge s start node u entry) := by
  unfold evaluateEdge
  dsimp only
  rw [h.get_eq, h.get_eq, h.contains_eq]
  exact .same_bind fun _ _ => .ite (fun _ => set_tracks h _ _ _) fun _ => .pure hw rfl h

theorem evaluateNode_tracks {t : ValueTable (Journal L) L} {u : ValueTable σ L}
    (hw : MeteredCode.Admits σ t.written) (h : SameTable t u) (start : NodeId)
    (name node : String) :
    Tracks σ t.written ValueTable.written SameTable (evaluateNode A s start name t node)
      (evaluateNode A s start name u node) := by
  unfold evaluateNode
  refine .ite (fun _ => .pure hw rfl h) fun _ => .same_bind fun keep _ => ?_
  refine .ite (fun _ => .pure hw rfl h) fun _ => ?_
  cases s.nodes.find? node with
  | none => exact .pure hw rfl h
  | some id =>
    refine .foldlM (fun entry _ t t' ht => ?_) (fun entry _ t u hw h =>
      evaluateEdge_tracks hw h start _ entry) hw h
    exact (evaluateEdge_keeps (s.keeps_prefix t.written) start trivial (List.prefix_refl _)).elim ht

variable [DecidableEq D] {F : D → Prop} (hs : Grounded A F s)

include hs

theorem visitAll_tracks (n : Nat) (hw : MeteredCode.Admits σ e.written)
    (he : SameEvaluation e e') : Tracks σ e.written Evaluation.written SameEvaluation
      (visitAll A s n e) (visitAll A s n e') := by
  induction n generalizing e e' with
  | zero =>
    obtain ⟨u, rfl, hu⟩ := he
    exact .ite (fun _ => .pure hw rfl ⟨u, rfl, hu⟩) fun _ => .fault _
  | succ n ih =>
    obtain ⟨u, rfl, hu⟩ := he
    unfold visitAll
    dsimp only [Evaluation.withTable]
    cases e.queue.pop? with
    | none => exact .pure hw rfl ⟨u, rfl, hu⟩
    | some next =>
      obtain ⟨job, queue⟩ := next
      have hvisit := visit_tracks (A := A) (s := s) (e := { e with queue, jobs := e.jobs + 1 })
        hw ⟨u, rfl, hu⟩ job
      refine hvisit.bind (fun e₁ _ e₂ h => ?_) fun e₁ e₂ hw he => ih hw he
      exact ((visitAll_keeps (s.keeps_prefix e₁.written) hs n
        ⟨List.prefix_refl _, fun _ _ => trivial⟩).elim h).values

theorem evaluateFrom_tracks {t : ValueTable (Journal L) L} {u : ValueTable σ L}
    (hw : MeteredCode.Admits σ t.written) (h : SameTable t u) (i : Nat) :
    Tracks σ t.written ValueTable.written SameTable (evaluateFrom A s t i)
      (evaluateFrom A s u i) := by
  refine .same_bind fun name _ => .same_bind fun _ _ => .same_bind fun _ _ => ?_
  refine .foldlM (fun node _ t t' ht => ?_) (fun node _ t u hw h =>
    evaluateNode_tracks hw h _ name node) hw h
  exact (evaluateNode_keeps (s.keeps_prefix t.written) hs _ name node (List.prefix_refl _)).elim ht

theorem computeValues_tracks {t : ValueTable (Journal L) L} {u : ValueTable σ L}
    (hw : MeteredCode.Admits σ t.written) (h : SameTable t u) (steps : Nat) :
    Tracks σ t.written Evaluation.written SameEvaluation (computeValues A s steps t)
      (computeValues A s steps u) := by
  have hfold : ∀ (l : List Nat) (t t' : ValueTable (Journal L) L),
      l.foldlM (evaluateFrom A s) t = .ok t' → t.written <+: t'.written := fun l t t' ht =>
    Tracks.grows_foldlM (fun i _ t t' ht =>
      (evaluateFrom_keeps (s.keeps_prefix t.written) hs i (List.prefix_refl _)).elim ht) ht
  refine (visitAll_tracks (e := ⟨t, _, _, _, _⟩) hs steps hw ⟨u, rfl, h⟩).bind
    (fun e _ e₁ h => ?_) fun e e' hw he => ?_
  · obtain ⟨t', ht, h⟩ := bind_eq_ok.1 h
    obtain rfl := pure_eq_ok.1 h
    exact hfold _ _ _ ht
  · obtain ⟨u, rfl, hu⟩ := he
    refine (Tracks.foldlM (fun i _ t t' ht => ?_) (fun i _ t u hw h =>
      evaluateFrom_tracks hs hw h i) hw hu).bind (fun t _ e₁ h => ?_) fun t u hw hu => ?_
    · exact (evaluateFrom_keeps (s.keeps_prefix t.written) hs i (List.prefix_refl _)).elim ht
    · obtain rfl := pure_eq_ok.1 h
      exact List.prefix_refl _
    · exact .pure hw rfl ⟨u, rfl, hu⟩

end Solver

/-! ## Runs -/

namespace Solver

variable [DecidableEq D] [JoinLattice L] [DecidableEq L] [Payload K L] [LawfulCode σ L]
  [MeteredCode σ L]

theorem conclude_tracks {F : D → Prop} (steps : Nat)
    (hs : ∀ t, (dropPending A).run s = .ok ((), t) → Grounded A F t ∧ Mentioned A t) :
    Tracks σ [] Results.written SameResults (conclude A (Journal L) steps s)
      (conclude A σ steps s) := by
  refine .same_bind fun ⟨_, t⟩ ht => ?_
  obtain ⟨hground, hmentioned⟩ := hs t ht
  refine reachedValues_tracks.bind (fun values _ r h => ?_) fun values values' hw hsame => ?_
  · split at h
    · obtain ⟨e, he, h⟩ := bind_eq_ok.1 h
      obtain rfl := pure_eq_ok.1 h
      exact (computeValues_keeps (t.keeps_prefix values.written) hground hmentioned steps
        (List.prefix_refl _)).elim he
    · obtain rfl := pure_eq_ok.1 h
      exact List.prefix_refl _
  · refine .ite (fun _ => ?_) fun _ => .pure hw rfl ⟨rfl, rfl, rfl, hsame⟩
    refine (computeValues_tracks hground hw hsame steps).bind (fun e _ r h => ?_)
      fun e e' hw he => ?_
    · obtain rfl := pure_eq_ok.1 h
      exact List.prefix_refl _
    · obtain ⟨u, rfl, hu⟩ := he
      exact .pure hw rfl ⟨rfl, rfl, rfl, hu⟩

section Runs

variable [Std.TransOrd D] [Std.LawfulEqOrd D] [Std.TransOrd L] [Std.LawfulEqOrd L] [Std.TransOrd K]
  [Std.LawfulEqOrd K] (hgraph : A.graph.Built)

include hgraph

/-- What the second phase starts from. -/
theorem dropPending_mentioned {s₀ t : State D L K} {steps : Nat} (hcreate : create A = .ok s₀)
    (hrun : run A steps s₀ = .ok s) {u : Unit} (ht : (dropPending A).run s = .ok (u, t)) :
    Grounded A (fun _ => True) t ∧ Mentioned A t := by
  obtain ⟨hs, hdone⟩ := (Reachable.create hcreate).run hrun
  have hnext : Next A s t := .drop hdone ht
  exact ⟨(hs.next hnext).grounded (hnext.premises hgraph hs), (hs.next hnext).mentioned hgraph⟩

theorem solve_tracks (steps : Nat) :
    Tracks σ [] Results.written SameResults (solve A (Journal L) steps) (solve A σ steps) := by
  refine .same_bind fun s₀ hcreate => .same_bind fun s hrun => ?_
  exact conclude_tracks steps fun t ht => dropPending_mentioned hgraph hcreate hrun ht

/-- The table of results holds a map, and its numbers have names. -/
theorem solve_named [LawfulCode τ L] {r : Results τ D L} {steps : Nat}
    (h : solve A τ steps = .ok r) :
    r.Named A.problem.zero ∧ (∃ m, r.values.Holds m) ∧ r.values.default = top := by
  obtain ⟨s₀, hcreate, h⟩ := bind_eq_ok.1 h
  obtain ⟨s, hrun, h⟩ := bind_eq_ok.1 h
  obtain ⟨⟨u, t⟩, hdrop, h⟩ := bind_eq_ok.1 h
  obtain ⟨hground, hmentioned⟩ := dropPending_mentioned hgraph hcreate hrun hdrop
  let P (values : ValueTable τ L) : Prop :=
    (∃ m, values.Holds m) ∧ values.default = top ∧
      ∀ n d, values.contains n d = true → t.Names n d
  have hkeeps : t.Keeps t.Names P := by
    refine ⟨fun _ _ h => h, fun values values' n d v hnames ⟨⟨m, hm⟩, hdefault, hnamed⟩ hset => ?_⟩
    obtain ⟨hm', hdefault'⟩ := hm.set hset
    refine ⟨⟨_, hm'⟩, hdefault'.trans hdefault, fun k e hk => ?_⟩
    rw [hm'.contains_iff, Finmap.mem_insert] at hk
    rcases hk with hk | hk
    · obtain ⟨rfl, rfl⟩ := Prod.mk.inj hk
      exact hnames
    · exact hnamed k e (hm.contains_iff.2 hk)
  have hempty : P (.empty top) :=
    ⟨⟨∅, ValueTable.holds_empty top⟩, rfl, fun n d h => by
      rw [(ValueTable.holds_empty top).contains_iff] at h
      exact absurd h Finmap.notMem_empty⟩
  have hresults : ∀ values stats, P values →
      (⟨t.nodes, t.facts, values, stats⟩ : Results τ D L).Named A.problem.zero :=
    fun values stats hP => ⟨hground.nodes, hground.facts, hmentioned.zero, hP.2.2⟩
  obtain ⟨values, hvalues, h⟩ := bind_eq_ok.1 h
  have hvalues := (reachedValues_keeps hkeeps hmentioned hempty).elim hvalues
  split at h
  · obtain ⟨e, he, h⟩ := bind_eq_ok.1 h
    obtain rfl := pure_eq_ok.1 h
    have hP := (computeValues_keeps hkeeps hground hmentioned steps hvalues).elim he
    exact ⟨hresults _ _ hP, hP.1, hP.2.1⟩
  · obtain rfl := pure_eq_ok.1 h
    exact ⟨hresults _ _ hvalues, hvalues.1, hvalues.2.1⟩

/-- A run that stores values as they are does the same as one with a journal. -/
theorem solve_journal (steps : Nat) :
    (∀ r, solve A (Verbatim L) steps = .ok r →
      ∃ r₀, solve A (Journal L) steps = .ok r₀ ∧ SameResults r₀ r) ∧
    ∀ f, solve A (Verbatim L) steps = .error f → solve A (Journal L) steps = .error f := by
  have htracks := solve_tracks (σ := Verbatim L) hgraph steps
  cases h : solve A (Journal L) steps with
  | ok r₀ =>
    obtain ⟨r, hr, hsame⟩ := htracks.ok r₀ h trivial
    rw [hr]
    exact ⟨fun _ h' => Except.ok.inj h' ▸ ⟨r₀, rfl, hsame⟩, fun _ h' => (by cases h')⟩
  | error f =>
    obtain hf : solve A (Verbatim L) steps = .error f :=
      (htracks.error f h).resolve_right fun ⟨_, _, hvs⟩ => hvs trivial
    rw [hf]
    exact ⟨fun _ h' => (by cases h'), fun _ h' => Except.error.inj h' ▸ rfl⟩

end Runs

/-! ## Transparency -/

/-- The values that a run writes, one after another. -/
def writes (A : Analysis D L K) (steps : Nat) : Except Fault (List L) :=
  Results.written <$> solve A (Journal L) steps

/-- Queries and statistics are those of a run that stores values as they are. If there are more
values than numbers, there are no results. -/
def Transparent (A : Analysis D L K) (σ : Type) [ValueCode σ L] (steps : Nat) : Prop :=
  match solve A (Verbatim L) steps with
  | .ok r => ∃ ws M, writes A steps = .ok ws ∧ r.Views A.problem.zero top M ∧
      if Numberable ws then
        ∃ r', solve A σ steps = .ok r' ∧ r'.Views A.problem.zero top M ∧ r'.stats = r.stats
      else solve A σ steps = .error .idsExhausted
  | .error f => solve A σ steps = .error f ∨
      solve A σ steps = .error .idsExhausted ∧ ∃ ws : List L, ¬ Numberable ws

theorem solve_transparent [Std.TransOrd D] [Std.LawfulEqOrd D] [Std.TransOrd L] [Std.LawfulEqOrd L]
    [Std.TransOrd K] [Std.LawfulEqOrd K] (hgraph : A.graph.Built)
    (hroom : ∀ ws : List L, MeteredCode.Admits σ ws ↔ Numberable ws) (steps : Nat) :
    Transparent A σ steps := by
  have htracks := solve_tracks (σ := σ) hgraph steps
  obtain ⟨hok, herror⟩ := solve_journal hgraph steps
  unfold Transparent
  cases hr : solve A (Verbatim L) steps with
  | error f =>
    refine (htracks.error f (herror f hr)).imp_right fun ⟨h, ws, hws⟩ => ⟨h, ws, ?_⟩
    rwa [← hroom]
  | ok r =>
    obtain ⟨r₀, hr₀, hsame⟩ := hok r hr
    obtain ⟨hnamed₀, -, -⟩ := solve_named hgraph hr₀
    obtain ⟨hnamed, ⟨m, hm⟩, hdefault⟩ := solve_named hgraph hr
    refine ⟨r₀.written, r.toMap, by rw [writes, hr₀]; rfl, hdefault ▸ hnamed.views hm, ?_⟩
    split
    · next hnumberable =>
      obtain ⟨r', hr', hsame'⟩ := htracks.ok r₀ hr₀ ((hroom _).2 hnumberable)
      obtain ⟨hnamed', ⟨m', hm'⟩, hdefault'⟩ := solve_named hgraph hr'
      refine ⟨r', hr', ?_, hsame'.stats.trans hsame.stats.symm⟩
      rw [hsame.toMap_eq hnamed₀ hnamed, ← hsame'.toMap_eq hnamed₀ hnamed']
      exact hdefault' ▸ hnamed'.views hm'
    · next hfull => exact htracks.full r₀ hr₀ fun h => hfull ((hroom _).1 h)

end Solver

end Values

/-- A table shows what was written last. If there are more values than numbers, there is no table.
-/
def WritesTransparent {L : Type} [DecidableEq L] (σ : Type) [ValueCode σ L] (default : L)
    (writes : List (NodeId × FactId × L)) : Prop :=
  if Numberable (writes.map (·.2.2)) then
    ∃ t : ValueTable σ L, (ValueTable.empty default).writeAll writes = .ok t ∧
      t.ReadsAs default (lastWrites writes)
  else (ValueTable.empty default : ValueTable σ L).writeAll writes = .error .idsExhausted

theorem writes_transparent {σ L : Type} [DecidableEq L] [ValueCode σ L] [LawfulCode σ L]
    [MeteredCode σ L] (hroom : ∀ ws : List L, MeteredCode.Admits σ ws ↔ Numberable ws) (default : L)
    (writes : List (NodeId × FactId × L)) : WritesTransparent σ default writes := by
  obtain ⟨hreads, hfull⟩ := writeAll_readsAs (σ := σ) default writes
  rw [hroom] at hreads hfull
  unfold WritesTransparent
  split
  · next h => exact hreads h
  · next h => exact hfull h

/-- All codes of values show the same. A table answers every look-up like the map of the values that
were written last, and a run answers every query like one map of values by node and fact, whichever
code is used. Interners have enough numbers exactly if less than 2³² distinct values are written. -/
theorem codes_transparent {D L K : Type} [Ord D] [Ord L] [Ord K] [DecidableEq D] [JoinLattice L]
    [DecidableEq L] [Payload K L] [Std.TransOrd D] [Std.LawfulEqOrd D] [Std.TransOrd L]
    [Std.LawfulEqOrd L] [Std.TransOrd K] [Std.LawfulEqOrd K] :
    (∀ (default : L) (writes : List (NodeId × FactId × L)),
      (∃ t : ValueTable (Verbatim L) L, (ValueTable.empty default).writeAll writes = .ok t ∧
        t.ReadsAs default (lastWrites writes)) ∧
      WritesTransparent (Interner L) default writes ∧
      WritesTransparent (SharedInterner L) default writes) ∧
    ∀ (A : Analysis D L K) (steps : Nat), A.graph.Built →
      Solver.Transparent A (Interner L) steps ∧ Solver.Transparent A (SharedInterner L) steps :=
  ⟨fun default writes => ⟨(writeAll_readsAs default writes).1 trivial,
      writes_transparent (fun _ => Iff.rfl) default writes,
      writes_transparent (fun _ => Iff.rfl) default writes⟩,
    fun _ steps hgraph => ⟨Solver.solve_transparent hgraph (fun _ => Iff.rfl) steps,
      Solver.solve_transparent hgraph (fun _ => Iff.rfl) steps⟩⟩

open Solver in
/-- A run that writes six values, three of them distinct. -/
theorem codes_transparent_straight :
    ∃ g r r' M, Straight.graph = .ok g ∧ solve (Straight.analysis g) (Verbatim Mask) 50 = .ok r ∧
      solve (Straight.analysis g) (SharedInterner Mask) 50 = .ok r' ∧
      r.Views 0 top M ∧ r'.Views 0 top M ∧ r'.stats = r.stats := by
  have hrun : (do
      let g ← Straight.graph
      let r ← solve (Straight.analysis g) (Verbatim Mask) 50
      let ws ← writes (Straight.analysis g) 50
      return (ws.length, ws.eraseDups.length, r.size)) = .ok (6, 3, 3) := by
    decide +kernel
  simp only [bind_eq_ok, pure_eq_ok, Prod.mk.injEq] at hrun
  obtain ⟨g, hg, r, hr, ws, hws, -, hdistinct, -⟩ := hrun
  have hshared := (codes_transparent.2 (Straight.analysis g) 50 (.ofSteps hg)).2
  unfold Transparent at hshared
  rw [hr] at hshared
  obtain ⟨ws', M, hws', hviews, hcode⟩ := hshared
  obtain rfl := Except.ok.inj (hws.symm.trans hws')
  have hroom : Numberable ws := by
    rw [Numberable, hdistinct]
    decide
  rw [if_pos hroom] at hcode
  obtain ⟨r', hr', hviews', hstats⟩ := hcode
  exact ⟨g, r, r', M, hg, hr, hr', hviews, hviews', hstats⟩

end Tabulation
