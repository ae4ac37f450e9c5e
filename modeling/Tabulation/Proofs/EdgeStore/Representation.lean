import Mathlib.Logic.Relation
import Tabulation.Proofs.EdgeStore.Denotation
import Tabulation.EdgeStore.Render

/-!
# The representation of a store

How a store that its operations built, `build`, looks from inside. The reserved slots, the free
list, the canonical tables and the counters fit together, and what a node refers to is alive.

**No cycles.** A slot that is used again may hold a node whose operands stand behind it, so
positions say nothing about the order of nodes. Heights do, `Ranked`: operands never lead back to
where they started, `Regular.acyclic`, and every walk through them ends.

**Normal forms.** No live node could be written in a simpler way: what the operations can fold,
flatten or re-associate is nowhere left in a store, whatever was built from results of other
operations and whatever was swept.

Main results: `representation_of_build` and `normal_forms_of_build`.
-/

namespace Tabulation

namespace EdgeStore

variable {L K : Type}

theorem ne_constant [JoinLattice L] {node : EdgeNode L K} (h : node.constant? = none) (v : L) :
    node ≠ .constant v := by
  rintro rfl
  cases h

variable [Ord L] [Ord K]

/-- The live node of `ef` refers to `p`. -/
def Operand (s : EdgeStore L K) (p ef : EdgeRef) : Prop :=
  ∃ node, s.node? ef = some node ∧ p ∈ node.operands

variable {s : EdgeStore L K} {a b c ef : EdgeRef}

/-! ## Text -/

theorem mapM_total {ε α β : Type} {f : α → Except ε β} {l : List α}
    (h : ∀ x ∈ l, ∃ y, f x = .ok y) : ∃ ys, l.mapM f = .ok ys := by
  induction l with
  | nil => exact ⟨[], rfl⟩
  | cons x l ih =>
    obtain ⟨y, hy⟩ := h x List.mem_cons_self
    obtain ⟨ys, hys⟩ := ih fun z hz => h z (List.mem_cons_of_mem x hz)
    rw [List.mapM_cons]
    exact ⟨y :: ys, bind_eq_ok.2 ⟨y, hy, bind_eq_ok.2 ⟨ys, hys, rfl⟩⟩⟩

/-- A function is written out as far as a walk through its operands goes. -/
theorem renderTo_total [Inspect L] [Inspect K] {n : Nat} (h : Within s n ef) :
    ∃ text, s.renderTo n ef = .ok text := by
  induction n generalizing ef with
  | zero => cases h
  | succ n ih =>
    obtain ⟨node, hn, hops⟩ := h
    simp only [renderTo, bind_eq_ok, node_eq_ok.2 hn, Except.ok.injEq, exists_eq_left']
    cases node with
    | compose f g =>
      obtain ⟨x, hx⟩ := ih (hops f (by simp [EdgeNode.operands]))
      obtain ⟨y, hy⟩ := ih (hops g (by simp [EdgeNode.operands]))
      exact ⟨_, bind_eq_ok.2 ⟨x, hx, bind_eq_ok.2 ⟨y, hy, rfl⟩⟩⟩
    | join seed parts =>
      obtain ⟨texts, htexts⟩ := mapM_total fun p hp => ih (hops p hp)
      exact ⟨_, bind_eq_ok.2 ⟨texts, htexts, rfl⟩⟩
    | _ => exact ⟨_, rfl⟩

/-! ## Regular stores from inside -/

variable [JoinLattice L] [Payload K L] [DecidableEq L]

namespace Regular

theorem height_lt_of_operands (h : Regular s) {p : EdgeRef}
    (hp : Relation.TransGen s.Operand p ef) : s.height p < s.height ef := by
  induction hp with
  | single hop =>
    obtain ⟨node, hn, hmem⟩ := hop
    exact h.ranked _ node p hn hmem
  | tail _ hop ih =>
    obtain ⟨node, hn, hmem⟩ := hop
    exact Nat.lt_trans ih (h.ranked _ node _ hn hmem)

/-- Operands do not lead back. -/
theorem acyclic (h : Regular s) (ef : EdgeRef) : ¬ Relation.TransGen s.Operand ef ef :=
  fun hcycle => Nat.lt_irrefl _ (h.height_lt_of_operands hcycle)

theorem render (h : Regular s) [Inspect L] [Inspect K] (ha : s.Alive ef) :
    ∃ text, s.render ef = .ok text := renderTo_total (h.within ha (Nat.lt_succ_self _))

/-- The free slots and the reserved ones fit into the store. -/
theorem length_free_le (h : Regular s) : s.free.length + 3 ≤ s.slots.size := by
  have hnodup : [EdgeRef.identity, .allTop, .allBottom].Nodup := by decide
  have hlength := h.length_le hnodup fun ef hef => by
    rcases (by simpa using hef : ef = .identity ∨ ef = .allTop ∨ ef = .allBottom) with
      rfl | rfl | rfl
    · exact ⟨_, h.identity⟩
    · exact ⟨_, h.allTop⟩
    · exact ⟨_, h.allBottom⟩
  simpa [Nat.add_comm] using hlength

/-- What was stored and not freed is alive, beside the reserved nodes. -/
theorem counters (h : Regular s) : s.swept ≤ s.interned ∧ s.interned - s.swept + 3 = s.size := by
  have hcount := h.count
  have hfree := h.length_free_le
  unfold size
  omega

/-- A handle whose function neither is the identity nor ignores its argument is not reserved. -/
theorem isReserved_eq_false (h : Regular s) {node : EdgeNode L K} (hn : s.node? ef = some node)
    (hid : ef ≠ .identity) (hconstant : node.constant? = none) : ef.isReserved = false := by
  rcases h.cases hn with ⟨rfl, -⟩ | ⟨-, rfl⟩ | ⟨-, rfl⟩ | ⟨hge, -⟩
  · exact absurd rfl hid
  · cases hconstant
  · cases hconstant
  · exact decide_eq_false (Nat.not_lt.2 hge)

end Regular

variable [Std.TransOrd L] [Std.LawfulEqOrd L] [Std.TransOrd K] [Std.LawfulEqOrd K]

/-- **The representation of a built store.** The first three slots hold the reserved nodes. The free
list has the empty slots, each once. The canonical tables know the live nodes that have a kind, of
which there is one copy each. Operands are alive and do not lead back, so a live function can be
evaluated, composed and written out. What is remembered is alive, and the counters add up. -/
theorem representation_of_build [Inspect L] [Inspect K] (limit : Nat) (ops : List (Op L K))
    (s : EdgeStore L K) (hs : build limit ops = .ok s) :
    (s.node? ⟨0⟩ = some .identity ∧ s.node? ⟨1⟩ = some .allTop ∧
      s.node? ⟨2⟩ = some .allBottom) ∧
    (s.free.Nodup ∧ ∀ i, i ∈ s.free ↔ s.slots[i]? = some none) ∧
    (∀ node ef, s.canon.find? node = some ef ↔ s.node? ef = some node ∧ (kind? node).isSome) ∧
    (∀ node a b, (kind? node).isSome → s.node? a = some node → s.node? b = some node → a = b) ∧
    (∀ p ef, s.Operand p ef → s.Alive p) ∧
    (∀ ef, ¬ Relation.TransGen s.Operand ef ef) ∧
    (∀ ef, s.Alive ef → (∀ v, ∃ r, s.eval ef v = .ok r) ∧ (∃ text, s.render ef = .ok text) ∧
      ∀ g, s.Alive g → ∃ c s', s.compose ef g = .ok (c, s')) ∧
    (∀ a b c, s.composed.table[(a, b)]? = some c ∨ s.joined.table[(a, b)]? = some c →
      s.Alive a ∧ s.Alive b ∧ s.Alive c) ∧
    s.swept ≤ s.interned ∧ s.interned - s.swept + 3 = s.size := by
  obtain ⟨h, -⟩ := regular_of_build hs
  refine ⟨⟨h.identity, h.allTop, h.allBottom⟩, ⟨h.nodup, h.free⟩, h.canon,
    fun _ _ _ hk ha hb => h.unique hk ha hb, ?_, h.acyclic, ?_, ?_, h.counters⟩
  · intro p ef hop
    obtain ⟨node, hn, hp⟩ := hop
    exact h.operands hn hp
  · intro ef ha
    refine ⟨fun v => ?_, h.render ha, fun g hg => ?_⟩
    · obtain ⟨φ, hφ⟩ := h.means ha
      exact ⟨φ v, h.eval hφ v⟩
    · obtain ⟨c, s', hc, -⟩ := h.compose ha hg
      exact ⟨c, s', hc⟩
  · intro a b c hc
    rcases hc with hc | hc
    · obtain ⟨ha, hb, n, hshape⟩ := h.composed a b c hc
      exact ⟨ha, hb, hshape.alive h ha hb⟩
    · obtain ⟨ha, hb, hshape⟩ := h.joined a b c hc
      exact ⟨ha, hb, hshape.alive h ha hb⟩

/-- A join of two shifts, and in the slot that a constant left a composition of both with one. -/
def refilled : List (Op Mask MaskMap) :=
  [.leaf (.constant ⟨7⟩), .leaf (.custom (.shiftLeft 1)), .leaf (.custom (.shiftLeft 2)),
    .join ⟨4⟩ ⟨5⟩, .sweep [⟨6⟩], .compose ⟨6⟩ ⟨4⟩]

/-- A node may stand before its operands, which do not lead back to it all the same. -/
theorem representation_of_build_refilled :
    ∃ s, build 2 refilled = .ok s ∧ s.node? ⟨3⟩ = some (.compose ⟨6⟩ ⟨4⟩) ∧
      s.composed.table[((⟨6⟩, ⟨4⟩) : EdgeRef × EdgeRef)]? = some ⟨3⟩ ∧ s.Alive ⟨6⟩ ∧
      ¬ Relation.TransGen s.Operand ⟨3⟩ ⟨6⟩ ∧ s.size = 7 ∧ s.interned - s.swept = 4 := by
  have hrun : (do
      let s ← build 2 refilled
      return (s.node? ⟨3⟩, s.composed.table[((⟨6⟩, ⟨4⟩) : EdgeRef × EdgeRef)]?, s.size)) =
      .ok (some (.compose ⟨6⟩ ⟨4⟩), some ⟨3⟩, 7) := by
    decide +kernel
  simp only [bind_eq_ok, pure_eq_ok, Prod.mk.injEq] at hrun
  obtain ⟨s, hs, hnode, hmemo, hsize⟩ := hrun
  obtain ⟨-, -, -, -, -, hacyclic, -, halive, hle, hcount⟩ :=
    representation_of_build 2 refilled s hs
  refine ⟨s, hs, hnode, hmemo, (halive _ _ _ (.inl hmemo)).1, fun hback => ?_, hsize, by omega⟩
  exact hacyclic ⟨6⟩ (.head ⟨_, hnode, by decide⟩ hback)

/-- **The normal forms of a built store.** Constants are no bounds, and payloads are not known to be
constant. Operands of a composition are neither reserved nor constant, the first is no composition,
and two payloads are composed only if the client could not do it. Joins have ascending parts, at
least one and at most as many as the limit says, of which none is a bound, a constant or a join;
their seed is not bottom, and with a single part it is not top. -/
theorem normal_forms_of_build (limit : Nat) (ops : List (Op L K)) (s : EdgeStore L K)
    (hs : build limit ops = .ok s) :
    (∀ ef v, s.node? ef = some (.constant v) → v ≠ top ∧ v ≠ bottom) ∧
    (∀ ef k, s.node? ef = some (.custom k) → Payload.constant? (L := L) k = none) ∧
    (∀ ef a b, s.node? ef = some (.compose a b) →
      a.isReserved = false ∧ b.isReserved = false ∧
      ∃ f g, s.node? a = some f ∧ s.node? b = some g ∧ (∀ v, f ≠ .constant v ∧ g ≠ .constant v) ∧
        (∀ x y, f ≠ .compose x y) ∧
        ∀ p q, f = .custom p → g = .custom q → Payload.compose? L p q = none) ∧
    ∀ ef seed parts, s.node? ef = some (.join seed parts) →
      parts.Pairwise (·.index < ·.index) ∧ 1 ≤ parts.length ∧ parts.length ≤ limit ∧
      seed ≠ bottom ∧ (parts.length = 1 → seed ≠ top) ∧
      ∀ p ∈ parts, p ≠ .allTop ∧ p ≠ .allBottom ∧
        ∃ f, s.node? p = some f ∧ (∀ v, f ≠ .constant v) ∧
          ∀ seed' parts', f ≠ .join seed' parts' := by
  obtain ⟨h, hlimit⟩ := regular_of_build hs
  refine ⟨fun ef v hn => ?_, fun ef k hn => ?_, fun ef a b hn => ?_, fun ef seed parts hn => ?_⟩
  · exact h.normal_of_ne hn nofun nofun nofun
  · exact h.normal_of_ne hn nofun nofun nofun
  · obtain ⟨f, g, hf, hg, hnormal⟩ := h.normal_of_ne hn nofun nofun nofun
    refine ⟨h.isReserved_eq_false hf hnormal.first hnormal.constant_first,
      h.isReserved_eq_false hg hnormal.second hnormal.constant_second, f, g, hf, hg,
      fun v => ⟨ne_constant hnormal.constant_first v, ne_constant hnormal.constant_second v⟩,
      hnormal.right, ?_⟩
    rintro p q rfl rfl
    exact hnormal.custom
  · obtain ⟨hjoin, hparts⟩ := h.normal_of_ne hn nofun nofun nofun
    refine ⟨hjoin.ascending, List.length_pos_iff.2 hjoin.nonempty, hlimit ▸ hjoin.short,
      hjoin.seed_ne, hjoin.single, fun p hp => ?_⟩
    obtain ⟨f, hf, hpart⟩ := hparts p hp
    exact ⟨fun he => hjoin.allTop (he ▸ hp), fun he => hjoin.allBottom (he ▸ hp), f, hf,
      ne_constant hpart.constant, hpart.join⟩

/-- Two shifts, a join of the first with a constant, and after a sweep a composition that began with
a composition and a join that began with a join. -/
def nested : List (Op Mask MaskMap) :=
  [.leaf (.custom (.shiftLeft 1)), .leaf (.custom (.shiftLeft 2)), .leaf (.constant ⟨7⟩),
    .join ⟨3⟩ ⟨5⟩, .compose ⟨3⟩ ⟨4⟩, .sweep [⟨6⟩, ⟨7⟩], .compose ⟨7⟩ ⟨6⟩, .join ⟨6⟩ ⟨7⟩]

/-- Compositions are nested to the right and joins are flat, also in slots that were used before. -/
theorem normal_forms_of_build_nested :
    ∃ s, build 2 nested = .ok s ∧ s.node? ⟨8⟩ = some (.compose ⟨3⟩ ⟨5⟩) ∧
      s.node? ⟨5⟩ = some (.compose ⟨4⟩ ⟨6⟩) ∧ s.node? ⟨9⟩ = some (.join ⟨7⟩ [⟨3⟩, ⟨7⟩]) ∧
      (∃ f, s.node? ⟨3⟩ = some f ∧ ∀ x y, f ≠ .compose x y) ∧
      ∃ f, s.node? ⟨7⟩ = some f ∧ ∀ seed parts, f ≠ .join seed parts := by
  have hrun : (do
      let s ← build 2 nested
      return (s.node? ⟨8⟩, s.node? ⟨5⟩, s.node? ⟨9⟩)) =
      .ok (some (.compose ⟨3⟩ ⟨5⟩), some (.compose ⟨4⟩ ⟨6⟩), some (.join ⟨7⟩ [⟨3⟩, ⟨7⟩])) := by
    decide +kernel
  simp only [bind_eq_ok, pure_eq_ok, Prod.mk.injEq] at hrun
  obtain ⟨s, hs, h₈, h₅, h₉⟩ := hrun
  obtain ⟨-, -, hcompose, hjoin⟩ := normal_forms_of_build 2 nested s hs
  obtain ⟨-, -, f, -, hf, -, -, hright, -⟩ := hcompose _ _ _ h₈
  obtain ⟨-, -, -, -, -, hparts⟩ := hjoin _ _ _ h₉
  obtain ⟨-, -, g, hg, -, hflat⟩ := hparts ⟨7⟩ (by simp)
  exact ⟨s, hs, h₈, h₅, h₉, ⟨f, hf, hright⟩, g, hg, hflat⟩

end EdgeStore

end Tabulation
